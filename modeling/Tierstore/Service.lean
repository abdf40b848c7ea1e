import Tierstore.Lib.Carry
import Tierstore.Load

/-! The whole interface of a router and of the cache over it, as calls that run concurrently
on one stack, and where the entries come from that they show. -/
namespace Tierstore
open Overlay Effects

inductive RouterCall (K V : Type) where
  | get (key : K)
  | exists_ (key : K)
  | getMany (keys : List K)
  | put (key : K) (value : V)
  | delete (key : K)
  | putMany (entries : List (K × V))
  | deleteMany (keys : List K)
  | readMany (keys : List K)
  | readOne (key : K)
  | removeMany (keys : List K)

namespace RouterCall
variable {K V : Type}

abbrev Output (E : Type) : RouterCall K V → Type
  | .get _ => Option (Except (RouterError E) (Option V))
  | .exists_ _ => Option (Except (RouterError E) Bool)
  | .getMany _ => Except (RouterError E) (List (Option V))
  | .put _ _ => Except (RouterError E) (Displaced K V)
  | .delete _ => Except (RouterError E) Bool
  | .putMany _ => Except (RouterError E) (Displaced K V)
  | .deleteMany _ => Except (RouterError E) (List Bool)
  | .readMany _ => Except (RouterError E) (ReadReport V E)
  | .readOne _ => Except (RouterError E) (ReadOneReport V E)
  | .removeMany _ => DeleteReport E

def written : RouterCall K V → List (K × V)
  | .put key value => [(key, value)]
  | .putMany entries => entries
  | _ => []

def Shows {E : Type} : (c : RouterCall K V) → c.Output E → K × V → Prop
  | .get key, a, e => e.1 = key ∧ a = some (.ok (some e.2))
  | .getMany keys, a, e => ∃ values, a = .ok values ∧ (e.1, some e.2) ∈ keys.zip values
  | .put _ _, a, e => ∃ displaced, a = .ok displaced ∧ e ∈ displaced
  | .putMany _, a, e => ∃ displaced, a = .ok displaced ∧ e ∈ displaced
  | .readMany keys, a, e => ∃ report, a = .ok report ∧ (e.1, some e.2) ∈ keys.zip report.intoValues
  | .readOne key, a, e => e.1 = key ∧ ∃ report, a = .ok report ∧ report.status.value = some e.2
  | .exists_ _, _, _ => False
  | .delete _, _, _ => False
  | .deleteMany _, _, _ => False
  | .removeMany _, _, _ => False

end RouterCall

/-- A call on a cache: its own reads, or what it forwards to its router (`contains`, `put`,
`invalidate` and the batches). -/
inductive ServiceCall (K V L : Type) where
  | router (c : RouterCall K V)
  | get (key : K)
  | lookup (key : K)
  | getOrLoad (key : K) (load : Except L V)

namespace ServiceCall
variable {K V L : Type}

abbrev Output (E : Type) : ServiceCall K V L → Type
  | .router c => c.Output E
  | .get _ => Except (RouterError E) (Option V)
  | .lookup _ => Except (RouterError E) (ReadOneReport V E)
  | .getOrLoad _ _ => Except L V

def written : ServiceCall K V L → List (K × V)
  | .router c => c.written
  | .getOrLoad key (.ok value) => [(key, value)]
  | _ => []

def Shows {E : Type} : (c : ServiceCall K V L) → c.Output E → K × V → Prop
  | .router c, a, e => c.Shows a e
  | .get key, a, e => e.1 = key ∧ a = .ok (some e.2)
  | .lookup key, a, e => e.1 = key ∧ ∃ report, a = .ok report ∧ report.status.value = some e.2
  | .getOrLoad key _, a, e => e.1 = key ∧ a = .ok e.2

end ServiceCall

namespace Router
variable {n : Nat} {K V E : Type} (r : Router n)

def execute : (c : RouterCall K V) → RouterM n K V E (c.Output E)
  | .get key => r.get key
  | .exists_ key => r.exists_ key
  | .getMany keys => r.getMany keys
  | .put key value => r.put key value
  | .delete key => r.delete key
  | .putMany entries => r.putMany entries
  | .deleteMany keys => r.deleteMany keys
  | .readMany keys => r.readMany keys
  | .readOne key => r.readOne key
  | .removeMany keys => r.removeMany keys

end Router

namespace TieredCache
variable {n : Nat} {T K V E L : Type}

abbrev ServicePool (n : Nat) (T K V E L : Type) {ι : Type} (calls : ι → ServiceCall K V L) :=
  Pool ι (LoadQuery n K V L) (LoadAnswer n K V E L) (fun i => (calls i).Output E) (Shared T K n)

def execute (r : Router n) (singleFlight : Bool) :
    (c : ServiceCall K V L) → LoadM n K V E L (c.Output E)
  | .router c => liftCache (lift (r.execute c))
  | .get key => liftCache (getGated r singleFlight key)
  | .lookup key => liftCache (lookupGated r singleFlight key)
  | .getOrLoad key load => getOrLoad r singleFlight key load

def startService [Tier T K V E] {ι : Type} (r : Router n) (singleFlight : Bool)
    (calls : ι → ServiceCall K V L) (s : Stack T n) : ServicePool n T K V E L calls :=
  .start { stack := s, gates := [] } fun i => execute r singleFlight (calls i)

end TieredCache

/-! ## What the writes hand back -/
namespace Router
variable {n : Nat} {K V E : Type} (r : Router n) {P : K → V → Prop}

abbrev Honest (P : K → V → Prop) {α : Type} (post : α → Prop) (p : RouterM n K V E α) : Prop :=
  Clean (fun _ => True) (fun _ => True) (fun _ => True) P post p

theorem demoteDown_honest (below : List (Fin n)) {current : Displaced K V}
    (hcur : Vouched P current) :
    Honest P (Vouched P) (r.demoteDown below current : RouterM n K V E _) := by
  induction below generalizing current with
  | nil => exact hcur
  | cons target below ih =>
    rw [demoteDown]
    split
    · exact hcur
    · split
      · exact ih hcur
      · have hdemote : Honest P (Vouched P)
            (demoteInto target current [] : RouterM n K V E _) :=
          demoteInto_clean trivial current [] hcur fun d hd => hd trivial
        exact hdemote.bind fun next hnext => ih hnext

theorem writeThrough_honest {w : Fin n → RouterM n K V E (Except E (Displaced K V))}
    (hw : ∀ t, Honest P (fun a => ∀ d, a = .ok d → Vouched P d) (w t)) (ts : List (Fin n))
    {evicted : Displaced K V} (hevicted : Vouched P evicted) :
    Honest P (fun a => ∀ d, a = .ok d → Vouched P d) (r.writeThrough w ts evicted) := by
  induction ts generalizing evicted with
  | nil =>
    intro d hd
    cases hd
    exact hevicted
  | cons t above ih =>
    rw [writeThrough]
    split
    · exact ih hevicted
    · refine (hw t).bind fun a ha => ?_
      cases a with
      | ok d =>
        dsimp only
        split
        · exact ih hevicted
        · split
          · refine (r.demoteDown_honest _ (ha d rfl)).bind fun out hout => ih ?_
            exact List.forall_mem_append.2 ⟨hevicted, hout⟩
          · exact ih (List.forall_mem_append.2 ⟨hevicted, ha d rfl⟩)
      | error source =>
        dsimp only
        cases r.policy.onWriteError with
        | failFast => exact fun d hd => by cases hd
        | bestEffort => exact ih hevicted

theorem writeAround_honest {α : Type} {w : Fin n → RouterM n K V E (Except E (Displaced K V))}
    {remove : Fin n → RouterM n K V E (Except E α)}
    (hw : ∀ t, Honest P (fun a => ∀ d, a = .ok d → Vouched P d) (w t))
    (hremove : ∀ t, Honest P (fun _ => True) (remove t)) :
    Honest P (fun a => ∀ d, a = .ok d → Vouched P d) (r.writeAround w remove) := by
  rw [writeAround]
  split
  · exact fun d hd => by cases hd
  · next b _ =>
    refine (hw b).bind fun a ha => ?_
    cases a with
    | error source => exact fun d hd => by cases hd
    | ok d =>
      refine (r.invalidate_clean hremove _ []).bind fun failures _ => ?_
      split
      · exact fun out hout => by
          cases hout
          exact ha d rfl
      · exact fun out hout => by cases hout

end Router
end Tierstore
