import Tierstore.Flaky
import Tierstore.Soundness

/-! The read-through cache over the router, run by one caller at a time. -/
namespace Tierstore
open Overlay Effects

namespace TieredCache

def defaultPolicy : Policy :=
  { read := { promote := .topOnly, onError := .fallThrough }
    write := .writeThrough
    onWriteError := .bestEffort
    demoteDisplaced := true }

section Api
variable {n : Nat} {K V E : Type} (r : Router n)

def answer : Except (RouterError E) (ReadOneReport V E) → Except (RouterError E) (Option V)
  | .error error => .error error
  | .ok report =>
    match report.status with
    | .hit _ value => .ok (some value)
    | .miss => .ok none
    | .inconclusive => .error (.inconclusive report.failures)

/-- The lookup without its gate, which only matters among concurrent calls (`Gates`). -/
def lookup (key : K) : RouterM n K V E (Except (RouterError E) (ReadOneReport V E)) :=
  r.readOne key

def get (key : K) : RouterM n K V E (Except (RouterError E) (Option V)) := do
  let report ← lookup r key
  pure (answer report)

def put (key : K) (value : V) : RouterM n K V E (Except (RouterError E) (Displaced K V)) :=
  r.put key value

def invalidate (key : K) : RouterM n K V E (Except (RouterError E) Bool) := r.delete key

variable {D Q : Fin n → Prop} {X : K → Prop} {P : K → V → Prop}

theorem get_clean (hD : ∀ t, D t) (hQ : ∀ t, r.Spills t → Q t) (key : K) :
    Clean D X Q P (fun a => ∀ v, a = .ok (some v) → P key v)
      (get r key : RouterM n K V E _) := by
  refine (r.readOne_clean hD hQ key).bind fun a ha v hv => ?_
  cases a with
  | error e => cases hv
  | ok report =>
    refine ha report rfl v ?_
    unfold answer at hv
    cases hstatus : report.status with
    | hit t w =>
      simp only [hstatus, Except.ok.injEq, Option.some.injEq] at hv
      simp [KeyStatus.value, hv]
    | miss => simp [hstatus] at hv
    | inconclusive => simp [hstatus] at hv

end Api

/-! ## Tiers that cannot fail -/
section Infallible
variable {n : Nat} {K V : Type} (r : Router n)

theorem resolve_conclusive {m : Nat} (t : Fin n) (l : List (Fin m × Option V))
    (statuses : Fin m → KeyStatus V) (h : ∀ i, (statuses i).isInconclusive = false) (i : Fin m) :
    ((Router.resolve t l statuses).1 i).isInconclusive = false := by
  obtain hold | ⟨v, -, hhit⟩ := Router.resolve_cases t l statuses i
  · rw [hold]
    exact h i
  · rw [hhit]
    rfl

theorem readTiers_conclusive (keys : List K) (l : List (Fin n))
    (statuses : Fin keys.length → KeyStatus V) (unresolved : List (Fin keys.length))
    (h : ∀ i, (statuses i).isInconclusive = false) :
    (r.readTiers keys l statuses unresolved [] : RouterM n K V Infallible _).Safe
      (fun _ => True) (fun _ _ => True)
      (fun a => ∃ st left, a = .ok (st, left, []) ∧ ∀ i, (st i).isInconclusive = false) := by
  induction l generalizing statuses unresolved with
  | nil => exact ⟨statuses, unresolved, rfl, h⟩
  | cons t below ih =>
    rw [Router.readTiers]
    split
    · exact ⟨statuses, unresolved, rfl, h⟩
    · refine ⟨trivial, fun a _ => ?_⟩
      cases a with
      | ok found => exact ih _ _ (resolve_conclusive t _ statuses h)
      | error source => exact source.elim

/-- A read of such tiers is a hit or a miss. -/
theorem get_conclusive (key : K) :
    (get r key : RouterM n K V Infallible _).Safe (fun _ => True) (fun _ _ => True)
      (fun a => ∃ found, a = .ok found) := by
  have hread : (r.readMany [key] : RouterM n K V Infallible _).Safe
      (fun _ => True) (fun _ _ => True)
      (fun a => ∃ report, a = .ok report ∧
        ∀ status ∈ report.statuses, status.isInconclusive = false) := by
    refine (readTiers_conclusive r [key] (List.finRange n) (fun _ => .miss) _
      fun _ => rfl).bind fun a ha => ?_
    obtain ⟨st, left, rfl, hst⟩ := ha
    refine (Program.safe_of_free _).bind fun _ _ => ⟨_, rfl, fun status hmem => ?_⟩
    obtain ⟨i, rfl⟩ := List.mem_ofFn.1 hmem
    exact hst i
  refine (hread.bind fun a ha => ?_).bind (fun a (ha : ∃ report, a = .ok report ∧
    report.status.isInconclusive = false) => ?_)
  · obtain ⟨report, rfl, hall⟩ := ha
    refine ⟨_, rfl, ?_⟩
    cases hlast : report.statuses.getLast? with
    | none => rfl
    | some status => exact hall status (List.mem_of_getLast? hlast)
  · obtain ⟨report, rfl, hstatus⟩ := ha
    change ∃ found, answer (.ok report) = .ok found
    unfold answer
    cases hs : report.status with
    | hit t v => exact ⟨some v, by simp [hs]⟩
    | miss => exact ⟨none, by simp [hs]⟩
    | inconclusive => simp [hs, KeyStatus.isInconclusive] at hstatus

end Infallible

section Shadow
variable {T K V E : Type} {n : Nat} [DecidableEq K] [Tier T K V E] [LawfulTier T]

/-- Any entry of another key, and of `k` only the value `v`. -/
def Fresh (k : K) (v : V) : K → V → Prop := fun x w => x = k → w = v

/-- Every tier that rejects the put holds no other value under its key. -/
def RejectedClean (s : Stack T n) (k : K) (v : V) : Prop :=
  ∀ t e, (Tier.put (s t).tier k v).1 = .error e → ∀ w, s.held t k = some w → w = v

theorem holds_fresh_write (m : K → Option V) (k : K) (v : V) :
    Holds (Fresh k v) (write m [(k, v)]) := by
  intro x w hx hxk
  rw [hxk, write_singleton, if_pos rfl] at hx
  exact (Option.some.inj hx).symm

/-- After the put no tier holds another value of the key. -/
theorem put_fresh (r : Router n) (hw : ∀ i, r.writable i = true)
    (hp : r.policy = defaultPolicy) (s : Stack T n) (k : K) (v : V)
    (hreject : RejectedClean s k v) :
    ∀ i, Holds (Fresh k v) ((Stack.run (r.put k v) s).2.held i) := by
  have hdemote : r.policy.demoteDisplaced = true := by rw [hp]; rfl
  have hbest : E → r.policy.onWriteError = .bestEffort := fun _ => by rw [hp]; rfl
  have hmode : r.policy.write = .writeThrough := by rw [hp]; rfl
  have hsplit : List.finRange n = (List.finRange n).reverse.reverse ++ [] := by simp
  have hspread := Stack.writeThrough_holds (X := fun _ => True) (P := Fresh k v)
    (J := fun _ => True) r hw hdemote hbest s (fun _ _ _ _ => trivial)
    (Stack.writes_put (T := T) (E := E) k v).other (List.finRange n).reverse [] hsplit
  rw [Router.put, hmode]
  dsimp only
  split
  · next hnone =>
    intro i
    simp [Router.any_writable (hw i)] at hnone
  · refine (hspread (fun t _ s' (hs' : s' t = s t) => ?_) [] s ?_ ?_ trivial).1
    · have hheld := Stack.held_exec (t, .put k v) s'
      have herr := LawfulTier.put_error (s' t).tier k v
      rw [Stack.run_putAt, hheld]
      change Holds _ (contents (Tier.put (s' t).tier k v).2) ∧
        (∀ d, (Tier.put (s' t).tier k v).1 = .ok d → Vouched _ d) ∧ _
      cases hres : (Tier.put (s' t).tier k v).1 with
      | ok d =>
        obtain ⟨hd, hholds⟩ := put_clean (holds_fresh_write _ k v) hres
        exact ⟨hholds, fun d' h => Except.ok.inj h ▸ hd, fun _ => trivial⟩
      | error e =>
        refine ⟨fun x w hx hxk => ?_, fun d h => (by cases h), fun _ => trivial⟩
        rw [herr e hres, hs'] at hx
        rw [hs'] at hres
        exact hreject t e hres w (by rw [← hxk]; exact hx)
    · exact fun _ _ => rfl
    · exact fun j hj => by cases hj

end Shadow
end TieredCache

/-- Once a put has gone through with no rejecting tier holding another value of its key, no
history of reads and of writes to other keys ever makes the cache answer with anything but
the value put, a miss or an error. -/
theorem fresh_never_shadowed {T K V E : Type} [DecidableEq K] [Tier T K V E] [LawfulTier T]
    {n : Nat} (r : Router n) (hw : ∀ i, r.writable i = true)
    (hp : r.policy = TieredCache.defaultPolicy) (s : Stack T n) (k : K) (v : V)
    (hreject : TieredCache.RejectedClean s k v) (ops : List (RouterOp K V))
    (hops : ∀ op ∈ ops, k ∉ op.written.map Prod.fst) :
    let later := Stack.performAll r (Stack.run (TieredCache.put r k v) s).2 ops
    ∀ w, (Stack.run (TieredCache.get r k) later).1 = .ok (some w) → w = v := by
  intro later w hw'
  have hQ : ∀ t, r.Spills t → True := fun _ _ => trivial
  have hstep : ∀ (q : Query n K V) (s : Stack T n),
      (∀ i, Holds (TieredCache.Fresh k v) (s.held i)) →
      OkCall (fun _ => True) (fun _ => True) (TieredCache.Fresh k v) q →
      OkAnswer (fun _ => True) (TieredCache.Fresh k v) q (Stack.exec q s).1 ∧
        ∀ i, Holds (TieredCache.Fresh k v) ((Stack.exec q s).2.held i) := by
    intro q s hs hq
    obtain ⟨hans, hclean⟩ := Stack.exec_clean (Q := fun _ => True) hq fun i _ => hs i
    exact ⟨hans, fun i => hclean i trivial⟩
  have hothers : ∀ op ∈ ops, Vouched (TieredCache.Fresh k v) op.written := by
    intro op hop e he hek
    exact absurd (List.mem_map.2 ⟨e, he, hek⟩) (hops op hop)
  have hlater := Stack.performAll_keeps r hQ hstep ops hothers
    (TieredCache.put_fresh r hw hp s k v hreject)
  have hget := Stack.run_clean hstep (TieredCache.get_clean r (fun _ => trivial) hQ k) hlater
  exact hget.1 w hw' rfl

def memoryCache : Router 2 := .uniform 2 "memory" TieredCache.defaultPolicy

theorem fresh_never_shadowed_refill :
    (Stack.run (TieredCache.get memoryCache 1)
      (Stack.performAll memoryCache
        (Stack.run (TieredCache.put memoryCache 1 10) (faultyOver 0 .unbounded)).2
        [.put 2 20, .readMany [1], .put 3 30])).1 ≠ .ok (some 20) := by
  intro h
  have hreject : TieredCache.RejectedClean (faultyOver 0 .unbounded) 1 10 := by
    intro t e _ w hw
    have hnone : ∀ t : Fin 2, (faultyOver 0 .unbounded).held t 1 = none := by decide +kernel
    rw [hnone t] at hw
    cases hw
  have hops : ∀ op ∈ [RouterOp.put 2 20, .readMany [1], .put 3 30],
      1 ∉ op.written.map Prod.fst := by
    simp [RouterOp.written]
  have h10 := fresh_never_shadowed memoryCache (fun _ => rfl) rfl (faultyOver 0 .unbounded) 1 10
    hreject _ hops 20 h
  exact absurd h10 (by decide)

/-- The top tier rejects the second put of key 1 and keeps its old copy: the put succeeds,
and the next read answers with the value it replaced. -/
theorem fresh_shadowed :
    let s := (Stack.run (TieredCache.put memoryCache 1 10) (faultyOver 1 .unbounded)).2
    let out := Stack.run (TieredCache.put memoryCache 1 11) s
    out.1 = .ok [] ∧
      (Stack.run (TieredCache.get memoryCache 1) out.2).1 = .ok (some 10) := by
  decide +kernel

end Tierstore
