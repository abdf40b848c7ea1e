import Tierstore.Core.Contract
import Tierstore.Router

/-! The tiers a router runs over, with their counters: how one call is answered, and what
the stack holds for a key. -/
namespace Tierstore
open Overlay Effects

structure Counters where
  hits : UInt64
  misses : UInt64
  errors : UInt64
  puts : UInt64
  deletes : UInt64
  deriving DecidableEq, Repr

namespace Counters

def zero : Counters := ⟨0, 0, 0, 0, 0⟩

/-- The bump that follows a call at every call site of the router. Adding to an
`AtomicU64` wraps. -/
def record {K V E : Type} : (c : TierCall K V) → Except E c.Output → Counters → Counters
  | .get _, .ok (some _), counters => { counters with hits := counters.hits + 1 }
  | .get _, .ok none, counters => { counters with misses := counters.misses + 1 }
  | .exists_ _, .ok true, counters => { counters with hits := counters.hits + 1 }
  | .exists_ _, .ok false, counters => { counters with misses := counters.misses + 1 }
  | .getMany keys, .ok found, counters =>
    let foundCount := UInt64.ofNat (found.countP Option.isSome)
    { counters with
      hits := counters.hits + foundCount
      misses := counters.misses + (UInt64.ofNat keys.length - foundCount) }
  | .put _ _, .ok _, counters => { counters with puts := counters.puts + 1 }
  | .delete _, .ok _, counters => { counters with deletes := counters.deletes + 1 }
  | .putMany entries, .ok _, counters =>
    { counters with puts := counters.puts + UInt64.ofNat entries.length }
  | .deleteMany keys, .ok _, counters =>
    { counters with deletes := counters.deletes + UInt64.ofNat keys.length }
  | _, .error _, counters => { counters with errors := counters.errors + 1 }

end Counters

structure Slot (T : Type) where
  tier : T
  counters : Counters

abbrev Stack (T : Type) (n : Nat) := Fin n → Slot T

namespace Stack
variable {T K V E : Type} {n : Nat}

def build (tiers : Fin n → T) : Stack T n := fun i => { tier := tiers i, counters := .zero }

section Exec
variable [Tier T K V E]

def exec (q : Query n K V) (s : Stack T n) : Answer n K V E q × Stack T n :=
  let out := Tier.call (s q.1).tier q.2
  (out.1, Function.update s q.1
    { tier := out.2, counters := (s q.1).counters.record q.2 out.1 })

def run {α : Type} (p : RouterM n K V E α) (s : Stack T n) : α × Stack T n := p.run exec s

@[simp] theorem run_done {α : Type} (a : α) (s : Stack T n) :
    run (.done a : RouterM n K V E α) s = (a, s) := rfl

@[simp] theorem run_bind {α β : Type} (p : RouterM n K V E α) (f : α → RouterM n K V E β)
    (s : Stack T n) : run (p >>= f) s = run (f (run p s).1) (run p s).2 :=
  Program.run_bind exec p f s

@[simp] theorem run_map {α β : Type} (f : α → β) (p : RouterM n K V E α) (s : Stack T n) :
    run (f <$> p) s = (f (run p s).1, (run p s).2) := Program.run_map exec f p s

@[simp] theorem run_getAt (t : Fin n) (k : K) (s : Stack T n) :
    run (getAt t k) s = exec (t, .get k) s := rfl
@[simp] theorem run_existsAt (t : Fin n) (k : K) (s : Stack T n) :
    run (existsAt t k) s = exec (t, .exists_ k) s := rfl
@[simp] theorem run_getManyAt (t : Fin n) (ks : List K) (s : Stack T n) :
    run (getManyAt t ks) s = exec (t, .getMany ks) s := rfl
@[simp] theorem run_putAt (t : Fin n) (k : K) (v : V) (s : Stack T n) :
    run (putAt t k v) s = exec (t, .put k v) s := rfl
@[simp] theorem run_deleteAt (t : Fin n) (k : K) (s : Stack T n) :
    run (deleteAt t k) s = exec (t, .delete k) s := rfl
@[simp] theorem run_putManyAt (t : Fin n) (es : List (K × V)) (s : Stack T n) :
    run (putManyAt t es) s = exec (t, .putMany es) s := rfl
@[simp] theorem run_deleteManyAt (t : Fin n) (ks : List K) (s : Stack T n) :
    run (deleteManyAt t ks) s = exec (t, .deleteMany ks) s := rfl

theorem exec_other (q : Query n K V) (s : Stack T n) {j : Fin n} (h : j ≠ q.1) :
    (exec q s).2 j = s j := Function.update_of_ne h _ _

theorem exec_tier (q : Query n K V) (s : Stack T n) :
    ((exec q s).2 q.1).tier = (Tier.call (s q.1).tier q.2).2 := by
  simp [exec]

theorem exec_answer (q : Query n K V) (s : Stack T n) :
    (exec q s).1 = (Tier.call (s q.1).tier q.2).1 := rfl

def AllAccepted {α : Type} (p : RouterM n K V E α) (s : Stack T n) : Prop :=
  p.Always exec (fun q s => ∃ a, (exec q s).1 = .ok a) s

theorem allAccepted_bind {α β : Type} (p : RouterM n K V E α) (f : α → RouterM n K V E β)
    (s : Stack T n) :
    AllAccepted (p >>= f) s ↔ AllAccepted p s ∧ AllAccepted (f (run p s).1) (run p s).2 :=
  Program.always_bind exec _ p f s

theorem allAccepted_putAt {t : Fin n} {k : K} {v : V} {s : Stack T n}
    (h : AllAccepted (putAt t k v) s) : ∃ d, (exec (t, .put k v) s).1 = .ok d := h.1

/-- A program that leaves tier `t` alone does not see what happens to it. -/
theorem run_update {α : Type} {post : α → Prop} {t : Fin n} {p : RouterM n K V E α}
    (hp : p.Safe (fun q => q.1 ≠ t) (fun _ _ => True) post) (s : Stack T n) (x : Slot T) :
    run p (Function.update s t x) = ((run p s).1, Function.update (run p s).2 t x) := by
  induction p generalizing s with
  | done a => rfl
  | call q next ih =>
    obtain ⟨hq, hnext⟩ := hp
    have hexec : exec q (Function.update s t x) =
        ((exec q s).1, Function.update (exec q s).2 t x) := by
      rw [exec, exec, Function.update_of_ne hq, Function.update_comm hq]
    change run (next (exec q (Function.update s t x)).1) (exec q (Function.update s t x)).2 = _
    rw [hexec]
    exact ih _ (hnext _ trivial) _

theorem run_untouched {α : Type} {post : α → Prop} {t : Fin n} {p : RouterM n K V E α}
    (hp : p.Safe (fun q => q.1 ≠ t) (fun _ _ => True) post) (s : Stack T n) :
    (run p s).2 t = s t := by
  have h := run_update hp s (s t)
  rw [Function.update_eq_self] at h
  have ht : (run p s).2 t = Function.update (run p s).2 t (s t) t :=
    congrFun (congrArg Prod.snd h) t
  rwa [Function.update_self] at ht

end Exec

/-- Tiers that cannot fail accept everything. -/
theorem allAccepted_infallible [Tier T K V Infallible] {α : Type}
    (p : RouterM n K V Infallible α) (s : Stack T n) : AllAccepted p s := by
  refine Program.always_of_forall exec (fun q s => ?_) p s
  cases h : (exec q s).1 with
  | ok a => exact ⟨a, rfl⟩
  | error e => exact e.elim

/-- What every call keeps of a tier, a whole operation keeps of all tiers. -/
theorem run_keeps [Tier T K V E] {U : T → Prop} (hU : Keeping U) {α : Type}
    (p : RouterM n K V E α) (j : Fin n) {s : Stack T n} (hs : U (s j).tier) :
    U ((run p s).2 j).tier := by
  have hstep : ∀ (q : Query n K V) (s : Stack T n), U (s j).tier → U ((exec q s).2 j).tier := by
    intro q s hs
    by_cases hj : j = q.1
    · subst hj
      rw [exec_tier]
      exact hU.call (s q.1).tier q.2 hs
    · rw [exec_other q s hj]
      exact hs
  exact Program.run_keeps hstep p hs

section Held
variable [DecidableEq K] [Tier T K V E] [LawfulTier T]

def held (s : Stack T n) (i : Fin n) : K → Option V := contents (s i).tier

/-- What the tiers of a list show together, its first one on top. -/
def view (s : Stack T n) (tiers : List (Fin n)) : K → Option V := stacked s.held tiers

def shown (s : Stack T n) : K → Option V := s.view (List.finRange n)

theorem held_congr {s s' : Stack T n} {i : Fin n} (h : s i = s' i) : s.held i = s'.held i := by
  rw [held, held, h]

theorem held_exec_other (q : Query n K V) (s : Stack T n) {j : Fin n} (h : j ≠ q.1) :
    (exec q s).2.held j = s.held j := held_congr (exec_other q s h)

theorem held_exec (q : Query n K V) (s : Stack T n) :
    (exec q s).2.held q.1 = contents (Tier.call (s q.1).tier q.2).2 := by
  rw [held, exec_tier]

theorem view_cons (s : Stack T n) (i : Fin n) (tiers : List (Fin n)) :
    s.view (i :: tiers) = atop (s.held i) (s.view tiers) := rfl

theorem view_singleton (s : Stack T n) (i : Fin n) : s.view [i] = s.held i := atop_empty _

theorem view_append (s : Stack T n) (is js : List (Fin n)) :
    s.view (is ++ js) = atop (s.view is) (s.view js) := stacked_append _ is js

theorem view_congr {s s' : Stack T n} {tiers : List (Fin n)} (h : ∀ i ∈ tiers, s i = s' i) :
    s.view tiers = s'.view tiers := stacked_congr fun i hi => held_congr (h i hi)

/-- A call that only reads leaves every tier's map alone. -/
theorem held_exec_read {q : Query n K V} {s : Stack T n}
    (h : contents (Tier.call (s q.1).tier q.2).2 = contents (s q.1).tier) :
    (exec q s).2.held = s.held := by
  funext j
  by_cases hj : j = q.1
  · rw [hj, held_exec, h]
    rfl
  · exact held_exec_other q s hj

end Held
end Stack
end Tierstore
