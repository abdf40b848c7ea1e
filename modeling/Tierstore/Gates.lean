import Tierstore.Cache
import Tierstore.Lib.Interleave

/-! Concurrent calls on one cache. A call on a tier is one atomic step, and so is taking or
releasing the single-flight gate of a key. -/
namespace Tierstore
open Overlay Effects

inductive CacheCall (K V : Type) where
  | get (key : K)
  | put (key : K) (value : V)
  | invalidate (key : K)
  deriving DecidableEq

abbrev CacheCall.Output (E : Type) {K V : Type} : CacheCall K V → Type
  | .get _ => Except (RouterError E) (Option V)
  | .put _ _ => Except (RouterError E) (Displaced K V)
  | .invalidate _ => Except (RouterError E) Bool

inductive CacheQuery (n : Nat) (K V : Type) where
  | tier (q : Query n K V)
  | acquire (key : K)
  | release (key : K)
  deriving DecidableEq

abbrev CacheAnswer (n : Nat) (K V E : Type) : CacheQuery n K V → Type
  | .tier q => Answer n K V E q
  | .acquire _ => Unit
  | .release _ => Unit

abbrev CacheM (n : Nat) (K V E : Type) := Program (CacheQuery n K V) (CacheAnswer n K V E)

structure Shared (T K : Type) (n : Nat) where
  stack : Stack T n
  gates : List K

namespace TieredCache
variable {n : Nat} {T K V E : Type}

abbrev CachePool (n : Nat) (T K V E : Type) {ι : Type} (calls : ι → CacheCall K V) :=
  Pool ι (CacheQuery n K V) (CacheAnswer n K V E) (fun i => (calls i).Output E) (Shared T K n)

def lift {α : Type} (p : RouterM n K V E α) : CacheM n K V E α :=
  p.embed CacheQuery.tier fun _ r => r

section Calls
variable (r : Router n) (singleFlight : Bool)

/-- The gate is held through the promotion. -/
def lookupGated (key : K) : CacheM n K V E (Except (RouterError E) (ReadOneReport V E)) :=
  if !singleFlight then lift (lookup r key)
  else do
    let _ ← Program.ask (CacheQuery.acquire key)
    let result ← lift (lookup r key)
    let _ ← Program.ask (CacheQuery.release key)
    pure result

def getGated (key : K) : CacheM n K V E (Except (RouterError E) (Option V)) := do
  let report ← lookupGated r singleFlight key
  pure (answer report)

def perform : (c : CacheCall K V) → CacheM n K V E (c.Output E)
  | .get key => getGated r singleFlight key
  | .put key value => lift (put r key value)
  | .invalidate key => lift (invalidate r key)

end Calls

/-- One atomic step. A gate that is held blocks. -/
def exec [DecidableEq K] [Tier T K V E] :
    (q : CacheQuery n K V) → Shared T K n → Option (CacheAnswer n K V E q × Shared T K n)
  | .tier q, s =>
    let out := Stack.exec q s.stack
    some (out.1, { s with stack := out.2 })
  | .acquire key, s =>
    if key ∈ s.gates then none else some ((), { s with gates := key :: s.gates })
  | .release key, s => some ((), { s with gates := s.gates.erase key })

def start [Tier T K V E] {ι : Type} (r : Router n) (singleFlight : Bool)
    (calls : ι → CacheCall K V) (s : Stack T n) : CachePool n T K V E calls :=
  .start { stack := s, gates := [] } fun i => perform r singleFlight (calls i)

/-! ## What a call has in hand -/
section Hand
variable {D X : K → Prop} {P : K → V → Prop} {Q : Fin n → Prop} {α : Type}

def OkQuery (P : K → V → Prop) : CacheQuery n K V → Prop
  | .tier q => OkCall (fun _ => True) (fun _ => True) P q
  | _ => True

def OkReply (P : K → V → Prop) : (q : CacheQuery n K V) → CacheAnswer n K V E q → Prop
  | .tier q, a => OkAnswer (fun _ => True) P q a
  | .acquire _, _ => True
  | .release _, _ => True

/-- Whatever the rest of the call writes is vouched for, as long as what it is answered is. -/
def Carries (P : K → V → Prop) (p : CacheM n K V E α) : Prop :=
  p.Safe (OkQuery P) (OkReply P) fun _ => True

theorem carries_lift {post : α → Prop} {p : RouterM n K V E α}
    (h : Clean (fun _ => True) (fun _ => True) (fun _ => True) P post p) :
    Carries P (lift p) := by
  refine Program.Safe.embed ?_ ?_ (h.mono fun _ _ => trivial)
  · exact fun _ hq => hq
  · exact fun _ _ hr => hr

/-- A call that has not started carries only the entry it is to put. -/
theorem carries_perform (r : Router n) (singleFlight : Bool) (c : CacheCall K V)
    (hput : ∀ k v, c = .put k v → P k v) :
    Carries P (perform r singleFlight c : CacheM n K V E _) := by
  have hD : ∀ _ : Fin n, True := fun _ => trivial
  have hQ : ∀ t, r.Spills t → True := fun _ _ => trivial
  cases c with
  | get k =>
    have hlookup : Carries P (lookupGated r singleFlight k : CacheM n K V E _) := by
      have hread := carries_lift (P := P) (r.readOne_clean (E := E) hD hQ k)
      unfold lookupGated
      split
      · exact hread
      · exact ⟨trivial, fun _ _ => hread.bind fun _ _ => ⟨trivial, fun _ _ => trivial⟩⟩
    exact hlookup.bind fun _ _ => trivial
  | put k v => exact carries_lift (r.put_clean hD hQ (hput k v rfl) trivial)
  | invalidate k => exact carries_lift (r.delete_clean hD trivial)

variable [DecidableEq K] [Tier T K V E] [LawfulTier T]

theorem exec_reply {q : CacheQuery n K V} (hq : OkQuery P q) {s s' : Shared T K n}
    {a : CacheAnswer n K V E q} (h : exec q s = some (a, s'))
    (hs : ∀ t, Holds P (s.stack.held t)) : OkReply P q a := by
  cases q with
  | acquire key => trivial
  | release key => trivial
  | tier q =>
    have hclean := Stack.exec_clean (Q := fun _ => True) hq fun t _ => hs t
    simp only [exec, Option.some.injEq, Prod.mk.injEq] at h
    rw [← h.1]
    exact hclean.1

theorem exec_holds {q : CacheQuery n K V} (hq : OkQuery P q) {s s' : Shared T K n}
    {a : CacheAnswer n K V E q} (h : exec q s = some (a, s'))
    (hs : ∀ t, Holds P (s.stack.held t)) (t : Fin n) : Holds P (s'.stack.held t) := by
  cases q with
  | acquire key =>
    simp only [exec] at h
    split at h
    · cases h
    · cases h
      exact hs t
  | release key =>
    cases h
    exact hs t
  | tier q =>
    have hclean := Stack.exec_clean (Q := fun _ => True) hq fun t _ => hs t
    simp only [exec, Option.some.injEq, Prod.mk.injEq] at h
    rw [← h.2]
    exact hclean.2 t trivial

/-- In every interleaving, tiers that hold only vouched entries go on doing so if the calls
carry only such. -/
theorem holds_run {ι : Type} [DecidableEq ι] {calls : ι → CacheCall K V}
    {c : CachePool n T K V E calls} (hs : ∀ t, Holds P (c.shared.stack.held t))
    (hcalls : ∀ i, Carries P (c.threads i)) (schedule : List ι) (t : Fin n) :
    Holds P ((Pool.run exec c schedule).shared.stack.held t) := by
  have hrun : Runs.Along (Pool.step exec) (fun _ _ => True) c schedule :=
    Runs.along_of_forall (fun _ _ _ => trivial) c
  refine (@Runs.Along.keeps _ _ _ _ (fun c : CachePool n T K V E calls =>
    (∀ t, Holds P (c.shared.stack.held t)) ∧ ∀ i, Carries P (c.threads i)) ?_ _ _ hrun
    ⟨hs, hcalls⟩).1 t
  rintro c i ⟨hs, hcalls⟩ -
  refine ⟨?_, fun j => Pool.safe_step (c := c) exec (hcalls j) fun _ q a s hq hexec =>
    exec_reply hq hexec hs⟩
  obtain hsame | ⟨q, next, a, s, hthread, hexec, heq⟩ := Pool.step_cases exec c i
  · rwa [hsame]
  · rw [heq]
    have hi := hcalls i
    rw [hthread] at hi
    exact exec_holds hi.1 hexec hs

end Hand

/-! ## Absent keys -/
section Absent
def WritesTo (k : K) (t : Fin n) : CacheQuery n K V → Prop
  | .tier (j, .put key _) => j = t ∧ key = k
  | .tier (j, .putMany entries) => j = t ∧ ∃ e ∈ entries, e.1 = k
  | _ => False

def Other (k : K) : K → V → Prop := fun x _ => x ≠ k

theorem not_writesTo {k : K} {t : Fin n} {q : CacheQuery n K V} (h : OkQuery (Other k) q) :
    ¬ WritesTo k t q := by
  intro hw
  cases q with
  | acquire key => exact hw
  | release key => exact hw
  | tier q =>
    obtain ⟨j, c⟩ := q
    cases c with
    | put key v => exact h.2 hw.2
    | putMany es =>
      obtain ⟨-, e, he, hk⟩ := hw
      exact h.2 e he hk
    | get key => exact hw
    | exists_ key => exact hw
    | getMany keys => exact hw
    | delete key => exact hw
    | deleteMany keys => exact hw

variable [DecidableEq K] [Tier T K V E]

theorem exec_of_ne {q : CacheQuery n K V} {s s' : Shared T K n} {a : CacheAnswer n K V E q}
    (h : exec q s = some (a, s')) {t : Fin n} (ht : ∀ j c, q = .tier (j, c) → j ≠ t) :
    s'.stack t = s.stack t := by
  cases q with
  | tier q =>
    simp only [exec, Option.some.injEq, Prod.mk.injEq] at h
    rw [← h.2]
    exact Stack.exec_other q s.stack (Ne.symm (ht q.1 q.2 rfl))
  | acquire key =>
    simp only [exec] at h
    split at h
    · cases h
    · cases h
      rfl
  | release key =>
    cases h
    rfl

variable [LawfulTier T]

/-- A tier without `k` stays without it until a query writes `k` there. -/
theorem exec_absent {k : K} {t : Fin n} {q : CacheQuery n K V} (hq : ¬ WritesTo k t q)
    {s s' : Shared T K n} {a : CacheAnswer n K V E q} (h : exec q s = some (a, s'))
    (hs : s.stack.held t k = none) : s'.stack.held t k = none := by
  by_cases ht : ∀ j c, q = .tier (j, c) → j ≠ t
  · rw [Stack.held_congr (exec_of_ne h ht)]
    exact hs
  · push Not at ht
    obtain ⟨j, c, rfl, rfl⟩ := ht
    have hok : OkCall (fun _ => True) (fun _ => True) (Other k) (j, c) := by
      cases c with
      | put key v => exact ⟨trivial, fun hk => hq ⟨rfl, hk⟩⟩
      | putMany es => exact ⟨trivial, fun e he hk => hq ⟨rfl, e, he, hk⟩⟩
      | get key => trivial
      | exists_ key => trivial
      | getMany keys => trivial
      | delete key => exact ⟨trivial, trivial⟩
      | deleteMany keys => exact ⟨trivial, fun _ _ => trivial⟩
    have hheld : Holds (Other k) (contents (s.stack j).tier) := by
      intro x v hx hxk
      rw [hxk, show contents (s.stack j).tier k = none from hs] at hx
      cases hx
    have hcall := (call_clean (Q := fun _ : Fin n => True) hok (s.stack j).tier hheld).2
    simp only [exec, Option.some.injEq, Prod.mk.injEq] at h
    rw [← h.2, Stack.held_exec]
    cases hk : contents (Tier.call (s.stack j).tier c).2 k with
    | none => rfl
    | some v => exact absurd rfl (hcall k v hk)

end Absent
end TieredCache
end Tierstore
