import Mathlib.Data.List.Basic

/-! Steps that take items in and let others fall: a run loses none exactly when the last copy of an
item falls only if a later step takes the item in again. -/
namespace Losses
variable {S O K : Type}

/-- A system of items: what a step takes in or the state has is there afterwards or falls. -/
structure System (S O K : Type) where
  step : S → O → S
  falls : S → O → List K
  takes : O → List K
  has : S → K → Prop
  balance : ∀ s o k, has (step s o) k ∨ k ∈ falls s o ↔ has s k ∨ k ∈ takes o

namespace System
variable (sys : System S O K)

/-- An item that falls is still there after the step, or a later step takes it in. -/
def Spares : S → List O → Prop
  | _, [] => True
  | s, o :: later =>
    (∀ k ∈ sys.falls s o, sys.has (sys.step s o) k ∨ k ∈ later.flatMap sys.takes) ∧
      Spares (sys.step s o) later

instance decideSpares [DecidableEq K] [∀ s k, Decidable (sys.has s k)] :
    (s : S) → (os : List O) → Decidable (sys.Spares s os)
  | _, [] => isTrue trivial
  | s, o :: later =>
    have : Decidable (sys.Spares (sys.step s o) later) := decideSpares (sys.step s o) later
    inferInstanceAs (Decidable
      ((∀ k ∈ sys.falls s o, sys.has (sys.step s o) k ∨ k ∈ later.flatMap sys.takes) ∧ _))

theorem of_has_after {s : S} {os : List O} {k : K} (h : sys.has (os.foldl sys.step s) k) :
    sys.has s k ∨ k ∈ os.flatMap sys.takes := by
  induction os generalizing s with
  | nil => exact Or.inl h
  | cons o later ih =>
    rw [List.flatMap_cons, List.mem_append, ← or_assoc]
    obtain hhas | hlater := ih h
    · exact Or.inl ((sys.balance s o k).1 (Or.inl hhas))
    · exact Or.inr hlater

/-- A run keeps what it starts with and what it takes in exactly when it spares what falls. -/
theorem spares_iff (s : S) (os : List O) : sys.Spares s os ↔
    ∀ k, sys.has s k ∨ k ∈ os.flatMap sys.takes → sys.has (os.foldl sys.step s) k := by
  induction os generalizing s with
  | nil =>
    rw [Spares, List.flatMap_nil, List.foldl_nil]
    simp
  | cons o later ih =>
    rw [Spares, ih, List.foldl_cons]
    constructor
    · rintro ⟨hfall, hlater⟩ k hk
      rw [List.flatMap_cons, List.mem_append, ← or_assoc, ← sys.balance] at hk
      obtain (hhas | hfell) | htaken := hk
      · exact hlater k (Or.inl hhas)
      · exact hlater k (hfall k hfell)
      · exact hlater k (Or.inr htaken)
    · intro hkeep
      have hall : ∀ k, sys.has (sys.step s o) k ∨ k ∈ sys.falls s o ∨
          k ∈ later.flatMap sys.takes → sys.has (later.foldl sys.step (sys.step s o)) k := by
        intro k hk
        refine hkeep k ?_
        rwa [List.flatMap_cons, List.mem_append, ← or_assoc, ← sys.balance, or_assoc]
      refine ⟨fun k hfell => sys.of_has_after (hall k (Or.inr (Or.inl hfell))), fun k hk => ?_⟩
      exact hall k (hk.imp_right Or.inr)

end System
end Losses
