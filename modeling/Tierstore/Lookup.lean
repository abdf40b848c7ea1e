import Tierstore.Reads
import Tierstore.Stack

/-! What a read returns against what the stack shows, for tiers that fail only under a
fail-fast policy: the probes change no tier's map, and the topmost copy answers. -/
namespace Tierstore
open Overlay Effects

namespace Stack
variable {T K V E : Type} {n : Nat} [DecidableEq K] [Tier T K V E] [LawfulTier T]

/-- Reads only: every tier's map is the same, and so is what calls keep of a tier. -/
structure Undisturbed (s s' : Stack T n) : Prop where
  held : s'.held = s.held
  keeps : ∀ U : T → Prop, Keeping U → ∀ j, U (s j).tier → U (s' j).tier

theorem Undisturbed.refl (s : Stack T n) : Undisturbed s s := ⟨rfl, fun _ _ _ h => h⟩

theorem Undisturbed.trans {s s' s'' : Stack T n} (h₁ : Undisturbed s s')
    (h₂ : Undisturbed s' s'') : Undisturbed s s'' :=
  ⟨h₂.held.trans h₁.held, fun U hU j h => h₂.keeps U hU j (h₁.keeps U hU j h)⟩

theorem Undisturbed.view {s s' : Stack T n} (h : Undisturbed s s') (l : List (Fin n)) :
    s'.view l = s.view l := by
  rw [Stack.view, Stack.view, h.held]

theorem Undisturbed.shown {s s' : Stack T n} (h : Undisturbed s s') : s'.shown = s.shown :=
  h.view _

theorem exec_undisturbed {q : Query n K V} {s : Stack T n}
    (h : contents (Tier.call (s q.1).tier q.2).2 = contents (s q.1).tier) :
    Undisturbed s (exec q s).2 :=
  ⟨held_exec_read h, fun _ hU j hj => run_keeps hU (Program.ask q) j hj⟩

theorem get_undisturbed (t : Fin n) (k : K) (s : Stack T n) :
    Undisturbed s (exec (t, .get k) s).2 :=
  exec_undisturbed (LawfulTier.get_contents (s t).tier k)

theorem exists_undisturbed (t : Fin n) (k : K) (s : Stack T n) :
    Undisturbed s (exec (t, .exists_ k) s).2 :=
  exec_undisturbed (LawfulTier.exists_contents (s t).tier k)

theorem getMany_undisturbed (t : Fin n) (ks : List K) (s : Stack T n) :
    Undisturbed s (exec (t, .getMany ks) s).2 :=
  exec_undisturbed (LawfulTier.getMany_contents (s t).tier ks)

section Single
variable (r : Router n) (hE : E → r.policy.read.onError = .failFast)
include hE

/-- The single-key read below the tiers `above`, which do not hold the key. -/
theorem readDown_spec (key : K) (above l : List (Fin n)) (hsplit : List.finRange n = above ++ l)
    (s : Stack T n) (habove : s.view above key = none) :
    ∃ s', Undisturbed s s' ∧
      ((∃ t v, s.shown key = some v ∧ run (r.readDown key l []) s =
          (.ok (some v), (run ((r.hitTargets t).forM fun target =>
            r.promoteOne target key (some v)) s').2)) ∨
        (s.shown key = none ∧ run (r.readDown key l []) s = (.ok none, s')) ∨
        ∃ t source, run (r.readDown key l []) s = (.error (.tier (r.failure t source)), s')) := by
  induction l generalizing above s with
  | nil =>
    refine ⟨s, Undisturbed.refl s, Or.inr (Or.inl ⟨?_, rfl⟩)⟩
    rw [Stack.shown, hsplit, List.append_nil, habove]
  | cons t below ih =>
    have hund := get_undisturbed t key s
    have hok := LawfulTier.get_ok (s t).tier key
    have hans := exec_answer (E := E) (t, .get key) s
    have hsplit' : List.finRange n = (above ++ [t]) ++ below := by simp [hsplit]
    have hview : s.view (above ++ [t]) key = s.held t key := by
      rw [view_append, atop_of_none habove]
      simp [view, stacked]
    simp only [Router.readDown, run_bind, run_getAt]
    generalize exec (E := E) (t, .get key) s = out at *
    obtain ⟨a, s₁⟩ := out
    cases a with
    | ok found =>
      have hfound : found = s.held t key := hok found hans.symm
      cases found with
      | some v =>
        refine ⟨s₁, hund, Or.inl ⟨t, v, ?_, by simp⟩⟩
        rw [Stack.shown, hsplit', view_append]
        exact atop_of_some (hview.trans hfound.symm) _
      | none =>
        have hnone : s₁.view (above ++ [t]) key = none := by
          rw [hund.view, hview, ← hfound]
        obtain ⟨s', hund', hres⟩ := ih (above ++ [t]) hsplit' s₁ hnone
        rw [hund.shown] at hres
        exact ⟨s', hund.trans hund', hres⟩
    | error source =>
      refine ⟨s₁, hund, Or.inr (Or.inr ?_)⟩
      rw [hE source]
      exact ⟨t, source, rfl⟩

theorem existsDown_spec (key : K) (above l : List (Fin n))
    (hsplit : List.finRange n = above ++ l) (s : Stack T n)
    (habove : s.view above key = none) :
    Undisturbed s (run (r.existsDown (V := V) key l []) s).2 ∧
      ((run (r.existsDown (V := V) key l []) s).1 = .ok (s.shown key).isSome ∨
        ∃ t source, (run (r.existsDown (V := V) key l []) s).1 =
          .error (.tier (r.failure t source))) := by
  induction l generalizing above s with
  | nil =>
    refine ⟨Undisturbed.refl s, Or.inl ?_⟩
    rw [Stack.shown, hsplit, List.append_nil, habove]
    rfl
  | cons t below ih =>
    have hund := exists_undisturbed t key s
    have hok := LawfulTier.exists_ok (s t).tier key
    have hans := exec_answer (E := E) (t, .exists_ key) s
    have hsplit' : List.finRange n = (above ++ [t]) ++ below := by simp [hsplit]
    have hview : s.view (above ++ [t]) key = s.held t key := by
      rw [view_append, atop_of_none habove]
      simp [view, stacked]
    simp only [Router.existsDown, run_bind, run_existsAt]
    generalize exec (E := E) (t, .exists_ key) s = out at *
    obtain ⟨a, s₁⟩ := out
    cases a with
    | ok found =>
      have hfound : found = (s.held t key).isSome := hok found hans.symm
      cases found with
      | true =>
        refine ⟨hund, Or.inl ?_⟩
        obtain ⟨v, hv⟩ := Option.isSome_iff_exists.1 hfound.symm
        rw [Stack.shown, hsplit', view_append, atop_of_some (hview.trans hv)]
        rfl
      | false =>
        have hnone : s₁.view (above ++ [t]) key = none := by
          rw [hund.view, hview]
          exact Option.isNone_iff_eq_none.1 (by simpa using hfound.symm)
        obtain ⟨hund', hres⟩ := ih (above ++ [t]) hsplit' s₁ hnone
        rw [hund.shown] at hres
        exact ⟨hund.trans hund', hres⟩
    | error source =>
      dsimp only
      rw [hE source]
      exact ⟨hund, Or.inr ⟨t, source, rfl⟩⟩

end Single

/-! ## Batched reads -/

/-- The answers of one tier, each against its own position. -/
theorem resolve_spec {m : Nat} (t : Fin n) (f : Fin m → Option V) (l : List (Fin m))
    (statuses : Fin m → KeyStatus V) :
    let out := Router.resolve t (l.map fun i => (i, f i)) statuses
    out.2 = l.filter (fun i => (f i).isNone) ∧
    ∀ i, out.1 i = if i ∈ l then
      match f i with
      | some v => .hit t v
      | none => statuses i
      else statuses i := by
  induction l generalizing statuses with
  | nil => exact ⟨rfl, fun i => rfl⟩
  | cons j l ih =>
    rw [List.map_cons]
    cases hj : f j with
    | none =>
      rw [Router.resolve]
      obtain ⟨hleft, hstat⟩ := ih statuses
      refine ⟨by simp [hleft, hj], fun i => ?_⟩
      rw [hstat i]
      by_cases hi : i = j
      · subst hi
        simp [hj]
      · simp [hi]
    | some v =>
      rw [Router.resolve]
      obtain ⟨hleft, hstat⟩ := ih (Function.update statuses j (.hit t v))
      refine ⟨by simp [hleft, hj], fun i => ?_⟩
      rw [hstat i]
      by_cases hi : i = j
      · subst hi
        simp [hj]
      · simp [hi]

/-- The batched probes below the tiers `above`: the positions answered so far carry what
`above` shows, the others are unresolved. -/
theorem readTiers_spec (r : Router n) (hE : E → r.policy.read.onError = .failFast)
    (keys : List K) (above l : List (Fin n)) (hsplit : List.finRange n = above ++ l)
    (s : Stack T n) (statuses : Fin keys.length → KeyStatus V)
    (unresolved : List (Fin keys.length))
    (hstat : ∀ i, (statuses i).value = s.view above (keys.get i))
    (hleft : ∀ i, i ∈ unresolved ↔ s.view above (keys.get i) = none) :
    ∃ s', Undisturbed s s' ∧
      ((∃ statuses' unresolved', (∀ i, (statuses' i).value = s.shown (keys.get i)) ∧
          run (r.readTiers keys l statuses unresolved []) s =
            (.ok (statuses', unresolved', []), s')) ∨
        ∃ t source, run (r.readTiers keys l statuses unresolved []) s =
          (.error (.tier (r.failure t source)), s')) := by
  induction l generalizing above s statuses unresolved with
  | nil =>
    refine ⟨s, Undisturbed.refl s, Or.inl ⟨statuses, unresolved, fun i => ?_, rfl⟩⟩
    rw [Stack.shown, hsplit, List.append_nil, hstat i]
  | cons t below ih =>
    rw [Router.readTiers]
    by_cases hempty : unresolved.isEmpty = true
    · have hnil : unresolved = [] := List.isEmpty_iff.1 hempty
      refine ⟨s, Undisturbed.refl s, Or.inl ⟨statuses, unresolved, fun i => ?_, by simp [hempty]⟩⟩
      rw [hstat i, shown, hsplit, view_append]
      cases hv : s.view above (keys.get i) with
      | some v => rw [atop_of_some hv]
      | none =>
        have hmem := (hleft i).2 hv
        rw [hnil] at hmem
        cases hmem
    · have hund := getMany_undisturbed t (unresolved.map keys.get) s
      have hok := LawfulTier.getMany_ok (s t).tier (unresolved.map keys.get)
      have hans := exec_answer (E := E) (t, .getMany (unresolved.map keys.get)) s
      simp only [hempty, Bool.false_eq_true, if_false, run_bind, run_getManyAt]
      generalize exec (E := E) (t, .getMany (unresolved.map keys.get)) s = out at *
      obtain ⟨a, s₁⟩ := out
      cases a with
      | error source =>
        refine ⟨s₁, hund, Or.inr ?_⟩
        rw [hE source]
        exact ⟨t, source, rfl⟩
      | ok found =>
        have hfound : found = (unresolved.map keys.get).map (s.held t) := hok found hans.symm
        have hzip : unresolved.zip found =
            unresolved.map fun i => (i, s.held t (keys.get i)) := by
          rw [hfound, List.map_map]
          have hself := @List.zip_map' _ _ _ id (s.held t ∘ keys.get) unresolved
          simpa using hself
        have hsplit' : List.finRange n = (above ++ [t]) ++ below := by simp [hsplit]
        have hview : ∀ k, s₁.view (above ++ [t]) k = (s.view above k).or (s.held t k) := by
          intro k
          rw [hund.view, view_append]
          simp [atop, view, stacked]
        obtain ⟨hrest, hnew⟩ := resolve_spec t (fun i => s.held t (keys.get i)) unresolved statuses
        dsimp only
        rw [hzip]
        have hstat' : ∀ i, ((Router.resolve t (unresolved.map fun i =>
            (i, s.held t (keys.get i))) statuses).1 i).value =
              s₁.view (above ++ [t]) (keys.get i) := by
          intro i
          rw [hnew i, hview]
          cases hv : s.view above (keys.get i) with
          | some v =>
            have hmem : i ∉ unresolved := fun h => by rw [(hleft i).1 h] at hv; cases hv
            rw [if_neg hmem, hstat i, hv]
            rfl
          | none =>
            rw [if_pos ((hleft i).2 hv)]
            cases ht : s.held t (keys.get i) with
            | some v => rfl
            | none =>
              dsimp only
              rw [hstat i, hv]
              rfl
        have hleft' : ∀ i, i ∈ (Router.resolve t (unresolved.map fun i =>
            (i, s.held t (keys.get i))) statuses).2 ↔
              s₁.view (above ++ [t]) (keys.get i) = none := by
          intro i
          rw [hview, hrest, List.mem_filter, hleft i]
          cases s.view above (keys.get i) <;> cases s.held t (keys.get i) <;> simp
        obtain ⟨s', hund', hres⟩ := ih (above ++ [t]) hsplit' s₁ _ _ hstat' hleft'
        rw [hund.shown] at hres
        exact ⟨s', hund.trans hund', hres⟩

end Stack
end Tierstore
