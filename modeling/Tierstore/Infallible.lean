import Tierstore.Conserve

/-! What writes and deletes do to the whole stack when no tier can fail: the map the stack
shows changes as a plain map would, up to what falls off the bottom. -/
namespace Tierstore
open Overlay Effects

namespace Stack

/-! ## Removing keys from one tier -/
section Removes
variable {T K V E : Type} {n : Nat} [DecidableEq K] [Tier T K V E] [LawfulTier T]

structure Removes (T : Type) {K V E α : Type} {n : Nat} [DecidableEq K] [Tier T K V E]
    [LawfulTier T] (remove : Fin n → RouterM n K V E (Except E α)) (ks : List K) : Prop where
  other : ∀ (t : Fin n) (s : Stack T n) (j : Fin n), j ≠ t → (run (remove t) s).2 j = s j
  erases : ∀ (t : Fin n) (s : Stack T n) (a : α), (run (remove t) s).1 = .ok a →
    (run (remove t) s).2.held t = eraseAll (s.held t) ks
  keeps : ∀ (t : Fin n) (s : Stack T n) (k : K), k ∉ ks →
    (run (remove t) s).2.held t k = s.held t k

theorem removes_delete (k : K) :
    Removes T (fun t : Fin n => deleteAt (V := V) (E := E) t k) [k] where
  other t s _ hj := exec_other (t, .delete k) s hj
  erases t s a h := by
    rw [run_deleteAt, held_exec, eraseAll_singleton]
    exact LawfulTier.delete_ok (s t).tier k a h
  keeps t s x hx := by
    rw [run_deleteAt, held_exec]
    have hok := LawfulTier.delete_ok (s t).tier k
    have herr := LawfulTier.delete_error (s t).tier k
    change contents (Tier.delete (s t).tier k).2 x = contents (s t).tier x
    cases hres : (Tier.delete (s t).tier k).1 with
    | ok a =>
      rw [hok a hres]
      simp [erase, show x ≠ k by simpa using hx]
    | error e => rw [herr e hres]

theorem removes_deleteMany (ks : List K) :
    Removes T (fun t : Fin n => deleteManyAt (V := V) (E := E) t ks) ks where
  other t s _ hj := exec_other (t, .deleteMany ks) s hj
  erases t s a h := by
    rw [run_deleteManyAt, held_exec]
    exact LawfulTier.deleteMany_ok (s t).tier ks a h
  keeps t s x hx := by
    rw [run_deleteManyAt, held_exec]
    have hok := LawfulTier.deleteMany_ok (s t).tier ks
    have herr := LawfulTier.deleteMany_error (s t).tier ks
    change contents (Tier.deleteMany (s t).tier ks).2 x = contents (s t).tier x
    cases hres : (Tier.deleteMany (s t).tier ks).1 with
    | ok a =>
      rw [hok a hres]
      simp [eraseAll, hx]
    | error e =>
      obtain h | ⟨hmem, -⟩ := herr e x hres
      · exact h
      · exact absurd hmem hx

/-- The keys that are not deleted keep their value in every tier, even if a delete fails. -/
def KeepsOthers (ks : List K) (s s' : Stack T n) : Prop :=
  ∀ (j : Fin n) (k : K), k ∉ ks → s'.held j k = s.held j k

theorem KeepsOthers.cons {α : Type} {remove : Fin n → RouterM n K V E (Except E α)} {ks : List K}
    (hremove : Removes T remove ks) {t : Fin n} {s s' : Stack T n}
    (h : KeepsOthers ks (run (remove t) s).2 s') : KeepsOthers ks s s' := by
  intro j k hk
  rw [h j k hk]
  by_cases hj : j = t
  · rw [hj]
    exact hremove.keeps t s k hk
  · rw [held_congr (hremove.other t s j hj)]

theorem KeepsOthers.shown {ks : List K} {s s' : Stack T n} (h : KeepsOthers ks s s') {k : K}
    (hk : k ∉ ks) : s'.shown k = s.shown k :=
  stacked_congr_at fun j _ => h j k hk

theorem deleteTiers_keepsOthers (r : Router n) (k : K) (ts : List (Fin n)) (existed : Bool)
    (failures : List (TierFailure E)) (s : Stack T n) :
    KeepsOthers [k] s (run (r.deleteTiers (V := V) k ts existed failures) s).2 := by
  induction ts generalizing existed failures s with
  | nil =>
    intro j x _
    rw [Router.deleteTiers]
    split <;> rfl
  | cons t below ih =>
    rw [Router.deleteTiers]
    split
    · exact ih existed failures s
    · rw [run_bind]
      refine KeepsOthers.cons (removes_delete k) (t := t) ?_
      cases (run (deleteAt (V := V) (E := E) t k) s).1 with
      | ok present => exact ih _ failures _
      | error source => exact ih existed _ _

theorem removeTiers_keepsOthers (r : Router n) (ks : List K) (ts : List (Fin n))
    (removed : List Bool) (failures : List (TierFailure E)) (s : Stack T n) :
    KeepsOthers ks s (run (r.removeTiers (V := V) ks ts removed failures) s).2 := by
  induction ts generalizing removed failures s with
  | nil => exact fun _ _ _ => rfl
  | cons t below ih =>
    rw [Router.removeTiers]
    split
    · exact ih removed failures s
    · rw [run_bind]
      refine KeepsOthers.cons (removes_deleteMany ks) (t := t) ?_
      cases (run (deleteManyAt (V := V) (E := E) t ks) s).1 with
      | ok flags => exact ih _ failures _
      | error source => exact ih removed _ _

end Removes

section Infallible
variable {T K V : Type} {n : Nat} [DecidableEq K] [Tier T K V Infallible] [LawfulTier T]

/-! ## Write-through -/

theorem settles_infallible (r : Router n) (hw : ∀ i, r.writable i = true)
    (w : Fin n → RouterM n K V Infallible (Except Infallible (Displaced K V)))
    (es : List (K × V)) (ts : List (Fin n)) (evicted : Displaced K V) (s : Stack T n) :
    Settles r w es ts evicted s := by
  induction ts generalizing evicted s with
  | nil => trivial
  | cons t above ih =>
    rw [Settles]
    generalize run (w t) s = out
    obtain ⟨a, s'⟩ := out
    cases a with
    | ok displaced =>
      exact ⟨dispenses_of_accepted r hw _ _ _ displaced s' (allAccepted_infallible _ _), ih _ _⟩
    | error e => exact e.elim

omit [DecidableEq K] [LawfulTier T] in
/-- A write-through over tiers that cannot fail succeeds; off a roomy stack nothing falls. -/
theorem writeThrough_ok (r : Router n) (hw : ∀ i, r.writable i = true)
    (hd : r.policy.demoteDisplaced = true) {U : T → Prop} (hU : Keeping U)
    {w : Fin n → RouterM n K V Infallible (Except Infallible (Displaced K V))}
    (hkeep : ∀ (t : Fin n) (s : Stack T n) (d : Displaced K V), U (s t).tier →
      (run (w t) s).1 = .ok d → d = []) (ts done : List (Fin n))
    (hsplit : List.finRange n = ts.reverse ++ done) (evicted : Displaced K V) (s : Stack T n) :
    ∃ d, (run (r.writeThrough w ts evicted) s).1 = .ok d ∧
      (Roomy U s → evicted = [] → d = []) := by
  induction ts generalizing done evicted s with
  | nil => exact ⟨evicted, rfl, fun _ h => h⟩
  | cons t above ih =>
    have hsplit' : List.finRange n = above.reverse ++ t :: done := by
      rw [hsplit]
      simp
    rw [run_writeThrough_cons r hw hd]
    cases hrun : run (w t) s with
    | mk a s' =>
    cases a with
    | error e => exact e.elim
    | ok displaced =>
      obtain ⟨d, hok, hnil⟩ := ih (t :: done) hsplit' (evicted ++ (run (r.demote t displaced) s').1)
        (run (r.demote t displaced) s').2
      refine ⟨d, hok, fun hs he => hnil ?_ ?_⟩
      · have hs' : Roomy U s' := by
          have h := roomy_run hU (w t) hs
          rwa [hrun] at h
        exact roomy_run hU _ hs'
      · have hs' : Roomy U s' := by
          have h := roomy_run hU (w t) hs
          rwa [hrun] at h
        rw [he, List.nil_append]
        refine demote_roomy hU r hw hsplit' displaced s' hs' fun hb => ?_
        subst hb
        exact hkeep t s displaced (hs.last hsplit') (by rw [hrun])

/-- The write-through of `put` and `put_many`. -/
theorem writeThrough_within (r : Router n) (hw : ∀ i, r.writable i = true)
    (hd : r.policy.demoteDisplaced = true) {U : T → Prop} (hU : Keeping U)
    {w : Fin n → RouterM n K V Infallible (Except Infallible (Displaced K V))}
    {es : List (K × V)} (hwrites : Writes T w es)
    (hkeep : ∀ (t : Fin n) (s : Stack T n) (d : Displaced K V), U (s t).tier →
      (run (w t) s).1 = .ok d → d = []) (hn : n ≠ 0) (s : Stack T n) :
    ∃ d, (run (r.writeThrough w (List.finRange n).reverse []) s).1 = .ok d ∧
      Within (Roomy U s) (run (r.writeThrough w (List.finRange n).reverse []) s).2.shown
        (write s.shown es) := by
  have hsplit : List.finRange n = (List.finRange n).reverse.reverse ++ [] := by simp
  obtain ⟨d, hok, hnil⟩ := writeThrough_ok r hw hd hU hkeep _ [] hsplit [] s
  have hset := write_settled r hw hwrites hd (fun e => e.elim) hn
    (settles_infallible r hw w es _ [] s)
  cases hrun : run (r.writeThrough w (List.finRange n).reverse []) s with
  | mk a s' =>
  rw [hrun] at hok hset
  dsimp only at hok
  subst hok
  exact ⟨d, rfl, Within.of_conserved hset fun hs => hnil hs rfl⟩

/-! ## Write-around and deletes -/

structure Erased (ks : List K) (ts : List (Fin n)) (s s' : Stack T n) : Prop where
  gone : ∀ j ∈ ts, s'.held j = eraseAll (s.held j) ks
  kept : ∀ j ∉ ts, s'.held j = s.held j

theorem Erased.nil (ks : List K) (s : Stack T n) : Erased ks [] s s where
  gone := nofun
  kept := fun _ _ => rfl

theorem Erased.cons {α : Type} {remove : Fin n → RouterM n K V Infallible (Except Infallible α)}
    {ks : List K} (hremove : Removes T remove ks) {t : Fin n} {ts : List (Fin n)}
    {s s' : Stack T n} (h : Erased ks ts (run (remove t) s).2 s') : Erased ks (t :: ts) s s' := by
  have hfirst : ∀ j, (run (remove t) s).2.held j =
      if j = t then eraseAll (s.held j) ks else s.held j := by
    intro j
    by_cases hj : j = t
    · subst hj
      cases hres : (run (remove j) s).1 with
      | error e => exact e.elim
      | ok a => rw [hremove.erases j s a hres, if_pos rfl]
    · rw [held_congr (hremove.other t s j hj), if_neg hj]
  refine ⟨fun j hj => ?_, fun j hj => ?_⟩
  · by_cases hmem : j ∈ ts
    · rw [h.gone j hmem, hfirst j]
      split
      · exact eraseAll_eraseAll _ _
      · rfl
    · rw [h.kept j hmem, hfirst j, if_pos ((List.mem_cons.1 hj).resolve_right hmem)]
  · rw [h.kept j (mt (List.mem_cons_of_mem t) hj), hfirst j, if_neg (mt (by rintro rfl; simp) hj)]

theorem Erased.view {ks : List K} {ts l : List (Fin n)} {s s' : Stack T n}
    (h : Erased ks ts s s') (hl : ∀ j ∈ l, j ∈ ts) : s'.view l = eraseAll (s.view l) ks := by
  induction l with
  | nil =>
    funext x
    simp [Stack.view, stacked, eraseAll]
  | cons j l ih =>
    have hj := h.gone j (hl j (by simp))
    rw [view_cons, view_cons, hj, ih fun i hi => hl i (List.mem_cons_of_mem j hi), eraseAll_atop]

section Loops
variable (r : Router n) (hw : ∀ i, r.writable i = true)
include hw

theorem invalidate_erased {α : Type}
    {remove : Fin n → RouterM n K V Infallible (Except Infallible α)} {ks : List K}
    (hremove : Removes T remove ks) (ts : List (Fin n)) (s : Stack T n) :
    (run (r.invalidate remove ts []) s).1 = [] ∧
      Erased ks ts s (run (r.invalidate remove ts []) s).2 := by
  induction ts generalizing s with
  | nil => exact ⟨rfl, .nil ks s⟩
  | cons t below ih =>
    have hwt : (!r.writable t) = false := by simp [hw t]
    have ht := ih (run (remove t) s).2
    rw [Router.invalidate]
    simp only [hwt, Bool.false_eq_true, if_false, run_bind]
    cases hres : (run (remove t) s).1 with
    | error e => exact e.elim
    | ok a => exact ⟨ht.1, Erased.cons hremove ht.2⟩

theorem deleteTiers_erased (k : K) (ts : List (Fin n)) (existed : Bool) (s : Stack T n) :
    (∃ b, (run (r.deleteTiers (V := V) k ts existed []) s).1 = .ok b) ∧
      Erased [k] ts s (run (r.deleteTiers (V := V) k ts existed []) s).2 := by
  induction ts generalizing existed s with
  | nil => exact ⟨⟨existed, rfl⟩, .nil [k] s⟩
  | cons t below ih =>
    have hwt : (!r.writable t) = false := by simp [hw t]
    rw [Router.deleteTiers]
    simp only [hwt, Bool.false_eq_true, if_false, run_bind]
    cases hres : (run (deleteAt (V := V) (E := Infallible) t k) s).1 with
    | error e => exact e.elim
    | ok present =>
      have ht := ih (existed || present) (run (deleteAt (V := V) (E := Infallible) t k) s).2
      exact ⟨ht.1, Erased.cons (removes_delete k) ht.2⟩

theorem removeTiers_erased (ks : List K) (ts : List (Fin n)) (removed : List Bool)
    (s : Stack T n) :
    Erased ks ts s (run (r.removeTiers (V := V) ks ts removed []) s).2 := by
  induction ts generalizing removed s with
  | nil => exact .nil ks s
  | cons t below ih =>
    have hwt : (!r.writable t) = false := by simp [hw t]
    rw [Router.removeTiers]
    simp only [hwt, Bool.false_eq_true, if_false, run_bind]
    cases hres : (run (deleteManyAt (V := V) (E := Infallible) t ks) s).1 with
    | error e => exact e.elim
    | ok flags => exact Erased.cons (removes_deleteMany ks) (ih _ _)

theorem delete_shown (k : K) (s : Stack T n) :
    (∃ b, (run (r.delete (V := V) k) s).1 = .ok b) ∧
      (run (r.delete (V := V) k) s).2.shown = eraseAll s.shown [k] := by
  obtain ⟨hok, herased⟩ := deleteTiers_erased r hw k (List.finRange n) false s
  exact ⟨hok, herased.view fun _ h => h⟩

theorem removeMany_shown (ks : List K) (s : Stack T n) :
    (run (r.removeMany (V := V) ks) s).2.shown = eraseAll s.shown ks :=
  (removeTiers_erased r hw ks (List.finRange n) _ s).view fun _ h => h

theorem bottom_of_split {above : List (Fin n)} {b : Fin n}
    (h : List.finRange n = above ++ [b]) :
    r.bottom = some b ∧ (List.finRange n).take b = above := by
  refine ⟨?_, ?_⟩
  · rw [Router.bottom, h]
    simp [hw b]
  · rw [val_of_split h, h]
    simp

/-- The write-around of `put` and `put_many`. -/
theorem writeAround_within {U : T → Prop} {α : Type}
    {w : Fin n → RouterM n K V Infallible (Except Infallible (Displaced K V))}
    {remove : Fin n → RouterM n K V Infallible (Except Infallible α)}
    {es : List (K × V)} (hwrites : Writes T w es) (hremove : Removes T remove (es.map Prod.fst))
    (hkeep : ∀ (t : Fin n) (s : Stack T n) (d : Displaced K V), U (s t).tier →
      (run (w t) s).1 = .ok d → d = []) (hn : n ≠ 0) (s : Stack T n) :
    ∃ d, (run (r.writeAround w remove) s).1 = .ok d ∧
      Within (Roomy U s) (run (r.writeAround w remove) s).2.shown (write s.shown es) := by
  obtain ⟨above, b, hsplit⟩ : ∃ above b, List.finRange n = above ++ [b] := by
    have hne : List.finRange n ≠ [] := by simpa using hn
    exact ⟨_, _, (List.dropLast_append_getLast hne).symm⟩
  obtain ⟨hbot, htake⟩ := bottom_of_split r hw hsplit
  rw [Router.writeAround, hbot]
  simp only [htake, run_bind]
  have hother := hwrites.other b s
  have hheld := hwrites.conserves b s
  have hroomy := hkeep b s
  generalize run (w b) s = out at *
  obtain ⟨a, s₁⟩ := out
  cases a with
  | error e => exact e.elim
  | ok d =>
    obtain ⟨hnil, herased⟩ := invalidate_erased r hw hremove above s₁
    simp only [run_bind]
    generalize run (r.invalidate remove above []) s₁ = out at *
    obtain ⟨failures, s₂⟩ := out
    dsimp only at hnil herased
    subst hnil
    refine ⟨d, rfl, Within.of_conserved ?_ fun hs => hroomy d (hs.last hsplit) rfl⟩
    have hba : b ∉ above := (not_mem_of_split hsplit).2
    have habove : s₂.view above = eraseAll (s.view above) (es.map Prod.fst) := by
      rw [herased.view fun _ h => h, view_congr fun j hj => hother j fun h => hba (h ▸ hj)]
    have hb : s₂.held b = s₁.held b := herased.kept b hba
    have hone : ∀ s : Stack T n, s.view [b] = s.held b := fun s => by simp [Stack.view, stacked]
    calc atop (s₂.shown) (latest d)
        = atop (eraseAll (s.view above) (es.map Prod.fst)) (atop (s₁.held b) (latest d)) := by
          rw [shown, hsplit, view_append, habove, hone, hb, atop_assoc]
      _ = write s.shown es := by
          rw [hheld d rfl, eraseAll_atop_write, shown, hsplit, view_append, hone]

end Loops

/-! ## The router's writes -/

theorem put_within (r : Router n) (hw : ∀ i, r.writable i = true)
    (hd : r.policy.demoteDisplaced = true) {U : T → Prop} (hU : Keeping U) (hn : n ≠ 0)
    (k : K) (v : V) (s : Stack T n) :
    ∃ d, (run (r.put k v) s).1 = .ok d ∧
      Within (Roomy U s) (run (r.put k v) s).2.shown (write s.shown [(k, v)]) := by
  have hkeep : ∀ (t : Fin n) (s : Stack T n) (d : Displaced K V), U (s t).tier →
      (run (putAt t k v) s).1 = .ok d → d = [] := fun t s d => hU.put (s t).tier k v d
  have hany : (List.finRange n).any r.writable = true := by
    obtain ⟨m, rfl⟩ := Nat.exists_eq_succ_of_ne_zero hn
    exact Router.any_writable (hw 0)
  rw [Router.put]
  cases r.policy.write with
  | writeThrough =>
    simp only [hany, Bool.not_true, Bool.false_eq_true, if_false]
    exact writeThrough_within r hw hd hU (writes_put k v) hkeep hn s
  | writeAround =>
    exact writeAround_within r hw (writes_put k v) (removes_delete k) hkeep hn s

theorem putMany_within (r : Router n) (hw : ∀ i, r.writable i = true)
    (hd : r.policy.demoteDisplaced = true) {U : T → Prop} (hU : Keeping U) (hn : n ≠ 0)
    (es : List (K × V)) (s : Stack T n) :
    ∃ d, (run (r.putMany es) s).1 = .ok d ∧
      Within (Roomy U s) (run (r.putMany es) s).2.shown (write s.shown es) := by
  have hkeep : ∀ (t : Fin n) (s : Stack T n) (d : Displaced K V), U (s t).tier →
      (run (putManyAt t es) s).1 = .ok d → d = [] := fun t s d => hU.putMany (s t).tier es d
  have hany : (List.finRange n).any r.writable = true := by
    obtain ⟨m, rfl⟩ := Nat.exists_eq_succ_of_ne_zero hn
    exact Router.any_writable (hw 0)
  rw [Router.putMany]
  cases r.policy.write with
  | writeThrough =>
    simp only [hany, Bool.not_true, Bool.false_eq_true, if_false]
    exact writeThrough_within r hw hd hU (writes_putMany es) hkeep hn s
  | writeAround =>
    exact writeAround_within r hw (writes_putMany es) (removes_deleteMany _) hkeep hn s

end Infallible
end Stack
end Tierstore
