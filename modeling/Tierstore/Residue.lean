import Tierstore.OneHolder

/-! When the gate map keeps an entry that nobody uses: a guard's clean-up goes by the strong count,
and an acquire that is cancelled has no clean-up of its own. -/
namespace Tierstore
open Semaphores

namespace SingleFlight
variable {ι K W T : Type}

/-- A key that nobody waits for, holds or is still releasing has no entry in the map. -/
def NoResidue (s : SingleFlight ι K W) : Prop :=
  ∀ key, (∀ i g, (s.flight i).at? ≠ some (key, g)) → s.map key = none

def InUse (s : SingleFlight ι K W) (i : ι) (key : K) : Prop :=
  ∃ j g, j ≠ i ∧ (s.flight j).at? = some (key, g)

/-- An acquire is cancelled while somebody else uses its key. A guard's clean-up runs while somebody
else does, or while no reference to its gate is on its way out. -/
def Clears (s : SingleFlight ι K W) : FlightStep ι K W → Prop
  | .cancel i => ∀ key g pending, s.flight i = .acquiring key g (some pending) → s.InUse i key
  | .cleanup i => ∀ key g, s.flight i = .waking key g [] →
    s.InUse i key ∨ ∀ j, s.flight j ≠ .leaving g
  | _ => True

/-- The invariant: no two keys share a gate, and nothing is left in the map. -/
structure Cleared (wk : Wakers W T) (s : SingleFlight ι K W) : Prop where
  kept : s.Kept wk
  apart : ∀ key key' g, s.map key = some g → s.map key' = some g → key = key'
  clear : s.NoResidue

theorem own_cases {f : Flight K W} {g : Nat} (h : f.own = some g) :
    (∃ key, f.at? = some (key, g)) ∨ f = .leaving g := by
  cases f with
  | idle => cases h
  | leaving g' =>
    cases h
    exact .inr rfl
  | entered key g' | acquiring key g' pending | acquired key g' | holding key g'
  | waking key g' left =>
    cases h
    exact .inl ⟨key, rfl⟩

theorem at_of_awaited {f : Flight K W} {g : Nat} (h : f.awaited = some g) :
    ∃ key, f.at? = some (key, g) := by
  cases f with
  | acquiring key g' pending | acquired key g' =>
    cases h
    exact ⟨key, rfl⟩
  | idle | entered _ _ | holding _ _ | waking _ _ _ | leaving _ => cases h

theorem NoResidue.mono {s s' : SingleFlight ι K W} (h : s.NoResidue) (hmap : s'.map = s.map)
    (hat : ∀ j key g, (s.flight j).at? = some (key, g) → (s'.flight j).at? = some (key, g)) :
    s'.NoResidue := by
  intro key hnone
  rw [hmap]
  exact h key fun j g hj => hnone j g (hat j key g hj)

section Steps
variable [DecidableEq ι] {s s' : SingleFlight ι K W}

theorem NoResidue.goes (h : s.NoResidue) {i : ι} {f : Flight K W}
    (hf : ∀ key g, (s.flight i).at? = some (key, g) → f.at? = some (key, g))
    (hmap : s'.map = s.map) (hflight : s'.flight = s.goes i f) : s'.NoResidue := by
  refine h.mono hmap fun j key g hj => ?_
  rw [hflight]
  by_cases hji : j = i
  · subst hji
    rw [SingleFlight.goes, Function.update_self]
    exact hf key g hj
  · rwa [SingleFlight.goes, Function.update_of_ne hji]

/-- The entry goes with the last task at the gate. -/
theorem NoResidue.remove [DecidableEq K] (h : s.NoResidue) {i : ι} {key : K} {g : Nat}
    (hi : (s.flight i).at? = some (key, g)) {heap : Nat → Gate W} :
    NoResidue { s with map := Function.update s.map key none, heap,
                       flight := s.goes i (.leaving g) } := by
  intro key' hunused
  by_cases hkey : key' = key
  · rw [hkey]
    exact Function.update_self ..
  · refine (Function.update_of_ne hkey _ _).trans (h key' fun j g' hj => ?_)
    have hji : j ≠ i := by
      rintro rfl
      rw [hi] at hj
      cases hj
      exact hkey rfl
    refine hunused j g' ?_
    simpa only [SingleFlight.goes, Function.update_of_ne hji] using hj

variable {wk : Wakers W T}

/-- The task was at its gate and is not any more, and the map is as it was. -/
theorem noResidue_leaving_iff (h : s.Cleared wk) {i : ι} {key : K} {g : Nat}
    (hi : (s.flight i).at? = some (key, g)) (hmap : s'.map = s.map)
    (hflight : s'.flight = s.goes i (.leaving g)) : s'.NoResidue ↔ s.InUse i key := by
  have hleft : (s'.flight i).at? = none := by
    rw [hflight, SingleFlight.goes, Function.update_self]
    rfl
  have hother {j : ι} (hj : j ≠ i) : s'.flight j = s.flight j := by
    rw [hflight, SingleFlight.goes, Function.update_of_ne hj]
  constructor
  · intro hclear
    by_contra hunused
    have hnone := hclear key fun j g' hj => by
      by_cases hji : j = i
      · rw [hji, hleft] at hj
        cases hj
      · exact hunused ⟨j, g', hji, hother hji ▸ hj⟩
    rw [hmap, h.kept.current i key g hi] at hnone
    cases hnone
  · rintro ⟨user, g', huser, hat⟩ key' hnone
    rw [hmap]
    refine h.clear key' fun j g'' hj => ?_
    by_cases hji : j = i
    · subst hji
      rw [hi] at hj
      cases hj
      exact hnone user g' (by rw [hother huser, hat])
    · exact hnone j g'' (by rw [hother hji, hj])

/-- A guard that cleans up alone finds the reference of the map and its own. -/
theorem Cleared.strong_eq (h : s.Cleared wk) {i : ι} {key : K} {g : Nat}
    (hi : s.flight i = .waking key g []) (hunused : ¬ s.InUse i key)
    (hstay : ∀ j, s.flight j ≠ .leaving g) : (s.heap g).strong = 2 := by
  have hkey : s.map key = some g := h.kept.current i key g (by rw [hi]; rfl)
  have halone {j : ι} {key' : K} (hj : (s.flight j).at? = some (key', g)) : j = i := by
    have hkey' := h.kept.current j key' g hj
    obtain rfl := h.apart key key' g hkey hkey'
    by_contra hji
    exact hunused ⟨j, g, hji, hj⟩
  have hrefers : fiber (refers s.map s.flight) (some g) = {.inMap key, .own i} := by
    ext r
    cases r with
    | inMap key' =>
      suffices s.map key' = some g ↔ key' = key by simpa [fiber, refers] using this
      exact ⟨fun hkey' => h.apart key' key g hkey' hkey, fun heq => heq ▸ hkey⟩
    | own j =>
      suffices (s.flight j).own = some g ↔ j = i by simpa [fiber, refers] using this
      refine ⟨fun hj => ?_, fun heq => by rw [heq, hi]; rfl⟩
      obtain ⟨key', hat⟩ | hleaving := own_cases hj
      · exact halone hat
      · exact absurd hleaving (hstay j)
    | awaited j =>
      suffices (s.flight j).awaited ≠ some g by simpa [fiber, refers] using this
      intro hj
      obtain ⟨key', hat⟩ := at_of_awaited hj
      rw [halone hat, hi] at hj
      cases hj
  have hcount := h.kept.counted g
  rw [hrefers, Set.encard_pair (by simp)] at hcount
  exact_mod_cast hcount.symm

variable [DecidableEq K] [DecidableEq T]

theorem apart_moves (h : s.Cleared wk) (hmove : Moves wk s s') (key key' : K) (g : Nat)
    (hkey : s'.map key = some g) (hkey' : s'.map key' = some g) : key = key' := by
  cases hmove with
  | create i made hi hmade =>
    -- a new gate is at an address that nothing refers to
    have hnew (other : K) : s.map other ≠ some s.next := fun hother => by
      have hpos := h.kept.counted.pos (r := .inMap other) hother
      rw [h.kept.unborn s.next le_rfl] at hpos
      exact Nat.lt_irrefl 0 hpos
    simp only [Function.update_apply] at hkey hkey'
    split at hkey
    next heq =>
      split at hkey'
      next heq' => rw [heq, heq']
      next =>
        cases hkey
        exact absurd hkey' (hnew key')
    next =>
      split at hkey'
      next =>
        cases hkey'
        exact absurd hkey (hnew key)
      next => exact h.apart key key' g hkey hkey'
  | remove i gone g' hi hgone hstrong =>
    simp only [Function.update_apply] at hkey hkey'
    split at hkey
    next => cases hkey
    next =>
      split at hkey'
      next => cases hkey'
      next => exact h.apart key key' g hkey hkey'
  | attach _ _ _ _ _ | await _ _ _ _ | take _ _ _ _ _ _ | wait _ _ _ _ _ _ _ | guard _ _ _ _
  | cancel _ _ _ _ _ | release _ _ _ _ | wake _ _ _ _ _ _ | keep _ _ _ _ | leave _ _ _ =>
    exact h.apart key key' g hkey hkey'

omit [DecidableEq T] in
theorem NoResidue.enter (h : s.NoResidue) {i : ι} (hi : s.flight i = .idle) (key : K) :
    (s.enter i key).NoResidue := by
  unfold SingleFlight.enter
  split
  next g hg =>
    refine h.goes (fun key' g' hat => ?_) rfl rfl
    rw [hi] at hat
    cases hat
  next hnone =>
    intro key' hunused
    have hne : key' ≠ key := by
      rintro rfl
      exact hunused i s.next (by simp [SingleFlight.goes, Flight.at?])
    refine (Function.update_of_ne hne _ _).trans (h key' fun j g hj => ?_)
    have hji : j ≠ i := by
      rintro rfl
      rw [hi] at hj
      cases hj
    refine hunused j g ?_
    simpa only [SingleFlight.goes, Function.update_of_ne hji] using hj

omit [DecidableEq K] in
theorem NoResidue.wake (h : s.NoResidue) {i : ι} {key : K} {g : Nat} {w : W} {left : List W}
    (hi : s.flight i = .waking key g (w :: left)) : (s.wake wk i key g w left).NoResidue := by
  refine h.mono rfl fun j key' g' hat => ?_
  by_cases hji : j = i
  · subst hji
    rw [hi] at hat
    simpa [SingleFlight.wake, Flight.at?] using hat
  · simpa only [SingleFlight.wake, Function.update_of_ne hji, at_rouse] using hat

omit [DecidableEq T] in
theorem noResidue_cleanup_iff (h : s.Cleared wk) {i : ι} {key : K} {g : Nat}
    (hi : s.flight i = .waking key g []) :
    (s.cleanup i key g).NoResidue ↔ s.InUse i key ∨ ∀ j, s.flight j ≠ .leaving g := by
  have hat : (s.flight i).at? = some (key, g) := by
    rw [hi]
    rfl
  have hkey := h.kept.current i key g hat
  rw [cleanup]
  by_cases hstrong : (s.heap g).strong = 2
  · rw [if_pos ⟨hkey, hstrong⟩]
    refine iff_of_true (h.clear.remove hat) (.inr fun j hj => ?_)
    -- a reference on its way out would be a third one
    obtain hmap | hown := h.kept.counted.only_two hstrong (p := .inMap key) (q := .own i)
      (r := .own j) hkey (by simp [refers, hi, Flight.own]) (by simp)
      (by simp [refers, hj, Flight.own])
    · cases hmap
    · cases hown
      rw [hi] at hj
      cases hj
  · have hleave : NoResidue { s with flight := s.goes i (.leaving g) } ↔ s.InUse i key :=
      noResidue_leaving_iff h hat rfl rfl
    rw [if_neg fun hlast => hstrong hlast.2, hleave]
    refine ⟨.inl, fun hused => ?_⟩
    by_contra hunused
    exact hstrong (h.strong_eq hi hunused (hused.resolve_left hunused))

/-- A step leaves the map clear exactly if it is of neither kind that leaves an entry behind. -/
theorem noResidue_step_iff (h : s.Cleared wk) (a : FlightStep ι K W) :
    (step wk s a).NoResidue ↔ s.Clears a := by
  cases a with
  | enter i key =>
    refine iff_of_true ?_ trivial
    simp only [step]
    split
    next hi => exact h.clear.enter hi key
    next => exact h.clear
  | await i =>
    refine iff_of_true ?_ trivial
    simp only [step]
    split
    next key g hi => exact h.clear.goes (fun key' g' hat => by rwa [hi] at hat) rfl rfl
    next => exact h.clear
  | poll i w =>
    refine iff_of_true ?_ trivial
    simp only [step]
    split
    next key g pending hi =>
      refine h.clear.goes (fun key' g' hat => ?_) rfl rfl
      rw [hi] at hat
      split <;> exact hat
    next => exact h.clear
  | guard i =>
    refine iff_of_true ?_ trivial
    simp only [step]
    split
    next key g hi => exact h.clear.goes (fun key' g' hat => by rwa [hi] at hat) rfl rfl
    next => exact h.clear
  | cancel i =>
    simp only [step]
    split
    next key g pending hi =>
      have hclears : s.Clears (.cancel i) ↔ s.InUse i key := by
        refine ⟨fun hclears => hclears key g pending hi, fun hused key' g' pending' hi' => ?_⟩
        rw [hi] at hi'
        cases hi'
        exact hused
      rw [hclears]
      exact noResidue_leaving_iff h (by rw [hi]; rfl) rfl rfl
    next hnot =>
      exact iff_of_true h.clear fun key g pending hi => absurd hi (hnot key g pending)
  | release i =>
    refine iff_of_true ?_ trivial
    simp only [step]
    split
    next key g hi => exact h.clear.goes (fun key' g' hat => by rwa [hi] at hat) rfl rfl
    next => exact h.clear
  | wake i =>
    refine iff_of_true ?_ trivial
    simp only [step]
    split
    next key g w left hi => exact h.clear.wake hi
    next => exact h.clear
  | cleanup i =>
    simp only [step]
    split
    next key g hi =>
      have hclears : s.Clears (.cleanup i) ↔ s.InUse i key ∨ ∀ j, s.flight j ≠ .leaving g := by
        refine ⟨fun hclears => hclears key g hi, fun hused key' g' hi' => ?_⟩
        rw [hi] at hi'
        cases hi'
        exact hused
      rw [hclears]
      exact noResidue_cleanup_iff h hi
    next hnot => exact iff_of_true h.clear fun key g hi => absurd hi (hnot key g)
  | leave i =>
    refine iff_of_true ?_ trivial
    simp only [step]
    split
    next g hi => exact h.clear.goes (fun key' g' hat => by rw [hi] at hat; cases hat) rfl rfl
    next => exact h.clear

theorem Cleared.step (h : s.Cleared wk) (a : FlightStep ι K W) (ha : s.Clears a) :
    (step wk s a).Cleared wk := by
  refine ⟨h.kept.step a, ?_, (noResidue_step_iff h a).2 ha⟩
  obtain hsame | hmove := step_moves wk s a
  · rw [hsame]
    exact h.apart
  · exact apart_moves h hmove

omit [DecidableEq ι] [DecidableEq K] [DecidableEq T] in
theorem cleared_new : (new : SingleFlight ι K W).Cleared wk :=
  ⟨kept_new, fun _ _ _ hkey => (nomatch hkey), fun _ _ => rfl⟩

/-- Whatever the tasks do in whatever order: no state of a run has an entry for a key that nobody
uses exactly if every acquire is cancelled, and every guard cleans up, in company or without
leftovers. -/
theorem clear_along_iff (wk : Wakers W T) (steps : List (FlightStep ι K W)) :
    Runs.Along (step wk) (fun s a => (step wk s a).NoResidue) new steps ↔
      Runs.Along (step wk) Clears (new : SingleFlight ι K W) steps := by
  have hnew : (new : SingleFlight ι K W).Cleared wk := cleared_new
  refine Runs.along_congr (fun s a hs => ?_) (fun s a hs ha => ?_) hnew steps
  · exact noResidue_step_iff hs a
  · exact hs.step a ha

end Steps

/-! ## Entries left behind -/

def numbered : Wakers Nat Nat := ⟨id, fun a b => a == b, fun _ _ h => by simpa using h⟩

/-- A task takes the gate while another waits for it, and drops its guard up to the clean-up. -/
def handover : List (FlightStep Bool Unit Nat) :=
  [.enter false (), .await false, .poll false 7, .guard false, .enter true (), .await true,
    .poll true 8, .release false, .wake false, .cleanup false]

/-- The waiter is cancelled after the clean-up. -/
def cancelled : List (FlightStep Bool Unit Nat) :=
  handover ++ [.leave false, .cancel true, .leave true]

/-- The waiter takes the gate and cleans up before the first guard has let go of its reference. -/
def overlapping : List (FlightStep Bool Unit Nat) :=
  handover ++ [.poll true 8, .guard true, .release true, .cleanup true, .leave true, .leave false]

/-- In both runs every task is through, and the entry of the key is still there. -/
theorem entry_left_behind :
    ((run numbered new cancelled).map () = some 0 ∧
        ∀ i, (run numbered new cancelled).flight i = .idle) ∧
      (run numbered new overlapping).map () = some 0 ∧
        ∀ i, (run numbered new overlapping).flight i = .idle := by
  decide

end SingleFlight
end Tierstore
