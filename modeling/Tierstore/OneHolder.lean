import Tierstore.Lib.Runs
import Tierstore.SingleFlight

/-! The single-flight gates admit one holder for each key and lose no wakeup. -/
namespace Tierstore
open Semaphores

inductive Handle (ι K : Type) where
  | inMap (key : K)
  | own (i : ι)
  | awaited (i : ι)
  deriving DecidableEq

def Flight.stageAt {K W : Type} (g : Nat) : Flight K W → Stage W
  | acquiring _ g' (some (w, false)) => if g' = g then .asleep w else .awake
  | acquired _ g' | holding _ g' => if g' = g then .holds else .awake
  | waking _ g' left => if g' = g then .wakes left else .awake
  | _ => .awake

section StageAt
variable {K W : Type} (key : K) (g' g : Nat)

@[simp] theorem stageAt_acquiring (w : W) :
    (Flight.acquiring key g' (some (w, false))).stageAt g =
      if g' = g then .asleep w else .awake := rfl

@[simp] theorem stageAt_woken (w : W) :
    (Flight.acquiring key g' (some (w, true))).stageAt g = .awake := rfl

@[simp] theorem stageAt_acquired :
    (Flight.acquired key g' : Flight K W).stageAt g = if g' = g then .holds else .awake := rfl

@[simp] theorem stageAt_holding :
    (Flight.holding key g' : Flight K W).stageAt g = if g' = g then .holds else .awake := rfl

@[simp] theorem stageAt_waking (left : List W) :
    (Flight.waking key g' left).stageAt g = if g' = g then .wakes left else .awake := rfl

end StageAt

namespace SingleFlight
variable {ι K W T : Type}

def refers (map : K → Option Nat) (flight : ι → Flight K W) : Handle ι K → Option Nat
  | .inMap key => map key
  | .own i => (flight i).own
  | .awaited i => (flight i).awaited

def hall (s : SingleFlight ι K W) (g : Nat) : Hall ι W where
  free := if (s.heap g).state.held then 0 else 1
  registered := (s.heap g).state.wakers
  stage i := (s.flight i).stageAt g

@[simp] theorem stage_hall (s : SingleFlight ι K W) (g : Nat) (i : ι) :
    (s.hall g).stage i = (s.flight i).stageAt g := rfl

@[simp] theorem registered_hall (s : SingleFlight ι K W) (g : Nat) :
    (s.hall g).registered = (s.heap g).state.wakers := rfl

def Counted (f : Handle ι K → Option Nat) (heap : Nat → Gate W) : Prop :=
  ∀ g, (fiber f (some g)).encard = (heap g).strong

structure Kept (wk : Wakers W T) (s : SingleFlight ι K W) : Prop where
  counted : Counted (refers s.map s.flight) s.heap
  unborn : ∀ g, s.next ≤ g → s.heap g = { state := .default, strong := 0 }
  current : ∀ i key g, (s.flight i).at? = some (key, g) → s.map key = some g
  sound : ∀ g, (s.hall g).Sound wk 1

/-! ## Strong counts -/
section Counts
variable [DecidableEq ι] [DecidableEq K] {map : K → Option Nat} {flight : ι → Flight K W}

theorem refers_goes_own {i : ι} {f : Flight K W} (h : f.awaited = (flight i).awaited) :
    refers map (Function.update flight i f) =
      Function.update (refers map flight) (.own i) f.own := by
  funext r
  cases r with
  | inMap key => rfl
  | own j => by_cases hj : j = i <;> simp [refers, hj]
  | awaited j => by_cases hj : j = i <;> simp [refers, hj, h]

theorem refers_goes_awaited {i : ι} {f : Flight K W} (h : f.own = (flight i).own) :
    refers map (Function.update flight i f) =
      Function.update (refers map flight) (.awaited i) f.awaited := by
  funext r
  cases r with
  | inMap key => rfl
  | own j => by_cases hj : j = i <;> simp [refers, hj, h]
  | awaited j => by_cases hj : j = i <;> simp [refers, hj]

omit [DecidableEq ι] [DecidableEq K] in
theorem refers_congr {flight' : ι → Flight K W} (hown : ∀ j, (flight' j).own = (flight j).own)
    (hawaited : ∀ j, (flight' j).awaited = (flight j).awaited) :
    refers map flight' = refers map flight := by
  funext r
  cases r with
  | inMap key => rfl
  | own j => exact hown j
  | awaited j => exact hawaited j

theorem refers_goes {i : ι} {f : Flight K W} (hown : f.own = (flight i).own)
    (hawaited : f.awaited = (flight i).awaited) :
    refers map (Function.update flight i f) = refers map flight := by
  rw [refers_goes_own hawaited, Function.update_eq_self_iff]
  exact hown

theorem refers_remap (key : K) (g : Option Nat) :
    refers (Function.update map key g) flight =
      Function.update (refers map flight) (.inMap key) g := by
  funext r
  cases r with
  | inMap x => by_cases hx : x = key <;> simp [refers, hx]
  | own j => rfl
  | awaited j => rfl

variable {f : Handle ι K → Option Nat} {heap : Nat → Gate W} {r : Handle ι K} {g : Nat}

omit [DecidableEq ι] [DecidableEq K] in
theorem Counted.setState (h : Counted f heap) (g : Nat) (st : GateState W) :
    Counted f (setState heap g st) := by
  intro g'
  rw [h g']
  by_cases hg : g' = g <;> simp [SingleFlight.setState, hg]

theorem Counted.clone (h : Counted f heap) (hr : f r = none) :
    Counted (Function.update f r (some g)) (cloneArc heap g) := by
  intro g'
  by_cases hg : g' = g
  · subst hg
    rw [encard_fiber_gain (by simp [hr]), h g']
    simp [cloneArc]
  · rw [fiber_update (by simp [hr]) (by simpa using Ne.symm hg), h g']
    simp [cloneArc, hg]

theorem Counted.drop (h : Counted f heap) (hr : f r = some g) :
    Counted (Function.update f r none) (dropArc heap g) := by
  intro g'
  by_cases hg : g' = g
  · subst hg
    have hloss := encard_fiber_loss (b := none) hr (by simp)
    have hpos : (heap g').strong ≠ 0 := by
      intro hzero
      rw [h g', hzero] at hloss
      simp at hloss
    obtain ⟨n, hn⟩ := Nat.exists_eq_succ_of_ne_zero hpos
    rw [h g', hn, Nat.cast_succ] at hloss
    simpa [dropArc, hn] using hloss
  · rw [fiber_update (by simpa [hr] using Ne.symm hg) (by simp), h g']
    simp [dropArc, hg]

theorem Counted.create (h : Counted f heap) (hg : (heap g).strong = 0) {r' : Handle ι K}
    (hr : f r = none) (hr' : f r' = none) (hne : r' ≠ r) (st : GateState W) :
    Counted (Function.update (Function.update f r (some g)) r' (some g))
      (Function.update heap g { state := st, strong := 2 }) := by
  have htwice : Counted (Function.update (Function.update f r (some g)) r' (some g))
      (cloneArc (cloneArc heap g) g) := by
    refine (h.clone hr).clone ?_
    rw [Function.update_of_ne hne, hr']
  intro g'
  rw [htwice g']
  by_cases hgg : g' = g <;> simp [cloneArc, hgg, hg]

omit [DecidableEq ι] [DecidableEq K] in
/-- Whoever refers to a gate counts in its strong count. -/
theorem Counted.pos (h : Counted f heap) (hr : f r = some g) : 0 < (heap g).strong := by
  have hmem : (fiber f (some g)).encard ≠ 0 := Set.encard_ne_zero_of_mem (a := r) hr
  rw [h g] at hmem
  exact Nat.pos_of_ne_zero (by simpa using hmem)

omit [DecidableEq ι] [DecidableEq K] in
/-- With a strong count of two, two handles are all there are. -/
theorem Counted.only_two (h : Counted f heap) (hg : (heap g).strong = 2) {p q : Handle ι K}
    (hp : f p = some g) (hq : f q = some g) (hne : p ≠ q) {r : Handle ι K}
    (hr : f r = some g) : r = p ∨ r = q := by
  have hcard := h g
  rw [hg] at hcard
  obtain ⟨x, y, -, hxy⟩ := Set.encard_eq_two.1 hcard
  have hin : ∀ {a}, f a = some g → a = x ∨ a = y := by
    intro a ha
    have hmem : a ∈ fiber f (some g) := ha
    rw [hxy] at hmem
    exact hmem
  obtain rfl | rfl := hin hp <;> obtain rfl | rfl := hin hq <;> obtain rfl | rfl := hin hr <;>
    simp_all

end Counts

/-! ## Every step keeps the invariant -/
section Moves
variable [DecidableEq ι] [DecidableEq K] [DecidableEq T] {wk : Wakers W T}
  {s s' : SingleFlight ι K W}

omit [DecidableEq ι] [DecidableEq K] in
theorem own_rouse (f : Flight K W) (t : T) : (f.rouse wk t).own = f.own := by
  unfold Flight.rouse
  split <;> rfl

omit [DecidableEq ι] [DecidableEq K] in
theorem awaited_rouse (f : Flight K W) (t : T) : (f.rouse wk t).awaited = f.awaited := by
  unfold Flight.rouse
  split <;> rfl

omit [DecidableEq ι] [DecidableEq K] in
theorem at_rouse (f : Flight K W) (t : T) : (f.rouse wk t).at? = f.at? := by
  unfold Flight.rouse
  split <;> rfl

omit [DecidableEq ι] [DecidableEq K] in
theorem own_of_at {f : Flight K W} {key : K} {g : Nat} (h : f.at? = some (key, g)) :
    f.own = some g := by
  cases f <;> simp_all [Flight.at?, Flight.own]

theorem counted_moves (hs : s.Kept wk) (hmove : Moves wk s s') :
    Counted (refers s'.map s'.flight) s'.heap := by
  have hcount := hs.counted
  cases hmove with
  | attach i key g hi hkey =>
    rw [goes, refers_goes_own (by rw [hi]; rfl)]
    exact hcount.clone (by simp [refers, hi, Flight.own])
  | create i key hi hkey =>
    have hzero : (s.heap s.next).strong = 0 := by rw [hs.unborn s.next le_rfl]
    rw [goes, refers_goes_own (by rw [hi]; rfl), refers_remap]
    exact hcount.create hzero (r := .inMap key) hkey (by simp [refers, hi, Flight.own]) (by simp)
      .default
  | await i key g hi =>
    rw [goes, refers_goes_awaited (by rw [hi]; rfl)]
    exact hcount.clone (by simp [refers, hi, Flight.awaited])
  | take i key g pending hi hheld =>
    rw [goes, refers_goes (by rw [hi]; rfl) (by rw [hi]; rfl)]
    exact hcount.setState g _
  | wait i key g pending w hi hheld =>
    rw [goes, refers_goes (by rw [hi]; rfl) (by rw [hi]; rfl)]
    exact hcount.setState g _
  | guard i key g hi =>
    rw [goes, refers_goes_awaited (by rw [hi]; rfl)]
    exact hcount.drop (by simp [refers, hi, Flight.awaited])
  | cancel i key g pending hi =>
    rw [goes, refers_goes_awaited (by rw [hi]; rfl)]
    exact hcount.drop (by simp [refers, hi, Flight.awaited])
  | release i key g hi =>
    rw [release, goes, refers_goes (by rw [hi]; rfl) (by rw [hi]; rfl)]
    exact hcount.setState g _
  | wake i key g w left hi =>
    rw [wake, refers_goes (by rw [own_rouse, hi]; rfl) (by rw [awaited_rouse, hi]; rfl),
      refers_congr (fun j => own_rouse _ _) (fun j => awaited_rouse _ _)]
    exact hcount
  | remove i key g hi hkey hstrong =>
    rw [goes, refers_goes (by rw [hi]; rfl) (by rw [hi]; rfl), refers_remap]
    exact hcount.drop hkey
  | keep i key g hi =>
    rw [goes, refers_goes (by rw [hi]; rfl) (by rw [hi]; rfl)]
    exact hcount
  | leave i g hi =>
    rw [goes, refers_goes_own (by rw [hi]; rfl)]
    exact hcount.drop (by simp [refers, hi, Flight.own])

omit [DecidableEq ι] [DecidableEq K] [DecidableEq T] in
/-- A gate somebody refers to has been made. -/
theorem Kept.lt_next (hs : s.Kept wk) {r : Handle ι K} {g : Nat}
    (hr : refers s.map s.flight r = some g) : g < s.next := by
  by_contra hlt
  have hpos := hs.counted.pos hr
  rw [hs.unborn g (Nat.le_of_not_lt hlt)] at hpos
  cases hpos

omit [DecidableEq ι] [DecidableEq K] [DecidableEq T] in
theorem Kept.unborn_update (hs : s.Kept wk) {r : Handle ι K} {g : Nat}
    (hr : refers s.map s.flight r = some g) (gate : Gate W) {g' : Nat} (hg' : s.next ≤ g') :
    Function.update s.heap g gate g' = { state := .default, strong := 0 } := by
  have hlt := hs.lt_next hr
  rw [Function.update_of_ne (by omega)]
  exact hs.unborn g' hg'

theorem unborn_moves (hs : s.Kept wk) (hmove : Moves wk s s') (g' : Nat) (hg' : s'.next ≤ g') :
    s'.heap g' = { state := .default, strong := 0 } := by
  have hown : ∀ {i f g}, s.flight i = f → f.own = some g →
      refers s.map s.flight (.own i) = some g := by
    rintro i f g rfl hf
    exact hf
  cases hmove with
  | attach i key g hi hkey => exact hs.unborn_update (r := .inMap key) hkey _ hg'
  | create i key hi hkey =>
    have hlt : s.next < g' := hg'
    exact (Function.update_of_ne hlt.ne' _ _).trans (hs.unborn g' hlt.le)
  | await i key g hi => exact hs.unborn_update (hown hi rfl) _ hg'
  | take i key g pending hi hheld => exact hs.unborn_update (hown hi rfl) _ hg'
  | wait i key g pending w hi hheld => exact hs.unborn_update (hown hi rfl) _ hg'
  | guard i key g hi => exact hs.unborn_update (hown hi rfl) _ hg'
  | cancel i key g pending hi => exact hs.unborn_update (hown hi rfl) _ hg'
  | release i key g hi => exact hs.unborn_update (hown hi rfl) _ hg'
  | wake i key g w left hi => exact hs.unborn g' hg'
  | remove i key g hi hkey hstrong => exact hs.unborn_update (hown hi rfl) _ hg'
  | keep i key g hi => exact hs.unborn g' hg'
  | leave i g hi => exact hs.unborn_update (hown hi rfl) _ hg'

omit [DecidableEq K] [DecidableEq T] in
/-- A task at a gate is at the gate of its key, as long as only its own gate changes and the
map does not. -/
theorem Kept.current_goes (hs : s.Kept wk) {i : ι} {f : Flight K W}
    (hf : f.at? = none ∨ f.at? = (s.flight i).at?) {j : ι} {key : K} {g : Nat}
    (hj : (s.goes i f j).at? = some (key, g)) : s.map key = some g := by
  by_cases hji : j = i
  · subst hji
    rw [goes, Function.update_self] at hj
    obtain hnone | hsame := hf
    · rw [hnone] at hj
      cases hj
    · exact hs.current j key g (hsame ▸ hj)
  · rw [goes, Function.update_of_ne hji] at hj
    exact hs.current j key g hj

theorem current_moves (hs : s.Kept wk) (hmove : Moves wk s s') (j : ι) (key' : K) (g' : Nat)
    (hj : (s'.flight j).at? = some (key', g')) : s'.map key' = some g' := by
  cases hmove with
  | attach i key g hi hkey =>
    by_cases hji : j = i
    · subst hji
      simp only [goes, Function.update_self, Flight.at?, Option.some.injEq, Prod.mk.injEq] at hj
      rw [← hj.1, ← hj.2]
      exact hkey
    · simp only [goes, Function.update_of_ne hji] at hj
      exact hs.current j key' g' hj
  | create i key hi hkey =>
    by_cases hji : j = i
    · subst hji
      simp only [goes, Function.update_self, Flight.at?, Option.some.injEq, Prod.mk.injEq] at hj
      rw [← hj.1, ← hj.2]
      exact Function.update_self ..
    · simp only [goes, Function.update_of_ne hji] at hj
      have hold := hs.current j key' g' hj
      have hne : key' ≠ key := by
        rintro rfl
        rw [hkey] at hold
        cases hold
      exact (Function.update_of_ne hne _ _).trans hold
  | await i key g hi => exact hs.current_goes (Or.inr (by rw [hi]; rfl)) hj
  | take i key g pending hi hheld => exact hs.current_goes (Or.inr (by rw [hi]; rfl)) hj
  | wait i key g pending w hi hheld => exact hs.current_goes (Or.inr (by rw [hi]; rfl)) hj
  | guard i key g hi => exact hs.current_goes (Or.inr (by rw [hi]; rfl)) hj
  | cancel i key g pending hi => exact hs.current_goes (Or.inl rfl) hj
  | release i key g hi => exact hs.current_goes (Or.inr (by rw [hi]; rfl)) hj
  | wake i key g w left hi =>
    refine hs.current j key' g' ?_
    by_cases hji : j = i
    · subst hji
      simpa [wake, Flight.at?, hi] using hj
    · simpa [wake, Function.update_of_ne hji, at_rouse] using hj
  | remove i key g hi hkey hstrong =>
    have hold : s.map key' = some g' := hs.current_goes (Or.inl rfl) hj
    have hji : j ≠ i := by
      rintro rfl
      simp [goes, Flight.at?] at hj
    simp only [goes, Function.update_of_ne hji] at hj
    have hne : key' ≠ key := by
      rintro rfl
      -- the map and the guard hold the only two handles, so nobody else is at the gate
      obtain rfl : g = g' := Option.some.inj (hkey.symm.trans hold)
      have honly := hs.counted.only_two hstrong (p := .inMap key') (q := .own i) (r := .own j)
        hkey (by simp [refers, hi, Flight.own]) (by simp) (own_of_at hj)
      simp [hji] at honly
    exact (Function.update_of_ne hne _ _).trans hold
  | keep i key g hi => exact hs.current_goes (Or.inl rfl) hj
  | leave i g hi => exact hs.current_goes (Or.inl rfl) hj

omit [DecidableEq K] in
theorem stageAt_rouse (f : Flight K W) (t : T) (g : Nat) :
    (f.rouse wk t).stageAt g = wk.rouse t (f.stageAt g) := by
  cases f with
  | idle => rfl
  | entered key g' => rfl
  | acquiring key g' pending =>
    obtain _ | ⟨w, woken⟩ := pending
    · rfl
    · cases woken with
      | true => rfl
      | false =>
        by_cases hg : g' = g <;> by_cases ht : wk.task w = t <;>
          simp [Flight.rouse, Wakers.rouse, hg, ht]
  | acquired key g' => by_cases hg : g' = g <;> simp [Flight.rouse, Wakers.rouse, hg]
  | holding key g' => by_cases hg : g' = g <;> simp [Flight.rouse, Wakers.rouse, hg]
  | waking key g' left =>
    by_cases hg : g' = g <;> simp [Flight.rouse, Wakers.rouse, hg]
  | leaving g' => rfl

omit [DecidableEq ι] [DecidableEq K] [DecidableEq T] in
theorem hall_stage {g : Nat} {stage : ι → Stage W}
    (hstate : (s'.heap g).state = (s.heap g).state)
    (hstage : ∀ j, (s'.flight j).stageAt g = stage j) :
    s'.hall g = { s.hall g with stage } := by
  unfold hall
  rw [hstate, funext hstage]

omit [DecidableEq K] [DecidableEq T] in
theorem hall_goes {i : ι} {f : Flight K W} {g : Nat}
    (hstate : (s'.heap g).state = (s.heap g).state) (hflight : s'.flight = s.goes i f) :
    s'.hall g = { s.hall g with stage := Function.update (s.hall g).stage i (f.stageAt g) } := by
  refine hall_stage hstate fun j => ?_
  rw [hflight]
  by_cases hj : j = i <;> simp [goes, hj]

theorem state_cloneArc (heap : Nat → Gate W) (g g' : Nat) :
    (cloneArc heap g g').state = (heap g').state := by
  by_cases hg : g' = g <;> simp [cloneArc, hg]

theorem state_dropArc (heap : Nat → Gate W) (g g' : Nat) :
    (dropArc heap g g').state = (heap g').state := by
  by_cases hg : g' = g <;> simp [dropArc, hg]

theorem state_setState (heap : Nat → Gate W) {g g' : Nat} (st : GateState W) (hg : g' ≠ g) :
    (setState heap g st g').state = (heap g').state := by
  simp [setState, hg]

omit [DecidableEq K] in
/-- A task that neither holds the gate nor wakes its waiters goes where it does neither. -/
theorem hall_rise {i : ι} {f : Flight K W} {g : Nat}
    (hstate : (s'.heap g).state = (s.heap g).state) (hflight : s'.flight = s.goes i f)
    (hidle : (s.hall g).Idle i) (hf : f.stageAt g = .awake) :
    Hall.Step wk (s.hall g) (s'.hall g) := by
  rw [hall_goes hstate hflight, hf]
  exact .rise i hidle

omit [DecidableEq ι] [DecidableEq K] [DecidableEq T] in
theorem idle_acquiring {i : ι} {key : K} {g : Nat} {pending : Option (W × Bool)}
    (hi : s.flight i = .acquiring key g pending) (g' : Nat) : (s.hall g').Idle i := by
  have hstage : (s.hall g').stage i = (Flight.acquiring key g pending).stageAt g' := by
    rw [← hi]
    rfl
  unfold Hall.Idle
  rw [hstage]
  obtain _ | ⟨w, woken⟩ := pending
  · exact Or.inl rfl
  · cases woken with
    | true => exact Or.inl rfl
    | false =>
      by_cases hg : g = g'
      · exact Or.inr ⟨w, by simp [hg]⟩
      · exact Or.inl (by simp [hg])

omit [DecidableEq K] [DecidableEq T] in
theorem hall_setState (i : ι) (f : Flight K W) (g : Nat) (st : GateState W) :
    hall { s with heap := setState s.heap g st, flight := s.goes i f } g =
      { free := if st.held then 0 else 1, registered := st.wakers,
        stage := Function.update (s.hall g).stage i (f.stageAt g) } := by
  have hstage : (fun j => (s.goes i f j).stageAt g) =
      Function.update (s.hall g).stage i (f.stageAt g) := by
    funext j
    by_cases hj : j = i <;> simp [goes, hj]
  rw [hall, hstage]
  simp [setState]

omit [DecidableEq K] in
/-- A drop that has woken everybody leaves. -/
theorem hall_leave {i : ι} {key : K} {g g' : Nat} (hi : s.flight i = .waking key g [])
    (hstate : (s'.heap g').state = (s.heap g').state)
    (hflight : s'.flight = s.goes i (.leaving g)) :
    Hall.Step wk (s.hall g') (s'.hall g') := by
  rw [hall_goes hstate hflight]
  by_cases hg : g = g'
  · exact .leave i (by simp [hi, hg])
  · exact .rise i (Or.inl (by simp [hi, hg]))

/-- To every gate, a step is a step of a semaphore or nothing at all. -/
theorem hall_moves (hs : s.Kept wk) (hmove : Moves wk s s') (g' : Nat) :
    s'.hall g' = s.hall g' ∨ Hall.Step wk (s.hall g') (s'.hall g') := by
  have hidle : ∀ {i f}, s.flight i = f → f.stageAt g' = .awake → (s.hall g').Idle i := by
    rintro i f rfl hf
    exact Or.inl hf
  cases hmove with
  | attach i key g hi hkey => exact Or.inr (hall_rise (state_cloneArc ..) rfl (hidle hi rfl) rfl)
  | create i key hi hkey =>
    refine Or.inr (hall_rise ?_ rfl (hidle hi rfl) rfl)
    by_cases hg : g' = s.next
    · subst hg
      rw [hs.unborn s.next le_rfl]
      simp
    · simp [hg]
  | await i key g hi => exact Or.inr (hall_rise (state_cloneArc ..) rfl (hidle hi rfl) rfl)
  | take i key g pending hi hheld =>
    right
    by_cases hg : g' = g
    · subst hg
      have hfree : (s.hall g').free = 1 := by simp [hall, hheld]
      have hstep : Hall.Step wk _ _ := .take i (idle_acquiring hi g') (hfree ▸ Nat.one_pos)
      rw [hall_setState]
      simpa [hfree] using hstep
    · exact hall_rise (state_setState _ _ hg) rfl (idle_acquiring hi g')
        (by simp [Ne.symm hg])
  | wait i key g pending w hi hheld =>
    right
    by_cases hg : g' = g
    · subst hg
      have hfree : (s.hall g').free = 0 := by simp [hall, hheld]
      have hstep : Hall.Step wk _ _ := .wait i w (idle_acquiring hi g') hfree
      rw [hall_setState]
      simpa [hfree, hheld] using hstep
    · exact hall_rise (state_setState _ _ hg) rfl (idle_acquiring hi g')
        (by simp [Ne.symm hg])
  | guard i key g hi =>
    left
    rw [hall_goes (state_dropArc ..) rfl]
    have hsame : (Flight.holding key g : Flight K W).stageAt g' = (s.hall g').stage i := by
      simp [hi]
    rw [Function.update_eq_self_iff.2 hsame]
  | cancel i key g pending hi =>
    exact Or.inr (hall_rise (state_dropArc ..) rfl (idle_acquiring hi g') rfl)
  | release i key g hi =>
    right
    by_cases hg : g' = g
    · subst hg
      have hholds : (s.hall g').stage i = .holds := by simp [hi]
      have hfree : (s.hall g').free = 0 := Nat.lt_one_iff.1 ((hs.sound g').free_lt hholds)
      have hstep : Hall.Step wk _ _ := .release i hholds
      rw [hfree] at hstep
      rw [release, hall_setState]
      simpa [GateState.release] using hstep
    · exact hall_rise (state_setState _ _ hg) rfl
        (Or.inl (by simp [hi, Ne.symm hg]))
        (by simp [Ne.symm hg])
  | wake i key g w left hi =>
    right
    by_cases hg : g = g'
    · have hall_wake : (s.wake wk i key g w left).hall g' = { s.hall g' with
          stage := Function.update (fun j => wk.rouse (wk.task w) ((s.hall g').stage j)) i
            (.wakes left) } := by
        refine hall_stage rfl fun j => ?_
        by_cases hj : j = i <;> simp [wake, hj, stageAt_rouse, hg]
      rw [hall_wake]
      exact .wake i w left (by simp [hi, hg])
    · have hall_wake : (s.wake wk i key g w left).hall g' = { s.hall g' with
          stage := fun j => wk.rouse (wk.task w) ((s.hall g').stage j) } := by
        refine hall_stage rfl fun j => ?_
        by_cases hj : j = i <;>
          simp [wake, hj, stageAt_rouse, hg, hi, Wakers.rouse]
      rw [hall_wake]
      exact .rouse (wk.task w)
  | remove i key g hi hkey hstrong => exact Or.inr (hall_leave hi (state_dropArc ..) rfl)
  | keep i key g hi => exact Or.inr (hall_leave hi rfl rfl)
  | leave i g hi => exact Or.inr (hall_rise (state_dropArc ..) rfl (hidle hi rfl) rfl)

theorem Kept.step (hs : s.Kept wk) (a : FlightStep ι K W) : (step wk s a).Kept wk := by
  obtain hsame | hmove := step_moves wk s a
  · rwa [hsame]
  · refine ⟨counted_moves hs hmove, unborn_moves hs hmove, current_moves hs hmove, fun g => ?_⟩
    obtain hsame | hstep := hall_moves hs hmove g
    · rw [hsame]
      exact hs.sound g
    · exact (hs.sound g).step hstep

omit [DecidableEq ι] [DecidableEq K] [DecidableEq T] in
theorem kept_new : (new : SingleFlight ι K W).Kept wk where
  counted g := by
    have hempty : fiber (refers (fun _ : K => none) fun _ : ι => (Flight.idle : Flight K W))
        (some g) = ∅ := by
      ext r
      cases r <;> simp [fiber, refers, Flight.own, Flight.awaited]
    rw [new, hempty]
    simp
  unborn _ _ := rfl
  current i key g h := by cases h
  sound g := Hall.Sound.start wk 1

theorem kept_run (hs : s.Kept wk) (steps : List (FlightStep ι K W)) : (run wk s steps).Kept wk :=
  Runs.keeps (fun _ a h => h.step a) steps hs

end Moves

/-! ## One holder, and no lost wakeup -/

structure AdmitsOne (s : SingleFlight ι K W) : Prop where
  /-- No key has two guards that are not being dropped. -/
  exclusive : ∀ key i j, (s.flight i).Holds key → (s.flight j).Holds key → i = j
  /-- Whoever waits for a key, holds it or is still releasing it is at the gate in the map. -/
  attached : ∀ i key g, (s.flight i).at? = some (key, g) → s.map key = some g
  quiet : ∀ g, (s.heap g).state.held = false → (s.heap g).state.wakers = []
  /-- A task that waits at a free gate has been woken, unless a drop has still to wake some. -/
  woken : ∀ i key g w woken, s.flight i = .acquiring key g (some (w, woken)) →
    (s.heap g).state.held = false →
    (∀ j key' left, s.flight j = .waking key' g left → left = []) → woken = true

theorem holds_at {f : Flight K W} {key : K} (h : f.Holds key) :
    ∃ g, f.at? = some (key, g) ∧ f.stageAt g = .holds := by
  cases f with
  | acquired k g =>
    cases h
    exact ⟨g, rfl, by simp⟩
  | holding k g =>
    cases h
    exact ⟨g, rfl, by simp⟩
  | idle => exact h.elim
  | entered k g => exact h.elim
  | acquiring k g pending => exact h.elim
  | waking k g left => exact h.elim
  | leaving g => exact h.elim

theorem stageAt_wakes {f : Flight K W} {g : Nat} {left : List W} (h : f.stageAt g = .wakes left) :
    ∃ key, f = .waking key g left := by
  unfold Flight.stageAt at h
  split at h <;> try split at h
  all_goals cases h
  next key g' hg => exact ⟨key, by rw [hg]⟩

section Result
variable [DecidableEq ι] [DecidableEq K] [DecidableEq T]

omit [DecidableEq ι] [DecidableEq K] [DecidableEq T] in
theorem Kept.admitsOne {wk : Wakers W T} {s : SingleFlight ι K W} (hs : s.Kept wk) :
    s.AdmitsOne where
  exclusive key i j hi hj := by
    obtain ⟨g, hgi, hholds⟩ := holds_at hi
    obtain ⟨g', hgj, hholds'⟩ := holds_at hj
    obtain rfl : g = g' :=
      Option.some.inj ((hs.current i key g hgi).symm.trans (hs.current j key g' hgj))
    exact (hs.sound g).holder_unique (i := i) (j := j) hholds hholds'
  attached := hs.current
  quiet g hfree := (hs.sound g).quiet (by simp [hall, hfree])
  woken i key g w woken hi hfree hdone := by
    cases woken with
    | true => rfl
    | false =>
      have hasleep : (s.hall g).stage i = .asleep w := by simp [hi]
      obtain ⟨j, left, hj, x, hx, -⟩ := (hs.sound g).waking (by simp [hall, hfree]) hasleep
      obtain ⟨key', hwaking⟩ := stageAt_wakes hj
      rw [hdone j key' left hwaking] at hx
      cases hx

/-- Whatever the tasks do in whatever order, every key has one holder and no wakeup is lost. -/
theorem admitsOne_run (wk : Wakers W T) (steps : List (FlightStep ι K W)) :
    (run wk (new : SingleFlight ι K W) steps).AdmitsOne :=
  (kept_run kept_new steps).admitsOne

end Result

/-- Task 1 waits for the gate task 0 holds, is woken and gets it; the entry stays for it. -/
example :
    let s := run ⟨id, fun a b : Nat => a == b, fun _ _ h => by simpa using h⟩
      (new : SingleFlight Nat Bool Nat)
      [.enter 0 true, .await 0, .poll 0 7, .guard 0, .enter 1 true, .await 1, .poll 1 8,
       .release 0, .wake 0, .cleanup 0, .leave 0, .poll 1 8]
    s.flight 1 = .acquired true 0 ∧ s.map true = some 0 ∧ (s.heap 0).strong = 3 := by
  decide

end SingleFlight
end Tierstore
