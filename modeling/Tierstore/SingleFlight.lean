import Tierstore.Lib.Semaphore

/-! The single-flight gates of a cache: every critical section of `acquire` and of a guard's
drop is one atomic step, and so is every change of an `Arc`'s count. -/
namespace Tierstore
open Semaphores

structure GateState (W : Type) where
  held : Bool
  wakers : List W

namespace GateState
variable {W T : Type}

def default : GateState W := { held := false, wakers := [] }

/-- Takes the gate if free; otherwise registers `waker` for the release. -/
def tryAcquire (wk : Wakers W T) (s : GateState W) (waker : W) : Bool × GateState W :=
  if s.held then
    if s.wakers.any fun w => wk.willWake w waker then (false, s)
    else (false, { s with wakers := s.wakers ++ [waker] })
  else (true, { s with held := true })

def release (s : GateState W) : List W × GateState W := (s.wakers, { held := false, wakers := [] })

theorem tryAcquire_free (wk : Wakers W T) {s : GateState W} (h : s.held = false) (w : W) :
    s.tryAcquire wk w = (true, { s with held := true }) := by
  simp [tryAcquire, h]

theorem tryAcquire_held (wk : Wakers W T) {s : GateState W} (h : s.held = true) (w : W) :
    s.tryAcquire wk w = (false, { s with wakers := wk.register s.wakers w }) := by
  unfold tryAcquire Wakers.register
  rw [if_pos h]
  split <;> rfl

end GateState

/-- What an `Arc<Gate>` points to, with its strong count. -/
structure Gate (W : Type) where
  state : GateState W
  strong : Nat

/-- Where a task is between the map section of `acquire` and the end of its guard's drop.
A gate is known by its address; `pending` is the waker of the last poll and whether it has
been woken since. -/
inductive Flight (K W : Type) where
  | idle
  | entered (key : K) (gate : Nat)
  | acquiring (key : K) (gate : Nat) (pending : Option (W × Bool))
  | acquired (key : K) (gate : Nat)
  | holding (key : K) (gate : Nat)
  | waking (key : K) (gate : Nat) (left : List W)
  | leaving (gate : Nat)
  deriving DecidableEq

namespace Flight
variable {K W T : Type}

def at? : Flight K W → Option (K × Nat)
  | entered k g | acquiring k g _ | acquired k g | holding k g | waking k g _ => some (k, g)
  | idle | leaving _ => none

def Holds (key : K) : Flight K W → Prop
  | acquired k _ | holding k _ => k = key
  | _ => False

def own : Flight K W → Option Nat
  | idle => none
  | entered _ g | acquiring _ g _ | acquired _ g | holding _ g | waking _ g _ | leaving g => some g

def awaited : Flight K W → Option Nat
  | acquiring _ g _ | acquired _ g => some g
  | _ => none

def rouse [DecidableEq T] (wk : Wakers W T) (t : T) : Flight K W → Flight K W
  | acquiring k g (some (w, false)) => acquiring k g (some (w, decide (wk.task w = t)))
  | f => f

end Flight

structure SingleFlight (ι K W : Type) where
  map : K → Option Nat
  heap : Nat → Gate W
  next : Nat
  flight : ι → Flight K W

inductive FlightStep (ι K W : Type) where
  | enter (i : ι) (key : K)
  | await (i : ι)
  | poll (i : ι) (waker : W)
  | guard (i : ι)
  | cancel (i : ι)
  | release (i : ι)
  | wake (i : ι)
  | cleanup (i : ι)
  | leave (i : ι)
  deriving DecidableEq

namespace SingleFlight
variable {ι K W T : Type}

def new : SingleFlight ι K W where
  map _ := none
  heap _ := { state := .default, strong := 0 }
  next := 0
  flight _ := .idle

section Heap
variable (heap : Nat → Gate W) (g : Nat)

def setState (st : GateState W) : Nat → Gate W :=
  Function.update heap g { heap g with state := st }

def cloneArc : Nat → Gate W :=
  Function.update heap g { heap g with strong := (heap g).strong + 1 }

def dropArc : Nat → Gate W :=
  Function.update heap g { heap g with strong := (heap g).strong - 1 }

end Heap

variable [DecidableEq ι] [DecidableEq K] [DecidableEq T] (wk : Wakers W T)

def goes (s : SingleFlight ι K W) (i : ι) (f : Flight K W) : ι → Flight K W :=
  Function.update s.flight i f

/-- The map section of `acquire`. -/
def enter (s : SingleFlight ι K W) (i : ι) (key : K) : SingleFlight ι K W :=
  match s.map key with
  | some g => { s with heap := cloneArc s.heap g, flight := s.goes i (.entered key g) }
  | none =>
    { map := Function.update s.map key (some s.next)
      heap := Function.update s.heap s.next { state := .default, strong := 2 }
      next := s.next + 1
      flight := s.goes i (.entered key s.next) }

/-- The gate section of a poll. -/
def poll (s : SingleFlight ι K W) (i : ι) (key : K) (g : Nat) (waker : W) : SingleFlight ι K W :=
  let out := (s.heap g).state.tryAcquire wk waker
  { s with heap := setState s.heap g out.2
           flight := s.goes i
             (if out.1 then .acquired key g else .acquiring key g (some (waker, false))) }

/-- The gate section of a guard's drop. -/
def release (s : SingleFlight ι K W) (i : ι) (key : K) (g : Nat) : SingleFlight ι K W :=
  let out := (s.heap g).state.release
  { s with heap := setState s.heap g out.2, flight := s.goes i (.waking key g out.1) }

def wake (s : SingleFlight ι K W) (i : ι) (key : K) (g : Nat) (waker : W) (left : List W) :
    SingleFlight ι K W :=
  { s with flight := Function.update (fun j => (s.flight j).rouse wk (wk.task waker)) i
                       (.waking key g left) }

/-- The map section of a guard's drop: the entry goes if the map and this guard appear to be
the only holders. -/
def cleanup (s : SingleFlight ι K W) (i : ι) (key : K) (g : Nat) : SingleFlight ι K W :=
  if s.map key = some g ∧ (s.heap g).strong = 2 then
    { s with map := Function.update s.map key none, heap := dropArc s.heap g,
             flight := s.goes i (.leaving g) }
  else { s with flight := s.goes i (.leaving g) }

/-- A step that is not the task's next one changes nothing. -/
def step (s : SingleFlight ι K W) : FlightStep ι K W → SingleFlight ι K W
  | .enter i key =>
    match s.flight i with
    | .idle => s.enter i key
    | _ => s
  | .await i =>
    match s.flight i with
    | .entered key g =>
      { s with heap := cloneArc s.heap g, flight := s.goes i (.acquiring key g none) }
    | _ => s
  | .poll i waker =>
    match s.flight i with
    | .acquiring key g _ => s.poll wk i key g waker
    | _ => s
  | .guard i =>
    match s.flight i with
    | .acquired key g => { s with heap := dropArc s.heap g, flight := s.goes i (.holding key g) }
    | _ => s
  | .cancel i =>
    match s.flight i with
    | .acquiring _ g (some _) =>
      { s with heap := dropArc s.heap g, flight := s.goes i (.leaving g) }
    | _ => s
  | .release i =>
    match s.flight i with
    | .holding key g => s.release i key g
    | _ => s
  | .wake i =>
    match s.flight i with
    | .waking key g (w :: left) => s.wake wk i key g w left
    | _ => s
  | .cleanup i =>
    match s.flight i with
    | .waking key g [] => s.cleanup i key g
    | _ => s
  | .leave i =>
    match s.flight i with
    | .leaving g => { s with heap := dropArc s.heap g, flight := s.goes i .idle }
    | _ => s

def run (s : SingleFlight ι K W) (steps : List (FlightStep ι K W)) : SingleFlight ι K W :=
  steps.foldl (step wk) s

/-! ## What a step can do -/

inductive Moves (s : SingleFlight ι K W) : SingleFlight ι K W → Prop where
  | attach (i : ι) (key : K) (g : Nat) : s.flight i = .idle → s.map key = some g →
      Moves s { s with heap := cloneArc s.heap g, flight := s.goes i (.entered key g) }
  | create (i : ι) (key : K) : s.flight i = .idle → s.map key = none →
      Moves s { map := Function.update s.map key (some s.next)
                heap := Function.update s.heap s.next { state := .default, strong := 2 }
                next := s.next + 1
                flight := s.goes i (.entered key s.next) }
  | await (i : ι) (key : K) (g : Nat) : s.flight i = .entered key g →
      Moves s { s with heap := cloneArc s.heap g, flight := s.goes i (.acquiring key g none) }
  | take (i : ι) (key : K) (g : Nat) (pending : Option (W × Bool)) :
      s.flight i = .acquiring key g pending → (s.heap g).state.held = false →
      Moves s { s with heap := setState s.heap g { (s.heap g).state with held := true },
                       flight := s.goes i (.acquired key g) }
  | wait (i : ι) (key : K) (g : Nat) (pending : Option (W × Bool)) (w : W) :
      s.flight i = .acquiring key g pending → (s.heap g).state.held = true →
      Moves s { s with
        heap := setState s.heap g
          { (s.heap g).state with wakers := wk.register (s.heap g).state.wakers w },
        flight := s.goes i (.acquiring key g (some (w, false))) }
  | guard (i : ι) (key : K) (g : Nat) : s.flight i = .acquired key g →
      Moves s { s with heap := dropArc s.heap g, flight := s.goes i (.holding key g) }
  | cancel (i : ι) (key : K) (g : Nat) (pending : W × Bool) :
      s.flight i = .acquiring key g (some pending) →
      Moves s { s with heap := dropArc s.heap g, flight := s.goes i (.leaving g) }
  | release (i : ι) (key : K) (g : Nat) : s.flight i = .holding key g →
      Moves s (s.release i key g)
  | wake (i : ι) (key : K) (g : Nat) (w : W) (left : List W) :
      s.flight i = .waking key g (w :: left) → Moves s (s.wake wk i key g w left)
  | remove (i : ι) (key : K) (g : Nat) : s.flight i = .waking key g [] →
      s.map key = some g → (s.heap g).strong = 2 →
      Moves s { s with map := Function.update s.map key none, heap := dropArc s.heap g,
                       flight := s.goes i (.leaving g) }
  | keep (i : ι) (key : K) (g : Nat) : s.flight i = .waking key g [] →
      Moves s { s with flight := s.goes i (.leaving g) }
  | leave (i : ι) (g : Nat) : s.flight i = .leaving g →
      Moves s { s with heap := dropArc s.heap g, flight := s.goes i .idle }

theorem step_moves (s : SingleFlight ι K W) (a : FlightStep ι K W) :
    step wk s a = s ∨ Moves wk s (step wk s a) := by
  cases a with
  | enter i key =>
    simp only [step]
    split
    · next hi =>
      right
      unfold enter
      split
      · next g hg => exact .attach i key g hi hg
      · next hnone => exact .create i key hi hnone
    · exact Or.inl rfl
  | await i =>
    simp only [step]
    split
    · next key g hi => exact Or.inr (.await i key g hi)
    · exact Or.inl rfl
  | poll i w =>
    simp only [step]
    split
    · next key g pending hi =>
      right
      cases hheld : (s.heap g).state.held with
      | false =>
        simp only [poll, GateState.tryAcquire_free wk hheld, if_true]
        exact .take i key g pending hi hheld
      | true =>
        simp only [poll, GateState.tryAcquire_held wk hheld]
        exact .wait i key g pending w hi hheld
    · exact Or.inl rfl
  | guard i =>
    simp only [step]
    split
    · next key g hi => exact Or.inr (.guard i key g hi)
    · exact Or.inl rfl
  | cancel i =>
    simp only [step]
    split
    · next key g pending hi => exact Or.inr (.cancel i key g pending hi)
    · exact Or.inl rfl
  | release i =>
    simp only [step]
    split
    · next key g hi => exact Or.inr (.release i key g hi)
    · exact Or.inl rfl
  | wake i =>
    simp only [step]
    split
    · next key g w left hi => exact Or.inr (.wake i key g w left hi)
    · exact Or.inl rfl
  | cleanup i =>
    simp only [step]
    split
    · next key g hi =>
      right
      unfold cleanup
      split
      · next hlast => exact .remove i key g hi hlast.1 hlast.2
      · exact .keep i key g hi
    · exact Or.inl rfl
  | leave i =>
    simp only [step]
    split
    · next g hi => exact Or.inr (.leave i g hi)
    · exact Or.inl rfl

end SingleFlight
end Tierstore
