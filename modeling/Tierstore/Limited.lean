import Tierstore.Core.Tier
import Tierstore.Lib.Interleave
import Tierstore.Lib.Runs
import Tierstore.Lib.Semaphore
import Tierstore.Memory

/-! The concurrency-limiting tier. Its calls await a permit, then the inner tier's operation;
every section under the semaphore's lock is one atomic step, and so is every wake. -/
namespace Tierstore
open Effects Semaphores

structure SemState (W : Type) where
  available : Nat
  wakers : List W
  deriving DecidableEq

namespace SemState
variable {W T : Type}

def tryAcquire (wk : Wakers W T) (s : SemState W) (waker : W) : Bool × SemState W :=
  if 0 < s.available then (true, { s with available := s.available - 1 })
  else if s.wakers.any fun w => wk.willWake w waker then (false, s)
  else (false, { s with wakers := s.wakers ++ [waker] })

def release (s : SemState W) : List W × SemState W :=
  (s.wakers, { available := s.available + 1, wakers := [] })

theorem tryAcquire_available (wk : Wakers W T) {s : SemState W} (h : 0 < s.available) (w : W) :
    s.tryAcquire wk w = (true, { s with available := s.available - 1 }) := by
  simp [tryAcquire, h]

theorem tryAcquire_empty (wk : Wakers W T) {s : SemState W} (h : s.available = 0) (w : W) :
    s.tryAcquire wk w = (false, { s with wakers := wk.register s.wakers w }) := by
  unfold tryAcquire Wakers.register
  rw [if_neg (by omega)]
  split <;> rfl

end SemState

inductive LimitedCall (K V C : Type) where
  | call (c : TierCall K V)
  | list (cursor : Option C) (limit : Nat)

abbrev LimitedCall.Output (E : Type) {K V C : Type} : LimitedCall K V C → Type
  | .call c => Except E c.Output
  | .list _ _ => Except E (Page K C)

inductive LimitedQuery (K V C : Type) where
  | acquire
  | inner (c : LimitedCall K V C)
  | drop

abbrev LimitedAnswer (K V C E : Type) : LimitedQuery K V C → Type
  | .acquire => Unit
  | .inner c => c.Output E
  | .drop => Unit

abbrev LimitedM (K V C E : Type) := Program (LimitedQuery K V C) (LimitedAnswer K V C E)

namespace LimitedTier
section Calls
variable {K V C E : Type}

/-- The permit is held for the full operation. -/
def admitted (c : LimitedCall K V C) : LimitedM K V C E (c.Output E) := do
  let _ ← Program.ask LimitedQuery.acquire
  let result ← Program.ask (LimitedQuery.inner c)
  let _ ← Program.ask LimitedQuery.drop
  pure result

def get (key : K) : LimitedM K V C E (Except E (Option V)) := admitted (.call (.get key))

def exists_ (key : K) : LimitedM K V C E (Except E Bool) := admitted (.call (.exists_ key))

def getMany (keys : List K) : LimitedM K V C E (Except E (List (Option V))) :=
  admitted (.call (.getMany keys))

def put (key : K) (value : V) : LimitedM K V C E (Except E (Displaced K V)) :=
  admitted (.call (.put key value))

def delete (key : K) : LimitedM K V C E (Except E Bool) := admitted (.call (.delete key))

def putMany (entries : List (K × V)) : LimitedM K V C E (Except E (Displaced K V)) :=
  admitted (.call (.putMany entries))

def deleteMany (keys : List K) : LimitedM K V C E (Except E (List Bool)) :=
  admitted (.call (.deleteMany keys))

def list (cursor : Option C) (limit : Nat) : LimitedM K V C E (Except E (Page K C)) :=
  admitted (.list cursor limit)

def perform : (c : LimitedCall K V C) → LimitedM K V C E (c.Output E)
  | .call (.get key) => get key
  | .call (.exists_ key) => exists_ key
  | .call (.getMany keys) => getMany keys
  | .call (.put key value) => put key value
  | .call (.delete key) => delete key
  | .call (.putMany entries) => putMany entries
  | .call (.deleteMany keys) => deleteMany keys
  | .list cursor limit => list cursor limit

end Calls
end LimitedTier

/-- Where a task is in its call. `permit` says whether it has a live permit, `pending` is the
waker of the last poll of its permit and whether that has been woken since. -/
inductive Errand (K V C E W : Type) where
  | idle
  | runs (c : LimitedCall K V C) (code : LimitedM K V C E (c.Output E)) (permit : Bool)
      (pending : Option (W × Bool))
  /-- The call is gone, its permit is still to be dropped. -/
  | unwinds
  /-- In the drop of the permit, with what the call does next. -/
  | wakes (left : List W) (rest : Option ((c : LimitedCall K V C) × LimitedM K V C E (c.Output E)))

namespace Errand
variable {K V C E W T : Type}

def HasPermit : Errand K V C E W → Prop
  | runs _ _ permit _ => permit = true
  | unwinds => True
  | idle | wakes _ _ => False

def Running : Errand K V C E W → Prop
  | runs _ (.call (.inner _) _) _ _ => True
  | _ => False

def rouse [DecidableEq T] (wk : Wakers W T) (t : T) : Errand K V C E W → Errand K V C E W
  | runs c code permit (some (w, false)) =>
    runs c code permit (some (w, decide (wk.task w = t)))
  | e => e

end Errand

structure LimitedTier (ι K V C E W : Type) where
  permits : SemState W
  task : ι → Errand K V C E W

/-- The atomic steps of the task `i`. The inner tier may answer anything, at any time. -/
inductive LimitedStep (ι K V C E W : Type) where
  | call (i : ι) (c : LimitedCall K V C)
  | poll (i : ι) (waker : W)
  | complete (i : ι) (answers : (c : LimitedCall K V C) → c.Output E)
  | drop (i : ι)
  | cancel (i : ι)
  | unwind (i : ι)
  | wake (i : ι)
  | resume (i : ι)
  | finish (i : ι)

namespace LimitedTier
variable {ι K V C E W T : Type} [DecidableEq ι] [DecidableEq T] (wk : Wakers W T)

omit [DecidableEq ι] in
def new (limit : Nat) : LimitedTier ι K V C E W where
  permits := { available := limit, wakers := [] }
  task _ := .idle

def goes (s : LimitedTier ι K V C E W) (i : ι) (e : Errand K V C E W) : ι → Errand K V C E W :=
  Function.update s.task i e

/-- The call is dropped where it is suspended, or the inner operation panics there. -/
def cancel (s : LimitedTier ι K V C E W) (i : ι) (permit : Bool) : LimitedTier ι K V C E W :=
  { s with task := s.goes i (if permit then .unwinds else .idle) }

def release (s : LimitedTier ι K V C E W) (i : ι)
    (rest : Option ((c : LimitedCall K V C) × LimitedM K V C E (c.Output E))) :
    LimitedTier ι K V C E W :=
  let out := s.permits.release
  { permits := out.2, task := s.goes i (.wakes out.1 rest) }

/-- A step that is not the task's next one changes nothing. -/
def step (s : LimitedTier ι K V C E W) : LimitedStep ι K V C E W → LimitedTier ι K V C E W
  | .call i c =>
    match s.task i with
    | .idle => { s with task := s.goes i (.runs c (perform c) false none) }
    | _ => s
  | .poll i waker =>
    match s.task i with
    | .runs c (.call .acquire next) permit _ =>
      let out := s.permits.tryAcquire wk waker
      { permits := out.2
        task := s.goes i
          (if out.1 then .runs c (next ()) true none
           else .runs c (.call .acquire next) permit (some (waker, false))) }
    | _ => s
  | .complete i answers =>
    match s.task i with
    | .runs c (.call (.inner op) next) permit _ =>
      { s with task := s.goes i (.runs c (next (answers op)) permit none) }
    | _ => s
  | .drop i =>
    match s.task i with
    | .runs c (.call .drop next) true _ => s.release i (some ⟨c, next ()⟩)
    | _ => s
  | .cancel i =>
    match s.task i with
    | .runs _ (.call .acquire _) permit (some _) => s.cancel i permit
    | .runs _ (.call (.inner _) _) permit _ => s.cancel i permit
    | _ => s
  | .unwind i =>
    match s.task i with
    | .unwinds => s.release i none
    | _ => s
  | .wake i =>
    match s.task i with
    | .wakes (w :: left) rest =>
      { s with task := Function.update (fun j => (s.task j).rouse wk (wk.task w)) i
                         (.wakes left rest) }
    | _ => s
  | .resume i =>
    match s.task i with
    | .wakes [] (some ⟨c, code⟩) => { s with task := s.goes i (.runs c code false none) }
    | .wakes [] none => { s with task := s.goes i .idle }
    | _ => s
  | .finish i =>
    match s.task i with
    | .runs _ (.done _) false _ => { s with task := s.goes i .idle }
    | _ => s

def run (s : LimitedTier ι K V C E W) (steps : List (LimitedStep ι K V C E W)) :
    LimitedTier ι K V C E W := steps.foldl (step wk) s

/-! ## What a step can do -/

inductive Moves (s : LimitedTier ι K V C E W) : LimitedTier ι K V C E W → Prop where
  | take (i : ι) (c : LimitedCall K V C) (next : Unit → LimitedM K V C E (c.Output E))
      (permit : Bool) (pending : Option (W × Bool)) :
      s.task i = .runs c (.call .acquire next) permit pending → 0 < s.permits.available →
      Moves s { permits := { s.permits with available := s.permits.available - 1 }
                task := s.goes i (.runs c (next ()) true none) }
  | wait (i : ι) (c : LimitedCall K V C) (next : Unit → LimitedM K V C E (c.Output E))
      (permit : Bool) (pending : Option (W × Bool)) (w : W) :
      s.task i = .runs c (.call .acquire next) permit pending → s.permits.available = 0 →
      Moves s { permits := { s.permits with wakers := wk.register s.permits.wakers w }
                task := s.goes i (.runs c (.call .acquire next) permit (some (w, false))) }
  | complete (i : ι) (c op : LimitedCall K V C)
      (next : op.Output E → LimitedM K V C E (c.Output E)) (permit : Bool)
      (pending : Option (W × Bool)) (answer : op.Output E) :
      s.task i = .runs c (.call (.inner op) next) permit pending →
      Moves s { s with task := s.goes i (.runs c (next answer) permit none) }
  | cancel (i : ι) (c : LimitedCall K V C) (code : LimitedM K V C E (c.Output E))
      (permit : Bool) (pending : Option (W × Bool)) : s.task i = .runs c code permit pending →
      Moves s (s.cancel i permit)
  | drop (i : ι) (c : LimitedCall K V C) (next : Unit → LimitedM K V C E (c.Output E))
      (pending : Option (W × Bool)) : s.task i = .runs c (.call .drop next) true pending →
      Moves s (s.release i (some ⟨c, next ()⟩))
  | unwind (i : ι) : s.task i = .unwinds → Moves s (s.release i none)
  | wake (i : ι) (w : W) (left : List W)
      (rest : Option ((c : LimitedCall K V C) × LimitedM K V C E (c.Output E))) :
      s.task i = .wakes (w :: left) rest →
      Moves s { s with task := Function.update (fun j => (s.task j).rouse wk (wk.task w)) i
                                 (.wakes left rest) }
  | resume (i : ι) (c : LimitedCall K V C) (code : LimitedM K V C E (c.Output E)) :
      s.task i = .wakes [] (some ⟨c, code⟩) →
      Moves s { s with task := s.goes i (.runs c code false none) }
  | gone (i : ι) : s.task i = .wakes [] none → Moves s { s with task := s.goes i .idle }
  | call (i : ι) (c : LimitedCall K V C) : s.task i = .idle →
      Moves s { s with task := s.goes i (.runs c (perform c) false none) }
  | finish (i : ι) (c : LimitedCall K V C) (result : c.Output E)
      (pending : Option (W × Bool)) : s.task i = .runs c (.done result) false pending →
      Moves s { s with task := s.goes i .idle }

theorem step_moves (s : LimitedTier ι K V C E W) (a : LimitedStep ι K V C E W) :
    step wk s a = s ∨ Moves wk s (step wk s a) := by
  cases a with
  | call i c =>
    simp only [step]
    split
    · next hi => exact Or.inr (.call i c hi)
    · exact Or.inl rfl
  | poll i w =>
    simp only [step]
    split
    · next c next permit pending hi =>
      right
      by_cases havailable : 0 < s.permits.available
      · simp only [SemState.tryAcquire_available wk havailable, if_true]
        exact .take i c next permit pending hi havailable
      · have hempty : s.permits.available = 0 := Nat.eq_zero_of_not_pos havailable
        simp only [SemState.tryAcquire_empty wk hempty]
        exact .wait i c next permit pending w hi hempty
    · exact Or.inl rfl
  | complete i answers =>
    simp only [step]
    split
    · next c op next permit pending hi =>
      exact Or.inr (.complete i c op next permit pending (answers op) hi)
    · exact Or.inl rfl
  | drop i =>
    simp only [step]
    split
    · next c next pending hi => exact Or.inr (.drop i c next pending hi)
    · exact Or.inl rfl
  | cancel i =>
    simp only [step]
    split
    · next c next permit pending hi => exact Or.inr (.cancel i c _ permit (some pending) hi)
    · next c op next permit pending hi => exact Or.inr (.cancel i c _ permit pending hi)
    · exact Or.inl rfl
  | unwind i =>
    simp only [step]
    split
    · next hi => exact Or.inr (.unwind i hi)
    · exact Or.inl rfl
  | wake i =>
    simp only [step]
    split
    · next w left rest hi => exact Or.inr (.wake i w left rest hi)
    · exact Or.inl rfl
  | resume i =>
    simp only [step]
    split
    · next c code hi => exact Or.inr (.resume i c code hi)
    · next hi => exact Or.inr (.gone i hi)
    · exact Or.inl rfl
  | finish i =>
    simp only [step]
    split
    · next c result pending hi => exact Or.inr (.finish i c result pending hi)
    · exact Or.inl rfl

end LimitedTier

/-! ## Permits and calls -/
section Orderly
variable {K V C E W T : Type}

/-- The inner tier is called with a permit, which is dropped before the call returns. -/
def Orderly {α : Type} (code : LimitedM K V C E α) (permit : Bool) : Prop :=
  code.Follows
    (fun permit q =>
      match q with
      | .acquire => permit = false
      | .inner _ => permit = true
      | .drop => permit = true)
    (fun _ _ => True)
    (fun permit q _ =>
      match q with
      | .acquire => true
      | .inner _ => permit
      | .drop => false)
    (fun permit _ => permit = false) permit

theorem orderly_admitted (c : LimitedCall K V C) :
    Orderly (LimitedTier.admitted c : LimitedM K V C E _) false :=
  ⟨rfl, fun _ _ => ⟨rfl, fun _ _ => ⟨rfl, fun _ _ => rfl⟩⟩⟩

theorem orderly_perform (c : LimitedCall K V C) :
    Orderly (LimitedTier.perform c : LimitedM K V C E _) false := by
  cases c with
  | list cursor limit => exact orderly_admitted _
  | call c => cases c <;> exact orderly_admitted _

def Errand.Orderly : Errand K V C E W → Prop
  | runs _ code permit _ => Tierstore.Orderly code permit
  | wakes _ (some rest) => Tierstore.Orderly rest.2 false
  | idle | unwinds | wakes _ none => True

def Errand.stageOf : Errand K V C E W → Stage W
  | runs _ _ true _ | unwinds => .holds
  | runs _ _ false (some (w, false)) => .asleep w
  | wakes left _ => .wakes left
  | _ => .awake

namespace Errand

theorem orderly_rouse [DecidableEq T] (wk : Wakers W T) (t : T) {e : Errand K V C E W}
    (h : e.Orderly) : (e.rouse wk t).Orderly := by
  unfold rouse
  split
  · exact h
  · exact h

theorem stageOf_rouse [DecidableEq T] (wk : Wakers W T) (t : T) (e : Errand K V C E W) :
    (e.rouse wk t).stageOf = wk.rouse t e.stageOf := by
  cases e with
  | idle => rfl
  | unwinds => rfl
  | wakes left rest => rfl
  | runs c code permit pending =>
    obtain _ | ⟨w, woken⟩ := pending
    · cases permit <;> rfl
    · cases woken with
      | true => cases permit <;> rfl
      | false =>
        cases permit with
        | true => rfl
        | false => by_cases ht : wk.task w = t <;> simp [rouse, stageOf, Wakers.rouse, ht]

theorem stageOf_holds {e : Errand K V C E W} : e.stageOf = .holds ↔ e.HasPermit := by
  cases e with
  | idle => simp [stageOf, HasPermit]
  | unwinds => simp [stageOf, HasPermit]
  | wakes left rest => simp [stageOf, HasPermit]
  | runs c code permit pending =>
    cases permit with
    | true => simp [stageOf, HasPermit]
    | false =>
      obtain _ | ⟨w, woken⟩ := pending
      · simp [stageOf, HasPermit]
      · cases woken <;> simp [stageOf, HasPermit]

/-- An operation of the inner tier runs with a permit. -/
theorem Orderly.hasPermit {e : Errand K V C E W} (h : e.Orderly) (hrun : e.Running) :
    e.HasPermit := by
  cases e with
  | runs c code permit pending =>
    cases code with
    | done result => exact hrun.elim
    | call q next =>
      cases q with
      | inner op => exact h.1
      | acquire => exact hrun.elim
      | drop => exact hrun.elim
  | idle => exact hrun.elim
  | unwinds => exact hrun.elim
  | wakes left rest => exact hrun.elim

end Errand
end Orderly

namespace LimitedTier
variable {ι K V C E W T : Type}

def hall (s : LimitedTier ι K V C E W) : Hall ι W where
  free := s.permits.available
  registered := s.permits.wakers
  stage i := (s.task i).stageOf

structure Kept (wk : Wakers W T) (limit : Nat) (s : LimitedTier ι K V C E W) : Prop where
  orderly : ∀ i, (s.task i).Orderly
  sound : s.hall.Sound wk limit

section Moves
variable [DecidableEq ι] [DecidableEq T] {wk : Wakers W T} {limit : Nat}
  {s s' : LimitedTier ι K V C E W}

omit [DecidableEq T] in
theorem orderly_goes (h : ∀ i, (s.task i).Orderly) {i : ι} {e : Errand K V C E W}
    (he : e.Orderly) (j : ι) : (s.goes i e j).Orderly := by
  by_cases hj : j = i
  · subst hj
    rwa [goes, Function.update_self]
  · rw [goes, Function.update_of_ne hj]
    exact h j

theorem orderly_moves (h : ∀ i, (s.task i).Orderly) (hmove : Moves wk s s') (j : ι) :
    (s'.task j).Orderly := by
  have hcode : ∀ {i e}, s.task i = e → e.Orderly := by
    rintro i e rfl
    exact h i
  cases hmove with
  | call i c hi => exact orderly_goes h (e := .runs c (perform c) false none) (orderly_perform c) j
  | take i c next permit pending hi havailable =>
    exact orderly_goes h (e := .runs c (next ()) true none) ((hcode hi).2 () trivial) j
  | wait i c next permit pending w hi hempty =>
    have hrest : (Errand.runs c (.call .acquire next) permit pending).Orderly := hcode hi
    exact orderly_goes h (e := .runs c (.call .acquire next) permit (some (w, false))) hrest j
  | complete i c op next permit pending answer hi =>
    exact orderly_goes h (e := .runs c (next answer) permit none) ((hcode hi).2 answer trivial) j
  | cancel i c code permit pending hi =>
    refine orderly_goes h ?_ j
    cases permit <;> trivial
  | drop i c next pending hi =>
    exact orderly_goes h (e := .wakes _ (some ⟨c, next ()⟩)) ((hcode hi).2 () trivial) j
  | unwind i hi => exact orderly_goes h (e := .wakes _ none) trivial j
  | wake i w left rest hi =>
    by_cases hj : j = i
    · subst hj
      have hi : (Errand.wakes (w :: left) rest).Orderly := hcode hi
      simp only [Function.update_self]
      cases rest <;> exact hi
    · simp only [Function.update_of_ne hj]
      exact Errand.orderly_rouse wk _ (h j)
  | resume i c code hi =>
    have hrest : (Errand.wakes ([] : List W) (some ⟨c, code⟩)).Orderly := hcode hi
    exact orderly_goes h (e := .runs c code false none) hrest j
  | gone i hi => exact orderly_goes h (e := .idle) trivial j
  | finish i c result pending hi => exact orderly_goes h (e := .idle) trivial j

omit [DecidableEq T] in
theorem hall_goes (s : LimitedTier ι K V C E W) (i : ι) (e : Errand K V C E W)
    (permits : SemState W) :
    hall { permits, task := s.goes i e } =
      { free := permits.available, registered := permits.wakers,
        stage := Function.update s.hall.stage i e.stageOf } := by
  simp only [hall, Hall.mk.injEq, true_and]
  funext j
  by_cases hj : j = i <;> simp [goes, hj]

theorem hall_same {i : ι} {e : Errand K V C E W} (h : e.stageOf = (s.task i).stageOf) :
    hall { s with task := s.goes i e } = s.hall := by
  rw [hall_goes, Function.update_eq_self_iff.2 h]
  rfl

/-- A task without a permit that is not in a drop goes on without one. -/
theorem hall_rise {i : ι} {e : Errand K V C E W} (hidle : s.hall.Idle i)
    (he : e.stageOf = .awake) : Hall.Step wk s.hall (hall { s with task := s.goes i e }) := by
  rw [hall_goes, he]
  exact .rise i hidle

omit [DecidableEq ι] in
theorem idle_runs {i : ι} {c : LimitedCall K V C} {code : LimitedM K V C E (c.Output E)}
    {pending : Option (W × Bool)} (hi : s.task i = .runs c code false pending) :
    s.hall.Idle i := by
  have hstage : s.hall.stage i = (Errand.runs c code false pending).stageOf := by
    rw [← hi]
    rfl
  unfold Hall.Idle
  rw [hstage]
  obtain _ | ⟨w, woken⟩ := pending
  · exact Or.inl rfl
  · cases woken with
    | true => exact Or.inl rfl
    | false => exact Or.inr ⟨w, rfl⟩

theorem hall_wake (s : LimitedTier ι K V C E W) (i : ι) (t : T) (left : List W)
    (rest : Option ((c : LimitedCall K V C) × LimitedM K V C E (c.Output E))) :
    hall { s with task := Function.update (fun j => (s.task j).rouse wk t) i (.wakes left rest) } =
      { s.hall with stage := Function.update (fun j => wk.rouse t (s.hall.stage j)) i
                               (.wakes left) } := by
  simp only [hall, Hall.mk.injEq, true_and]
  funext j
  by_cases hj : j = i
  · simp [hj, Errand.stageOf]
  · simp [hj, Errand.stageOf_rouse]

/-- A step is a step of a semaphore, or none at all. -/
theorem hall_moves (h : ∀ i, (s.task i).Orderly) (hmove : Moves wk s s') :
    s'.hall = s.hall ∨ Hall.Step wk s.hall s'.hall := by
  have hcode : ∀ {i e}, s.task i = e → e.Orderly := by
    rintro i e rfl
    exact h i
  have hstage : ∀ {i e}, s.task i = e → s.hall.stage i = e.stageOf := by
    rintro i e rfl
    rfl
  cases hmove with
  | call i c hi => exact Or.inr (hall_rise (Or.inl (hstage hi)) rfl)
  | take i c next permit pending hi havailable =>
    obtain rfl : permit = false := (hcode hi).1
    right
    rw [hall_goes]
    exact .take i (idle_runs hi) havailable
  | wait i c next permit pending w hi hempty =>
    obtain rfl : permit = false := (hcode hi).1
    right
    rw [hall_goes]
    exact .wait i w (idle_runs hi) hempty
  | complete i c op next permit pending answer hi =>
    obtain rfl : permit = true := (hcode hi).1
    exact Or.inl (hall_same (by rw [hi]; rfl))
  | cancel i c code permit pending hi =>
    cases permit with
    | true => exact Or.inl (hall_same (by rw [hi]; rfl))
    | false => exact Or.inr (hall_rise (idle_runs hi) rfl)
  | drop i c next pending hi =>
    right
    rw [release, hall_goes]
    exact .release i (hstage hi)
  | unwind i hi =>
    right
    rw [release, hall_goes]
    exact .release i (hstage hi)
  | wake i w left rest hi =>
    right
    rw [hall_wake]
    exact .wake i w left (hstage hi)
  | resume i c code hi =>
    right
    rw [hall_goes]
    exact .leave i (hstage hi)
  | gone i hi =>
    right
    rw [hall_goes]
    exact .leave i (hstage hi)
  | finish i c result pending hi => exact Or.inr (hall_rise (idle_runs hi) rfl)

theorem Kept.step (hs : s.Kept wk limit) (a : LimitedStep ι K V C E W) :
    (step wk s a).Kept wk limit := by
  obtain hsame | hmove := step_moves wk s a
  · rwa [hsame]
  · refine ⟨orderly_moves hs.orderly hmove, ?_⟩
    obtain hsame | hstep := hall_moves hs.orderly hmove
    · rw [hsame]
      exact hs.sound
    · exact hs.sound.step hstep

omit [DecidableEq ι] [DecidableEq T] in
theorem kept_new : (new limit : LimitedTier ι K V C E W).Kept wk limit where
  orderly _ := trivial
  sound := Hall.Sound.start wk limit

theorem kept_run (hs : s.Kept wk limit) (steps : List (LimitedStep ι K V C E W)) :
    (run wk s steps).Kept wk limit :=
  Runs.keeps (fun _ a h => h.step a) steps hs

end Moves

/-! ## Admission -/

structure Admits (limit : Nat) (s : LimitedTier ι K V C E W) : Prop where
  running : {i | (s.task i).Running}.encard ≤ limit
  /-- The permits available and the live ones are all there are. -/
  permits : {i | (s.task i).HasPermit}.encard + s.permits.available = limit
  quiet : 0 < s.permits.available → s.permits.wakers = []
  /-- A task that waits while a permit is available has been woken, unless a drop has still to
  wake some. -/
  woken : ∀ i c code w woken, s.task i = .runs c code false (some (w, woken)) →
    0 < s.permits.available → (∀ j left rest, s.task j = .wakes left rest → left = []) →
    woken = true

theorem stageOf_wakes {e : Errand K V C E W} {left : List W} (h : e.stageOf = .wakes left) :
    ∃ rest, e = .wakes left rest := by
  unfold Errand.stageOf at h
  split at h <;> cases h
  next rest => exact ⟨rest, rfl⟩

theorem Kept.admits {wk : Wakers W T} {limit : Nat} {s : LimitedTier ι K V C E W}
    (hs : s.Kept wk limit) : s.Admits limit := by
  have hpermits : {i | (s.task i).HasPermit} = fiber s.hall.stage .holds := by
    ext i
    exact Errand.stageOf_holds.symm
  have hcount : {i | (s.task i).HasPermit}.encard + s.permits.available = limit := by
    rw [hpermits]
    exact hs.sound.count
  refine ⟨?_, hcount, hs.sound.quiet, ?_⟩
  · have hsub : {i | (s.task i).Running} ⊆ {i | (s.task i).HasPermit} :=
      fun i hi => (hs.orderly i).hasPermit hi
    calc {i | (s.task i).Running}.encard
        ≤ {i | (s.task i).HasPermit}.encard := Set.encard_le_encard hsub
      _ ≤ {i | (s.task i).HasPermit}.encard + s.permits.available := le_self_add
      _ = limit := hcount
  · intro i c code w woken hi havailable hdone
    cases woken with
    | true => rfl
    | false =>
      have hasleep : s.hall.stage i = .asleep w := by simp [hall, hi, Errand.stageOf]
      obtain ⟨j, left, hj, x, hx, -⟩ := hs.sound.waking havailable hasleep
      obtain ⟨rest, hwakes⟩ := stageOf_wakes hj
      rw [hdone j left rest hwakes] at hx
      cases hx

/-- Whatever the tasks call and in whatever order their steps are taken, the limit is kept and
nobody is stranded. -/
theorem admits_run [DecidableEq ι] [DecidableEq T] (wk : Wakers W T) (limit : Nat)
    (steps : List (LimitedStep ι K V C E W)) :
    (run wk (new limit : LimitedTier ι K V C E W) steps).Admits limit :=
  (kept_run kept_new steps).admits

end LimitedTier
end Tierstore
