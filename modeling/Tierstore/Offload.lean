import Mathlib.Logic.Function.Basic
import Tierstore.Lib.Runs

/-! The offload tier's thread pool: jobs go to worker threads through a channel, and the result of
each comes back to the awaiting task through a cell with a waker. -/
namespace Tierstore.Offload
open Runs

/-- `std::thread::Result`: what a job returns, or the panic that was caught. -/
abbrev Outcome (P R : Type) := Except P R

inductive Poll (P R : Type) where
  | ready (value : R)
  | unwind (panic : P)
  | pending
  deriving DecidableEq, Repr

/-- The answer that an outcome makes of a poll: a panic is resumed on the poller. -/
def Poll.of {P R : Type} : Outcome P R → Poll P R
  | .ok value => .ready value
  | .error panic => .unwind panic

structure OneshotState (Wk P R : Type) where
  outcome : Option (Outcome P R)
  waker : Option Wk

namespace OneshotState
variable {Wk P R : Type} (willWake : Wk → Wk → Bool)

def default : OneshotState Wk P R := { outcome := none, waker := none }

def takeOrRegister (shared : OneshotState Wk P R) (waker : Wk) :
    Option (Outcome P R) × OneshotState Wk P R :=
  let outcome := shared.outcome
  let taken := { shared with outcome := none }
  if outcome.isNone && !shared.waker.any (willWake · waker) then
    (outcome, { taken with waker := some waker })
  else (outcome, taken)

def poll (shared : OneshotState Wk P R) (waker : Wk) : Poll P R × OneshotState Wk P R :=
  match shared.takeOrRegister willWake waker with
  | (some (.ok value), shared) => (.ready value, shared)
  | (some (.error panic), shared) => (.unwind panic, shared)
  | (none, shared) => (.pending, shared)

/-- The worker's section: the outcome goes in, the waker comes out. -/
def store (shared : OneshotState Wk P R) (outcome : Outcome P R) :
    Option Wk × OneshotState Wk P R :=
  (shared.waker, { outcome := some outcome, waker := none })

end OneshotState

/-! ## One operation -/

/-- Where the job is: in the channel or with a worker, before, between and after its sections.
Without a sender it is dropped. -/
inductive Job (Wk P R : Type) where
  | unsent
  | dropped
  | queued
  | running
  | ran (outcome : Outcome P R)
  | waking (waker : Option Wk)
  | finished

/-- The future, with the waker of its last poll. It is awaited, so that no poll follows the one
that resolves it; it may be dropped at any time. -/
inductive Awaited (Wk : Type) where
  | unsent
  | awaiting (last : Option Wk)
  | resolved
  | dropped

/-- An operation, and what has come of it: the outcomes its job had, the wakers that were woken
and the results that the future gave. -/
structure Handoff (Wk P R : Type) where
  shared : OneshotState Wk P R
  job : Job Wk P R
  future : Awaited Wk
  produced : List (Outcome P R)
  woken : List Wk
  results : List (Poll P R)

inductive Move (Wk P R : Type) where
  | submit (sent : Bool)
  | recv
  | run (outcome : Outcome P R)
  | store
  | wake
  | poll (waker : Wk)
  | drop

namespace Handoff
variable {Wk P R : Type} (willWake : Wk → Wk → Bool)

def unsent : Handoff Wk P R :=
  { shared := .default, job := .unsent, future := .unsent, produced := [], woken := [],
    results := [] }

def step (h : Handoff Wk P R) : Move Wk P R → Handoff Wk P R
  | .submit sent =>
    match h.future with
    | .unsent => { h with job := if sent then .queued else .dropped, future := .awaiting none }
    | _ => h
  | .recv =>
    match h.job with
    | .queued => { h with job := .running }
    | _ => h
  | .run outcome =>
    match h.job with
    | .running => { h with job := .ran outcome, produced := h.produced ++ [outcome] }
    | _ => h
  | .store =>
    match h.job with
    | .ran outcome =>
      let (waker, shared) := h.shared.store outcome
      { h with shared, job := .waking waker }
    | _ => h
  | .wake =>
    match h.job with
    | .waking waker => { h with job := .finished, woken := h.woken ++ waker.toList }
    | _ => h
  | .poll waker =>
    match h.future with
    | .awaiting _ =>
      match h.shared.poll willWake waker with
      | (.pending, shared) => { h with shared, future := .awaiting (some waker) }
      | (result, shared) =>
        { h with shared, future := .resolved, results := h.results ++ [result] }
    | _ => h
  | .drop =>
    match h.future with
    | .awaiting _ => { h with future := .dropped }
    | _ => h

end Handoff

/-! ## The pool -/

inductive Worker (J : Type) where
  | waiting
  | busy (job : J)
  | exited

structure Pool (J W Wk P R : Type) where
  sender : Bool
  queue : List J
  workers : W → Worker J
  handoffs : J → Handoff Wk P R

/-- `submit` is `Pool::run`; `close` takes the sender. -/
inductive Action (J W Wk P R : Type) where
  | submit (job : J)
  | recv (worker : W)
  | run (worker : W) (outcome : Outcome P R)
  | store (worker : W)
  | wake (worker : W)
  | poll (job : J) (waker : Wk)
  | drop (job : J)
  | close

namespace Pool
variable {J W Wk P R : Type} [DecidableEq J] [DecidableEq W] (willWake : Wk → Wk → Bool)

def spawn : Pool J W Wk P R :=
  { sender := true, queue := [], workers := fun _ => .waiting, handoffs := fun _ => .unsent }

def move (p : Pool J W Wk P R) (job : J) (m : Move Wk P R) : Pool J W Wk P R :=
  { p with handoffs := Function.update p.handoffs job ((p.handoffs job).step willWake m) }

def assign (p : Pool J W Wk P R) (worker : W) (state : Worker J) : Pool J W Wk P R :=
  { p with workers := Function.update p.workers worker state }

/-- A step that the pool cannot take leaves it as it is. -/
def step (p : Pool J W Wk P R) : Action J W Wk P R → Pool J W Wk P R
  | .submit job =>
    match (p.handoffs job).future with
    | .unsent =>
      { p.move willWake job (.submit p.sender) with
        queue := if p.sender then p.queue ++ [job] else p.queue }
    | _ => p
  | .recv worker =>
    match p.workers worker, p.queue with
    | .waiting, job :: queue =>
      ({ p with queue }.assign worker (.busy job)).move willWake job .recv
    | .waiting, [] => if p.sender then p else p.assign worker .exited
    | _, _ => p
  | .run worker outcome =>
    match p.workers worker with
    | .busy job => p.move willWake job (.run outcome)
    | _ => p
  | .store worker =>
    match p.workers worker with
    | .busy job => p.move willWake job .store
    | _ => p
  | .wake worker =>
    match p.workers worker with
    | .busy job =>
      match (p.handoffs job).job with
      | .waking _ => (p.assign worker .waiting).move willWake job .wake
      | _ => p
    | _ => p
  | .poll job waker => p.move willWake job (.poll waker)
  | .drop job => p.move willWake job .drop
  | .close => { p with sender := false }

end Pool

/-! ## The result is handed over -/
section Delivery
variable {Wk P R : Type} {willWake : Wk → Wk → Bool}

def Wakes (willWake : Wk → Wk → Bool) (waker other : Wk) : Prop :=
  waker = other ∨ willWake waker other = true

/-- The waker of the last poll that was pending is among these, up to `will_wake`. -/
def Covered (willWake : Wk → Wk → Bool) (wakers : List Wk) (future : Awaited Wk) : Prop :=
  ∀ last, future = .awaiting (some last) → ∃ waker ∈ wakers, Wakes willWake waker last

structure Unstored (willWake : Wk → Wk → Bool) (h : Handoff Wk P R) : Prop where
  outcome : h.shared.outcome = none
  results : h.results = []
  woken : h.woken = []
  unresolved : h.future ≠ .resolved
  covered : Covered willWake h.shared.waker.toList h.future

/-- The outcome has been stored: it is there, or was given to the task, or nobody waits for it. -/
def Stored (outcome : Outcome P R) (h : Handoff Wk P R) : Prop :=
  match h.future with
  | .unsent => False
  | .awaiting _ => h.shared.outcome = some outcome ∧ h.results = []
  | .resolved => h.results = [.of outcome]
  | .dropped => h.results = []

def Inv (willWake : Wk → Wk → Bool) (h : Handoff Wk P R) : Prop :=
  match h.job with
  | .unsent => h.produced = [] ∧ Unstored willWake h ∧ h.future = .unsent
  | .dropped => h.produced = [] ∧ Unstored willWake h ∧ h.future ≠ .unsent
  | .queued => h.produced = [] ∧ Unstored willWake h ∧ h.future ≠ .unsent
  | .running => h.produced = [] ∧ Unstored willWake h ∧ h.future ≠ .unsent
  | .ran outcome => h.produced = [outcome] ∧ Unstored willWake h ∧ h.future ≠ .unsent
  | .waking waker => ∃ outcome, h.produced = [outcome] ∧ Stored outcome h ∧ h.woken = [] ∧
      Covered willWake waker.toList h.future
  | .finished => ∃ outcome, h.produced = [outcome] ∧ Stored outcome h ∧
      Covered willWake h.woken h.future

theorem inv_unsent : Inv willWake (.unsent : Handoff Wk P R) :=
  ⟨rfl, ⟨rfl, rfl, rfl, by simp [Handoff.unsent], fun _ h => by cases h⟩, rfl⟩

theorem poll_of_none (willWake : Wk → Wk → Bool) {shared : OneshotState Wk P R}
    (h : shared.outcome = none) (waker : Wk) :
    ∃ registered, shared.poll willWake waker = (.pending, registered) ∧
      registered.outcome = none ∧ ∃ held, registered.waker = some held ∧
        Wakes willWake held waker := by
  simp only [OneshotState.poll, OneshotState.takeOrRegister, h, Option.isNone_none, Bool.true_and]
  cases hwaker : shared.waker with
  | none => exact ⟨_, rfl, rfl, waker, rfl, .inl rfl⟩
  | some held =>
    cases hwill : willWake held waker with
    | true =>
      simp only [Option.any_some, hwill, Bool.not_true, Bool.false_eq_true, if_false]
      exact ⟨_, rfl, rfl, held, rfl, .inr hwill⟩
    | false =>
      simp only [Option.any_some, hwill, Bool.not_false, if_true]
      exact ⟨_, rfl, rfl, waker, rfl, .inl rfl⟩

theorem poll_of_some {shared : OneshotState Wk P R} {outcome : Outcome P R}
    (h : shared.outcome = some outcome) (waker : Wk) :
    shared.poll willWake waker = (.of outcome, { shared with outcome := none }) := by
  simp only [OneshotState.poll, OneshotState.takeOrRegister, h, Option.isNone_some,
    Bool.false_and, Bool.false_eq_true, if_false]
  cases outcome with
  | ok value => rfl
  | error panic => rfl

variable {h : Handoff Wk P R}

/-- A poll that finds no outcome registers its waker. -/
theorem step_poll_pending (willWake : Wk → Wk → Bool) {last : Option Wk}
    (hlast : h.future = .awaiting last)
    (hnone : h.shared.outcome = none) (waker : Wk) :
    ∃ registered, h.step willWake (.poll waker) =
        { h with shared := registered, future := .awaiting (some waker) } ∧
      registered.outcome = none ∧ ∃ held, registered.waker = some held ∧
        Wakes willWake held waker := by
  obtain ⟨registered, hpoll, hregistered⟩ := poll_of_none willWake hnone waker
  refine ⟨registered, ?_, hregistered⟩
  simp only [Handoff.step, hlast, hpoll]

/-- A poll that finds the outcome resolves the future. -/
theorem step_poll_ready {last : Option Wk} (hlast : h.future = .awaiting last)
    {outcome : Outcome P R} (hsome : h.shared.outcome = some outcome) (waker : Wk) :
    h.step willWake (.poll waker) =
      { h with
        shared := { h.shared with outcome := none }
        future := .resolved
        results := h.results ++ [.of outcome] } := by
  simp only [Handoff.step, hlast, poll_of_some hsome]
  cases outcome with
  | ok value => rfl
  | error panic => rfl

theorem step_poll_of_not_awaiting (hfuture : ∀ last, h.future ≠ .awaiting last) (waker : Wk) :
    h.step willWake (.poll waker) = h := by
  rw [Handoff.step]
  split
  next last hlast => exact absurd hlast (hfuture last)
  next => rfl

/-! ### What a poll keeps -/

theorem Unstored.poll (hu : Unstored willWake h) (waker : Wk) :
    Unstored willWake (h.step willWake (.poll waker)) := by
  cases hfuture : h.future with
  | awaiting last =>
    obtain ⟨registered, hstep, hnone, held, hheld, hwakes⟩ :=
      step_poll_pending willWake hfuture hu.outcome waker
    rw [hstep]
    refine ⟨hnone, hu.results, hu.woken, by simp, fun last' hlast' => ?_⟩
    cases hlast'
    exact ⟨held, by simp [hheld], hwakes⟩
  | unsent | resolved | dropped =>
    rw [step_poll_of_not_awaiting (by simp [hfuture])]
    exact hu

theorem Stored.poll {outcome : Outcome P R} (hs : Stored outcome h) (waker : Wk) :
    Stored outcome (h.step willWake (.poll waker)) := by
  cases hfuture : h.future with
  | awaiting last =>
    rw [Stored, hfuture] at hs
    rw [step_poll_ready hfuture hs.1, Stored]
    simp [hs.2]
  | unsent | resolved | dropped =>
    rw [step_poll_of_not_awaiting (by simp [hfuture])]
    exact hs

/-- A poll after the outcome is stored does not wait, so that every waker still waited for was. -/
theorem Stored.covered_poll {outcome : Outcome P R} (hs : Stored outcome h) (waker : Wk)
    {wakers : List Wk} (hcovered : Covered willWake wakers h.future) :
    Covered willWake wakers (h.step willWake (.poll waker)).future := by
  cases hfuture : h.future with
  | awaiting last =>
    rw [Stored, hfuture] at hs
    rw [step_poll_ready hfuture hs.1]
    intro last' hlast'
    cases hlast'
  | unsent | resolved | dropped =>
    rw [step_poll_of_not_awaiting (by simp [hfuture])]
    exact hcovered

theorem poll_keeps (willWake : Wk → Wk → Bool) (h : Handoff Wk P R) (waker : Wk) :
    (h.step willWake (.poll waker)).job = h.job ∧
      (h.step willWake (.poll waker)).produced = h.produced ∧
      (h.step willWake (.poll waker)).woken = h.woken ∧
      ((h.step willWake (.poll waker)).future = .unsent ↔ h.future = .unsent) := by
  rw [Handoff.step]
  split
  next last hlast => split <;> simp [hlast]
  next => exact ⟨rfl, rfl, rfl, Iff.rfl⟩

/-! ### The invariant -/

/-- The job moves on without the cell, the future or the wakers. -/
theorem Unstored.carry (hu : Unstored willWake h) (job : Job Wk P R)
    (produced : List (Outcome P R)) : Unstored willWake { h with job, produced } :=
  ⟨hu.outcome, hu.results, hu.woken, hu.unresolved, hu.covered⟩

theorem Inv.submit (hinv : Inv willWake h) (sent : Bool) :
    Inv willWake (h.step willWake (.submit sent)) := by
  obtain ⟨shared, job, future, produced, woken, results⟩ := h
  cases future with
  | awaiting last => exact hinv
  | resolved => exact hinv
  | dropped => exact hinv
  | unsent =>
    cases job with
    | unsent =>
      obtain ⟨hproduced, hu, -⟩ := hinv
      have hnew : ∀ job, Unstored willWake
          { shared, job, future := .awaiting none, produced, woken, results } := fun job =>
        ⟨hu.outcome, hu.results, hu.woken, by simp, fun last hlast => by cases hlast⟩
      cases sent with
      | true => exact ⟨hproduced, hnew .queued, fun hno => by cases hno⟩
      | false => exact ⟨hproduced, hnew .dropped, fun hno => by cases hno⟩
    | dropped => exact absurd rfl hinv.2.2
    | queued => exact absurd rfl hinv.2.2
    | running => exact absurd rfl hinv.2.2
    | ran outcome => exact absurd rfl hinv.2.2
    | waking waker =>
      obtain ⟨outcome, -, hs, -⟩ := hinv
      exact hs.elim
    | finished =>
      obtain ⟨outcome, -, hs, -⟩ := hinv
      exact hs.elim

theorem Inv.recv (hinv : Inv willWake h) : Inv willWake (h.step willWake .recv) := by
  obtain ⟨shared, job, future, produced, woken, results⟩ := h
  cases job with
  | queued => exact ⟨hinv.1, hinv.2.1.carry .running produced, hinv.2.2⟩
  | unsent => exact hinv
  | dropped => exact hinv
  | running => exact hinv
  | ran outcome => exact hinv
  | waking waker => exact hinv
  | finished => exact hinv

theorem Inv.run (hinv : Inv willWake h) (outcome : Outcome P R) :
    Inv willWake (h.step willWake (.run outcome)) := by
  obtain ⟨shared, job, future, produced, woken, results⟩ := h
  cases job with
  | running =>
    obtain ⟨hproduced, hu, hsent⟩ := hinv
    have hone : produced ++ [outcome] = [outcome] := by
      rw [show produced = [] from hproduced, List.nil_append]
    exact ⟨hone, hu.carry (.ran outcome) (produced ++ [outcome]), hsent⟩
  | unsent => exact hinv
  | dropped => exact hinv
  | queued => exact hinv
  | ran outcome => exact hinv
  | waking waker => exact hinv
  | finished => exact hinv

/-- The waker that the last poll left is the one that the worker takes. -/
theorem Inv.store (hinv : Inv willWake h) : Inv willWake (h.step willWake .store) := by
  obtain ⟨shared, job, future, produced, woken, results⟩ := h
  cases job with
  | ran outcome =>
    obtain ⟨hproduced, hu, hsent⟩ := hinv
    refine ⟨outcome, hproduced, ?_, hu.woken, hu.covered⟩
    cases future with
    | unsent => exact hsent rfl
    | awaiting last => exact ⟨rfl, hu.results⟩
    | resolved => exact absurd rfl hu.unresolved
    | dropped => exact hu.results
  | unsent => exact hinv
  | dropped => exact hinv
  | queued => exact hinv
  | running => exact hinv
  | waking waker => exact hinv
  | finished => exact hinv

theorem Inv.wake (hinv : Inv willWake h) : Inv willWake (h.step willWake .wake) := by
  obtain ⟨shared, job, future, produced, woken, results⟩ := h
  cases job with
  | waking waker =>
    obtain ⟨outcome, hproduced, hs, hwoken, hcovered⟩ := hinv
    have hnext : woken ++ waker.toList = waker.toList := by
      rw [show woken = [] from hwoken, List.nil_append]
    refine ⟨outcome, hproduced, hs, ?_⟩
    rw [← hnext] at hcovered
    exact hcovered
  | unsent => exact hinv
  | dropped => exact hinv
  | queued => exact hinv
  | running => exact hinv
  | ran outcome => exact hinv
  | finished => exact hinv

theorem Inv.poll (hinv : Inv willWake h) (waker : Wk) :
    Inv willWake (h.step willWake (.poll waker)) := by
  obtain ⟨hjob, hproduced, hwoken, hsent⟩ := poll_keeps willWake h waker
  rw [Inv, hjob, hproduced, hwoken]
  rw [Inv] at hinv
  cases hcase : h.job with
  | unsent =>
    rw [hcase] at hinv
    exact ⟨hinv.1, hinv.2.1.poll waker, hsent.2 hinv.2.2⟩
  | dropped | queued | running | ran outcome =>
    rw [hcase] at hinv
    exact ⟨hinv.1, hinv.2.1.poll waker, fun hunsent => hinv.2.2 (hsent.1 hunsent)⟩
  | waking held =>
    rw [hcase] at hinv
    obtain ⟨outcome, hout, hs, hnone, hcovered⟩ := hinv
    exact ⟨outcome, hout, hs.poll waker, hnone, hs.covered_poll waker hcovered⟩
  | finished =>
    rw [hcase] at hinv
    obtain ⟨outcome, hout, hs, hcovered⟩ := hinv
    exact ⟨outcome, hout, hs.poll waker, hs.covered_poll waker hcovered⟩

theorem Inv.drop (hinv : Inv willWake h) : Inv willWake (h.step willWake .drop) := by
  obtain ⟨shared, job, future, produced, woken, results⟩ := h
  cases future with
  | unsent => exact hinv
  | resolved => exact hinv
  | dropped => exact hinv
  | awaiting last =>
    have hunstored : Unstored willWake ⟨shared, job, .awaiting last, produced, woken, results⟩ →
        Unstored willWake ⟨shared, job, .dropped, produced, woken, results⟩ := fun hu =>
      ⟨hu.outcome, hu.results, hu.woken, by simp, fun _ hno => by cases hno⟩
    cases job with
    | unsent => exact absurd hinv.2.2 (by simp)
    | dropped | queued | running | ran outcome =>
      exact ⟨hinv.1, hunstored hinv.2.1, fun hno => by cases hno⟩
    | waking waker =>
      obtain ⟨outcome, hout, hs, hnone, -⟩ := hinv
      exact ⟨outcome, hout, hs.2, hnone, fun _ hno => by cases hno⟩
    | finished =>
      obtain ⟨outcome, hout, hs, -⟩ := hinv
      exact ⟨outcome, hout, hs.2, fun _ hno => by cases hno⟩

theorem Inv.step (hinv : Inv willWake h) (m : Move Wk P R) : Inv willWake (h.step willWake m) := by
  cases m with
  | submit sent => exact hinv.submit sent
  | recv => exact hinv.recv
  | run outcome => exact hinv.run outcome
  | store => exact hinv.store
  | wake => exact hinv.wake
  | poll waker => exact hinv.poll waker
  | drop => exact hinv.drop

end Delivery

/-! ## Runs of the pool -/
section Runs
variable {J W Wk P R : Type} [DecidableEq J] [DecidableEq W] {willWake : Wk → Wk → Bool}

omit [DecidableEq W] in
theorem move_handoff (p : Pool J W Wk P R) (job other : J) (m : Move Wk P R) :
    (p.move willWake job m).handoffs other = p.handoffs other ∨
      (p.move willWake job m).handoffs other = (p.handoffs other).step willWake m := by
  by_cases hother : other = job
  · subst hother
    exact .inr (Function.update_self ..)
  · exact .inl (Function.update_of_ne hother ..)

/-- To each operation, a step of the pool is a move of its own or none. -/
theorem step_handoff (willWake : Wk → Wk → Bool) (p : Pool J W Wk P R)
    (a : Action J W Wk P R) (job : J) :
    (p.step willWake a).handoffs job = p.handoffs job ∨
      ∃ m, (p.step willWake a).handoffs job = (p.handoffs job).step willWake m := by
  cases a with
  | submit other =>
    rw [Pool.step]
    split
    next => exact (move_handoff p other job _).imp_right fun hmove => ⟨_, hmove⟩
    next => exact .inl rfl
  | recv worker =>
    rw [Pool.step]
    split
    next other queue _ _ => exact (move_handoff _ other job _).imp_right fun hmove => ⟨_, hmove⟩
    next => split <;> exact .inl rfl
    next => exact .inl rfl
  | run worker outcome =>
    rw [Pool.step]
    split
    next other _ => exact (move_handoff p other job _).imp_right fun hmove => ⟨_, hmove⟩
    next => exact .inl rfl
  | store worker =>
    rw [Pool.step]
    split
    next other _ => exact (move_handoff p other job _).imp_right fun hmove => ⟨_, hmove⟩
    next => exact .inl rfl
  | wake worker =>
    rw [Pool.step]
    split
    next other _ =>
      split
      next => exact (move_handoff _ other job _).imp_right fun hmove => ⟨_, hmove⟩
      next => exact .inl rfl
    next => exact .inl rfl
  | poll other waker => exact (move_handoff p other job _).imp_right fun hmove => ⟨_, hmove⟩
  | drop other => exact (move_handoff p other job _).imp_right fun hmove => ⟨_, hmove⟩
  | close => exact .inl rfl

/-- What the handoff comes to: the future gives at most one result, which is its job's only
outcome; once the outcome is stored, whoever polls gets it; and once the worker is done, a future
that is still pending has had its last waker woken, up to `will_wake`. -/
structure Delivered (willWake : Wk → Wk → Bool) (h : Handoff Wk P R) : Prop where
  once : h.results.length ≤ 1
  own : ∀ result ∈ h.results, ∃ outcome, h.produced = [outcome] ∧ result = .of outcome
  resolved : h.future = .resolved → h.results.length = 1
  available : ∀ last, h.future = .awaiting last →
    ((∃ waker, h.job = .waking waker) ∨ h.job = .finished) →
    ∃ outcome, h.produced = [outcome] ∧ ∀ waker, (h.shared.poll willWake waker).1 = .of outcome
  woken : ∀ last, h.job = .finished → h.future = .awaiting (some last) →
    ∃ waker ∈ h.woken, Wakes willWake waker last

theorem Unstored.delivered {h : Handoff Wk P R} (hu : Unstored willWake h)
    (hwaking : ∀ waker, h.job ≠ .waking waker) (hfinished : h.job ≠ .finished) :
    Delivered willWake h where
  once := by simp [hu.results]
  own := by simp [hu.results]
  resolved := fun hresolved => absurd hresolved hu.unresolved
  available := fun _ _ hdone => by
    obtain ⟨waker, hjob⟩ | hjob := hdone
    · exact absurd hjob (hwaking waker)
    · exact absurd hjob hfinished
  woken := fun _ hjob => absurd hjob hfinished

theorem Stored.delivered {h : Handoff Wk P R} {outcome : Outcome P R} (hs : Stored outcome h)
    (hproduced : h.produced = [outcome])
    (hwoken : h.job = .finished → Covered willWake h.woken h.future) :
    Delivered willWake h := by
  rw [Stored] at hs
  have hresults : h.results = [] ∨ h.results = [.of outcome] := by
    cases hfuture : h.future with
    | unsent =>
      rw [hfuture] at hs
      exact hs.elim
    | awaiting last =>
      rw [hfuture] at hs
      exact .inl hs.2
    | resolved =>
      rw [hfuture] at hs
      exact .inr hs
    | dropped =>
      rw [hfuture] at hs
      exact .inl hs
  constructor
  case once => obtain hnil | hone := hresults <;> simp [*]
  case own =>
    intro result hresult
    refine ⟨outcome, hproduced, ?_⟩
    obtain hnil | hone := hresults
    · rw [hnil] at hresult
      cases hresult
    · rw [hone] at hresult
      exact List.mem_singleton.1 hresult
  case resolved =>
    intro hresolved
    rw [hresolved] at hs
    rw [hs, List.length_singleton]
  case available =>
    intro last hlast _
    rw [hlast] at hs
    exact ⟨outcome, hproduced, fun waker => by rw [poll_of_some hs.1]⟩
  case woken => exact fun last hjob hlast => hwoken hjob last hlast

theorem Inv.delivered {h : Handoff Wk P R} (hinv : Inv willWake h) : Delivered willWake h := by
  rw [Inv] at hinv
  cases hjob : h.job with
  | unsent | dropped | queued | running | ran outcome =>
    rw [hjob] at hinv
    exact hinv.2.1.delivered (by simp [hjob]) (by simp [hjob])
  | waking waker =>
    rw [hjob] at hinv
    obtain ⟨outcome, hproduced, hs, -⟩ := hinv
    exact hs.delivered hproduced (by simp [hjob])
  | finished =>
    rw [hjob] at hinv
    obtain ⟨outcome, hproduced, hs, hcovered⟩ := hinv
    exact hs.delivered hproduced fun _ => hcovered

/-- In every run of the pool, every operation's result is delivered. -/
theorem pool_delivers (willWake : Wk → Wk → Bool) (actions : List (Action J W Wk P R)) (job : J) :
    Delivered willWake ((actions.foldl (Pool.step willWake) Pool.spawn).handoffs job) := by
  have hstep : ∀ (p : Pool J W Wk P R) a, Inv willWake (p.handoffs job) →
      Inv willWake ((p.step willWake a).handoffs job) := by
    intro p a hinv
    obtain hsame | ⟨m, hmove⟩ := step_handoff willWake p a job
    · exact hsame ▸ hinv
    · exact hmove ▸ hinv.step m
  exact (keeps hstep actions inv_unsent).delivered

end Runs

end Tierstore.Offload
