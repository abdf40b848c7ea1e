import Tierstore.Lib.Crew
import Tierstore.Lib.Interleave
import Tierstore.Memory
import Tierstore.Offload

/-! The offload tier. Its operations are closures that drive the inner tier's futures on the
threads of the pool; every step of such a future is one atomic step. -/
namespace Tierstore
open Effects Runs

namespace Offload

/-- The pool with the closures that it is given. `sent` is every closure that went into the
channel and `begun` every one that came out of it. -/
structure Host (J W Wk P : Type) {Q : Type} (A : Q → Type) (β : J → Type) (σ : Type) where
  inner : Effects.Pool J Q A (fun job => Outcome P (β job)) σ
  pool : Pool J W Wk P ((job : J) × β job)
  sent : List J
  begun : List J

/-- `run` is `Pool::run` for the job's closure, and `drive` one poll of its future. -/
inductive Turn (J W Wk : Type) where
  | run (job : J)
  | recv (worker : W)
  | drive (worker : W)
  | store (worker : W)
  | wake (worker : W)
  | poll (job : J) (waker : Wk)
  | drop (job : J)
  | close

namespace Host
variable {J W Wk P Q σ : Type} {A : Q → Type} {β : J → Type} [DecidableEq J] [DecidableEq W]
  (willWake : Wk → Wk → Bool) (env : (q : Q) → σ → Option (A q × σ))

omit [DecidableEq J] [DecidableEq W] in
def spawn (world : σ) (bodies : (job : J) → Program Q A (Outcome P (β job))) :
    Host J W Wk P A β σ :=
  { inner := .start world bodies, pool := .spawn, sent := [], begun := [] }

def step (s : Host J W Wk P A β σ) : Turn J W Wk → Host J W Wk P A β σ
  | .run job =>
    match (s.pool.handoffs job).future with
    | .unsent =>
      { s with
        pool := s.pool.step willWake (.submit job)
        sent := if s.pool.sender then s.sent ++ [job] else s.sent }
    | _ => s
  | .recv worker =>
    match s.pool.workers worker, s.pool.queue with
    | .waiting, job :: _ =>
      { s with pool := s.pool.step willWake (.recv worker), begun := s.begun ++ [job] }
    | _, _ => { s with pool := s.pool.step willWake (.recv worker) }
  | .drive worker =>
    match s.pool.workers worker with
    | .busy job =>
      match (s.pool.handoffs job).job, s.inner.threads job with
      | .running, .call _ _ => { s with inner := s.inner.step env job }
      | .running, .done outcome =>
        { s with pool := s.pool.step willWake (.run worker (outcome.map (Sigma.mk job))) }
      | _, _ => s
    | _ => s
  | .store worker => { s with pool := s.pool.step willWake (.store worker) }
  | .wake worker => { s with pool := s.pool.step willWake (.wake worker) }
  | .poll job waker => { s with pool := s.pool.step willWake (.poll job waker) }
  | .drop job => { s with pool := s.pool.step willWake (.drop job) }
  | .close => { s with pool := s.pool.step willWake .close }

def run (s : Host J W Wk P A β σ) (turns : List (Turn J W Wk)) : Host J W Wk P A β σ :=
  turns.foldl (step willWake env) s

end Host

/-! ## The workers as a crew -/

def Job.place {Wk P R : Type} : Job Wk P R → Crew.Place
  | .unsent => .outside
  | .dropped => .outside
  | .queued => .queued
  | .running => .inHand
  | .ran _ => .inHand
  | .waking _ => .inHand
  | .finished => .finished

def Worker.hand {J : Type} : Worker J → Option J
  | .waiting => none
  | .busy job => some job
  | .exited => none

theorem Worker.hand_iff {J : Type} {worker : Worker J} {job : J} :
    worker.hand = some job ↔ worker = .busy job := by
  cases worker <;> simp [Worker.hand]

section Crew
variable {J W Wk P R : Type}

def Pool.roster (p : Pool J W Wk P R) (sent begun : List J) : Crew.Roster J W :=
  { queue := p.queue
    hand := fun worker => (p.workers worker).hand
    place := fun job => (p.handoffs job).job.place
    sent, begun }

variable [DecidableEq J] [DecidableEq W] {willWake : Wk → Wk → Bool} {p : Pool J W Wk P R}

omit [DecidableEq W] in
theorem place_move (p : Pool J W Wk P R) (job : J) (m : Move Wk P R) :
    (fun other => ((p.move willWake job m).handoffs other).job.place) =
      Function.update (fun other => (p.handoffs other).job.place) job
        ((p.handoffs job).step willWake m).job.place := by
  funext other
  by_cases heq : other = job
  · subst heq
    simp [Pool.move]
  · simp [Pool.move, heq]

omit [DecidableEq J] in
theorem hand_assign (p : Pool J W Wk P R) (worker : W) (state : Worker J) :
    (fun other => ((p.assign worker state).workers other).hand) =
      Function.update (fun other => (p.workers other).hand) worker state.hand := by
  funext other
  by_cases heq : other = worker
  · subst heq
    simp [Pool.assign]
  · simp [Pool.assign, heq]

omit [DecidableEq W] in
/-- A move that leaves the job where it is. -/
theorem place_move_same {job : J} {m : Move Wk P R}
    (h : ((p.handoffs job).step willWake m).job.place = (p.handoffs job).job.place) :
    (fun other => ((p.move willWake job m).handoffs other).job.place) =
      fun other => (p.handoffs other).job.place := by
  rw [place_move, h, Function.update_eq_self]

omit [DecidableEq W] in
/-- The roster after a move that leaves the job where it is. -/
theorem roster_move {job : J} {m : Move Wk P R}
    (h : ((p.handoffs job).step willWake m).job.place = (p.handoffs job).job.place)
    (sent begun : List J) : (p.move willWake job m).roster sent begun = p.roster sent begun := by
  rw [Pool.roster, place_move_same h]
  rfl

omit [DecidableEq W] in
theorem produced_move {job : J} {m : Move Wk P R}
    (h : ((p.handoffs job).step willWake m).produced = (p.handoffs job).produced) (other : J) :
    ((p.move willWake job m).handoffs other).produced = (p.handoffs other).produced := by
  by_cases heq : other = job
  · subst heq
    simpa [Pool.move] using h
  · simp [Pool.move, heq]

omit [DecidableEq W] in
theorem dropped_move {job : J} {m : Move Wk P R}
    (h : ((p.handoffs job).step willWake m).job = .dropped → (p.handoffs job).job = .dropped)
    (other : J) : ((p.move willWake job m).handoffs other).job = .dropped →
      (p.handoffs other).job = .dropped := by
  by_cases heq : other = job
  · subst heq
    simpa [Pool.move] using h
  · simp [Pool.move, heq]

theorem drop_keeps (willWake : Wk → Wk → Bool) (h : Handoff Wk P R) :
    (h.step willWake .drop).job = h.job ∧ (h.step willWake .drop).produced = h.produced := by
  rw [Handoff.step]
  split <;> exact ⟨rfl, rfl⟩

variable {sent begun : List J}

theorem roster_send {job : J} (hfuture : (p.handoffs job).future = .unsent)
    (hopen : p.sender = true) :
    (p.step willWake (.submit job)).roster (sent ++ [job]) begun =
      (p.roster sent begun).send job := by
  simp only [Pool.step, hfuture, hopen, if_true]
  rw [Pool.roster]
  simp only [Crew.Roster.send, Pool.roster]
  rw [place_move, Handoff.step, hfuture]
  rfl

theorem roster_refused {job : J} (hfuture : (p.handoffs job).future = .unsent)
    (hjob : (p.handoffs job).job = .unsent) (hclosed : p.sender = false) :
    (p.step willWake (.submit job)).roster sent begun = p.roster sent begun := by
  simp only [Pool.step, hfuture, hclosed, if_false, Bool.false_eq_true]
  refine roster_move ?_ sent begun
  rw [Handoff.step, hfuture, hjob]
  rfl

theorem roster_take {worker : W} {job : J} {rest : List J} (hworker : p.workers worker = .waiting)
    (hqueue : p.queue = job :: rest) (hjob : (p.handoffs job).job = .queued) :
    (p.step willWake (.recv worker)).roster sent (begun ++ [job]) =
      (p.roster sent begun).take worker job rest := by
  simp only [Pool.step, hworker, hqueue]
  simp only [Crew.Roster.take, Pool.roster]
  rw [place_move, Handoff.step]
  simp only [Pool.assign, hjob]
  congr 1
  exact hand_assign p worker (.busy job)

theorem roster_exit {worker : W} (hworker : p.workers worker = .waiting) (hqueue : p.queue = []) :
    (p.step willWake (.recv worker)).roster sent begun = p.roster sent begun := by
  simp only [Pool.step, hworker, hqueue]
  split
  · rfl
  · rw [Pool.roster, hand_assign]
    refine congrArg (fun hand => Crew.Roster.mk _ hand _ _ _) ?_
    refine Function.update_eq_self_iff.2 ?_
    rw [hworker]
    rfl

theorem roster_finish {worker : W} {job : J} (hworker : p.workers worker = .busy job)
    {waker : Option Wk} (hjob : (p.handoffs job).job = .waking waker) :
    (p.step willWake (.wake worker)).roster sent begun =
      (p.roster sent begun).finish worker job := by
  simp only [Pool.step, hworker, hjob]
  simp only [Crew.Roster.finish, Pool.roster]
  rw [place_move, Handoff.step]
  simp only [Pool.assign, hjob]
  congr 1
  exact hand_assign p worker .waiting

end Crew

/-! ## The invariant -/
section Hosting
variable {J W Wk P Q σ : Type} {A : Q → Type} {β : J → Type}

/-- Each job is handed over on its own, the workers are a crew, and the program of a job is
untouched until it has begun and done once it has an outcome. -/
structure Host.Kept (willWake : Wk → Wk → Bool)
    (bodies : (job : J) → Program Q A (Outcome P (β job))) (s : Host J W Wk P A β σ) : Prop where
  crew : Crew.Kept (s.pool.roster s.sent s.begun)
  handoffs : ∀ job, Inv willWake (s.pool.handoffs job)
  waits : ∀ job, job ∉ s.begun → s.inner.threads job = bodies job
  own : ∀ job, ∀ outcome ∈ (s.pool.handoffs job).produced,
    ∃ out, s.inner.threads job = .done out ∧ outcome = out.map (Sigma.mk job)
  exited : ∀ worker, s.pool.workers worker = .exited → s.pool.sender = false ∧ s.pool.queue = []
  accepts : s.pool.sender = true → ∀ job, (s.pool.handoffs job).job ≠ .dropped

section Handoffs
variable {R : Type} {willWake : Wk → Wk → Bool} {h : Handoff Wk P R}

theorem Inv.of_unsent (hinv : Inv willWake h) (hfuture : h.future = .unsent) :
    h.job = .unsent ∧ h.produced = [] := by
  rw [Inv] at hinv
  cases hjob : h.job with
  | unsent =>
    rw [hjob] at hinv
    exact ⟨rfl, hinv.1⟩
  | dropped | queued | running | ran outcome =>
    rw [hjob] at hinv
    exact absurd hfuture hinv.2.2
  | waking waker =>
    rw [hjob] at hinv
    obtain ⟨outcome, -, hstored, -⟩ := hinv
    rw [Stored, hfuture] at hstored
    exact hstored.elim
  | finished =>
    rw [hjob] at hinv
    obtain ⟨outcome, -, hstored, -⟩ := hinv
    rw [Stored, hfuture] at hstored
    exact hstored.elim

theorem Inv.unsent_iff (hinv : Inv willWake h) : h.job = .unsent ↔ h.future = .unsent := by
  refine ⟨fun hjob => ?_, fun hfuture => (hinv.of_unsent hfuture).1⟩
  rw [Inv, hjob] at hinv
  exact hinv.2.2

/-- A job that is finished has its outcome. -/
theorem Inv.produced_of_finished (hinv : Inv willWake h) (hjob : h.job.place = .finished) :
    ∃ outcome, h.produced = [outcome] := by
  rw [Inv] at hinv
  cases hcase : h.job with
  | finished =>
    rw [hcase] at hinv
    exact hinv.imp fun _ hout => hout.1
  | unsent | dropped | queued | running | ran outcome | waking waker =>
    rw [hcase] at hjob
    cases hjob

end Handoffs

namespace Host
variable [DecidableEq J] [DecidableEq W] {willWake : Wk → Wk → Bool}
  {env : (q : Q) → σ → Option (A q × σ)} {bodies : (job : J) → Program Q A (Outcome P (β job))}
  {s : Host J W Wk P A β σ}

omit [DecidableEq J] [DecidableEq W] in
theorem kept_spawn (world : σ) :
    (spawn world bodies : Host J W Wk P A β σ).Kept willWake bodies where
  crew := Crew.kept_fresh
  handoffs := fun _ => inv_unsent
  waits := fun _ _ => rfl
  own := fun _ _ hno => by cases hno
  exited := fun _ hno => by cases hno
  accepts := fun _ _ hno => by cases hno

theorem Kept.inv_step (h : s.Kept willWake bodies) (a : Action J W Wk P ((job : J) × β job))
    (job : J) : Inv willWake ((s.pool.step willWake a).handoffs job) := by
  obtain hsame | ⟨m, hmove⟩ := step_handoff willWake s.pool a job
  · rw [hsame]
    exact h.handoffs job
  · rw [hmove]
    exact (h.handoffs job).step m

/-- The pool takes a step with which no closure goes in, comes out or gets on. -/
theorem Kept.quiet (h : s.Kept willWake bodies) {a : Action J W Wk P ((job : J) × β job)}
    (hroster : (s.pool.step willWake a).roster s.sent s.begun = s.pool.roster s.sent s.begun)
    (hproduced : ∀ job, ((s.pool.step willWake a).handoffs job).produced =
      (s.pool.handoffs job).produced)
    (hexited : ∀ worker, (s.pool.step willWake a).workers worker = .exited →
      (s.pool.step willWake a).sender = false ∧ (s.pool.step willWake a).queue = [])
    (haccepts : (s.pool.step willWake a).sender = true →
      ∀ job, ((s.pool.step willWake a).handoffs job).job ≠ .dropped) :
    Kept willWake bodies { s with pool := s.pool.step willWake a } where
  crew := by
    rw [hroster]
    exact h.crew
  handoffs := h.inv_step a
  waits := h.waits
  own := by
    intro job outcome houtcome
    rw [hproduced] at houtcome
    exact h.own job outcome houtcome
  exited := hexited
  accepts := haccepts

/-- The pool takes a step that is a move of one job, which stays where it is. -/
theorem Kept.moved (h : s.Kept willWake bodies) {a : Action J W Wk P ((job : J) × β job)} {job : J}
    {m : Move Wk P ((job : J) × β job)}
    (hstep : s.pool.step willWake a = s.pool.move willWake job m)
    (hplace : ((s.pool.handoffs job).step willWake m).job.place =
      (s.pool.handoffs job).job.place)
    (hproduced : ((s.pool.handoffs job).step willWake m).produced = (s.pool.handoffs job).produced)
    (hdropped : ((s.pool.handoffs job).step willWake m).job = .dropped →
      (s.pool.handoffs job).job = .dropped) :
    Kept willWake bodies { s with pool := s.pool.step willWake a } := by
  refine h.quiet ?_ ?_ ?_ ?_
  · rw [hstep]
    exact roster_move hplace s.sent s.begun
  · rw [hstep]
    exact produced_move hproduced
  · rw [hstep]
    exact h.exited
  · rw [hstep]
    exact fun hopen other hno => h.accepts hopen other (dropped_move hdropped other hno)

theorem Kept.poll (h : s.Kept willWake bodies) (job : J) (waker : Wk) :
    Kept willWake bodies (s.step willWake env (.poll job waker)) := by
  obtain ⟨hjob, hproduced, -⟩ := poll_keeps willWake (s.pool.handoffs job) waker
  exact h.moved rfl (by rw [hjob]) hproduced (by rw [hjob]; exact id)

theorem Kept.drop (h : s.Kept willWake bodies) (job : J) :
    Kept willWake bodies (s.step willWake env (.drop job)) := by
  obtain ⟨hjob, hproduced⟩ := drop_keeps willWake (s.pool.handoffs job)
  exact h.moved rfl (by rw [hjob]) hproduced (by rw [hjob]; exact id)

theorem Kept.close (h : s.Kept willWake bodies) :
    Kept willWake bodies (s.step willWake env .close) :=
  h.quiet rfl (fun _ => rfl) (fun worker hexited => ⟨rfl, (h.exited worker hexited).2⟩)
    fun hopen => by cases hopen

theorem Kept.store (h : s.Kept willWake bodies) (worker : W) :
    Kept willWake bodies (s.step willWake env (.store worker)) := by
  cases hworker : s.pool.workers worker with
  | waiting | exited =>
    have hsame : s.pool.step willWake (.store worker) = s.pool := by simp only [Pool.step, hworker]
    rw [Host.step, hsame]
    exact h
  | busy job =>
    have hmove : s.pool.step willWake (.store worker) = s.pool.move willWake job .store := by
      simp only [Pool.step, hworker]
    refine h.moved hmove ?_ ?_ ?_
    · rw [Handoff.step]
      split <;> simp_all [Job.place]
    · rw [Handoff.step]
      split <;> rfl
    · rw [Handoff.step]
      split <;> simp

/-- The outcome that the closure came to is the job's. -/
theorem Kept.ran (h : s.Kept willWake bodies) {worker : W} {job : J}
    (hworker : s.pool.workers worker = .busy job) (hjob : (s.pool.handoffs job).job = .running)
    {out : Outcome P (β job)} (hout : s.inner.threads job = .done out) :
    Kept willWake bodies
      { s with pool := s.pool.step willWake (.run worker (out.map (Sigma.mk job))) } := by
  have hmove : s.pool.step willWake (.run worker (out.map (Sigma.mk job))) =
      s.pool.move willWake job (.run (out.map (Sigma.mk job))) := by
    simp only [Pool.step, hworker]
  have hplace : ((s.pool.handoffs job).step willWake (.run (out.map (Sigma.mk job)))).job.place =
      (s.pool.handoffs job).job.place := by
    rw [Handoff.step, hjob]
    rfl
  have hinv := h.handoffs job
  rw [Inv, hjob] at hinv
  refine ⟨?_, h.inv_step _, h.waits, ?_, ?_, ?_⟩
  · rw [hmove, roster_move hplace]
    exact h.crew
  · intro other outcome houtcome
    rw [hmove] at houtcome
    by_cases heq : other = job
    · subst heq
      simp only [Pool.move, Function.update_self, Handoff.step, hjob, hinv.1, List.nil_append,
        List.mem_singleton] at houtcome
      exact ⟨out, hout, houtcome⟩
    · simp only [Pool.move, Function.update_of_ne heq] at houtcome
      exact h.own other outcome houtcome
  · rw [hmove]
    exact h.exited
  · rw [hmove]
    refine fun hopen other hno => h.accepts hopen other (dropped_move ?_ other hno)
    rw [Handoff.step, hjob]
    exact fun hno => by cases hno

omit [DecidableEq W] in
/-- One step of a closure that has begun and is not done. -/
theorem Kept.driven (h : s.Kept willWake bodies) {job : J}
    (hjob : (s.pool.handoffs job).job = .running) :
    Kept willWake bodies { s with inner := s.inner.step env job } := by
  have hinv := h.handoffs job
  rw [Inv, hjob] at hinv
  refine ⟨h.crew, h.handoffs, ?_, ?_, h.exited, h.accepts⟩
  · intro other hother
    have hne : other ≠ job := by
      rintro rfl
      refine hother (h.crew.mem_begun.2 (Or.inl ?_))
      simp only [Pool.roster, hjob, Job.place]
    rw [Pool.threads_step_of_ne env s.inner hne]
    exact h.waits other hother
  · intro other outcome houtcome
    have hne : other ≠ job := by
      rintro rfl
      rw [hinv.1] at houtcome
      cases houtcome
    rw [Pool.threads_step_of_ne env s.inner hne]
    exact h.own other outcome houtcome

theorem Kept.drive (h : s.Kept willWake bodies) (worker : W) :
    Kept willWake bodies (s.step willWake env (.drive worker)) := by
  rw [Host.step]
  split
  · next job hworker =>
    split
    · next q next hjob hthread => exact h.driven hjob
    · next out hjob hthread => exact h.ran hworker hjob hthread
    · exact h
  · exact h

theorem Kept.run (h : s.Kept willWake bodies) (job : J) :
    Kept willWake bodies (s.step willWake env (.run job)) := by
  rw [Host.step]
  split
  · next hfuture =>
    obtain ⟨hjob, hproduced⟩ := (h.handoffs job).of_unsent hfuture
    have hmove : (s.pool.step willWake (.submit job)).handoffs =
        (s.pool.move willWake job (.submit s.pool.sender)).handoffs := by
      simp only [Pool.step, hfuture]
    have hsame : ∀ other, ((s.pool.step willWake (.submit job)).handoffs other).produced =
        (s.pool.handoffs other).produced := by
      rw [hmove]
      exact produced_move (by rw [Handoff.step, hfuture])
    have hrest : (s.pool.step willWake (.submit job)).workers = s.pool.workers ∧
        (s.pool.step willWake (.submit job)).sender = s.pool.sender := by
      simp only [Pool.step, hfuture]
      exact ⟨rfl, rfl⟩
    cases hopen : s.pool.sender with
    | false =>
      simp only [Bool.false_eq_true, if_false]
      refine h.quiet (roster_refused hfuture hjob hopen) hsame ?_ ?_
      · rw [hrest.1, hrest.2]
        intro worker hexited
        refine ⟨hopen, ?_⟩
        simpa [Pool.step, hfuture, hopen] using (h.exited worker hexited).2
      · rw [hrest.2, hopen]
        exact fun hno => by cases hno
    | true =>
      have hplace : (s.pool.roster s.sent s.begun).place job = .outside := by
        simp only [Pool.roster, hjob, Job.place]
      refine ⟨?_, h.inv_step _, h.waits, ?_, ?_, ?_⟩
      · simp only [if_true]
        rw [roster_send hfuture hopen]
        exact h.crew.send hplace
      · intro other outcome houtcome
        rw [hsame] at houtcome
        exact h.own other outcome houtcome
      · rw [hrest.1, hrest.2]
        intro worker hexited
        exact absurd hopen (by rw [(h.exited worker hexited).1]; simp)
      · rw [hmove]
        refine fun _ other hno => h.accepts hopen other (dropped_move ?_ other hno)
        rw [Handoff.step, hfuture, hopen]
        exact fun hno => by cases hno
  · exact h

theorem Kept.recv (h : s.Kept willWake bodies) (worker : W) :
    Kept willWake bodies (s.step willWake env (.recv worker)) := by
  rw [Host.step]
  split
  · next job rest hworker hqueue =>
    have hplace := (h.crew.queued job).2 (show job ∈ s.pool.queue by simp [hqueue])
    have hjob : (s.pool.handoffs job).job = .queued := by
      cases hcase : (s.pool.handoffs job).job <;>
        simp only [Pool.roster, hcase, Job.place, reduceCtorEq] at hplace ⊢
    have hfree : (s.pool.roster s.sent s.begun).hand worker = none := by
      simp only [Pool.roster, hworker, Worker.hand]
    have hcrew := h.crew.take hfree hqueue
    rw [← roster_take hworker hqueue hjob] at hcrew
    have hmove : (s.pool.step willWake (.recv worker)).handoffs =
        (s.pool.move willWake job .recv).handoffs := by
      simp only [Pool.step, hworker, hqueue]
      rfl
    refine ⟨hcrew, h.inv_step _, ?_, ?_, ?_, ?_⟩
    · intro other hother
      exact h.waits other fun hbegun => hother (List.mem_append_left _ hbegun)
    · intro other outcome houtcome
      rw [hmove, produced_move (by rw [Handoff.step, hjob])] at houtcome
      exact h.own other outcome houtcome
    · intro other hexited
      have hother : s.pool.workers other = .exited := by
        by_cases heq : other = worker
        · subst heq
          simp [Pool.step, hworker, hqueue, Pool.move, Pool.assign] at hexited
        · simpa [Pool.step, hworker, hqueue, Pool.move, Pool.assign, heq] using hexited
      have hempty := (h.exited other hother).2
      rw [hqueue] at hempty
      cases hempty
    · have hsender : (s.pool.step willWake (.recv worker)).sender = s.pool.sender := by
        simp only [Pool.step, hworker, hqueue]
        rfl
      rw [hmove, hsender]
      refine fun hopen other hno => h.accepts hopen other (dropped_move ?_ other hno)
      rw [Handoff.step, hjob]
      exact fun hno => by cases hno
  · next hnot =>
    cases hworker : s.pool.workers worker with
    | busy job | exited =>
      have hsame : s.pool.step willWake (.recv worker) = s.pool := by
        simp only [Pool.step, hworker]
      rw [hsame]
      exact h
    | waiting =>
      cases hqueue : s.pool.queue with
      | cons job rest => exact absurd hqueue (hnot job rest hworker)
      | nil =>
        refine h.quiet (roster_exit hworker hqueue) ?_ ?_ ?_
        · intro job
          simp only [Pool.step, hworker, hqueue]
          split <;> rfl
        · simp only [Pool.step, hworker, hqueue]
          split
          · exact h.exited
          · next hclosed =>
            exact fun _ _ => ⟨by simpa [Pool.assign] using hclosed, hqueue⟩
        · simp only [Pool.step, hworker, hqueue]
          split
          · exact h.accepts
          · exact h.accepts

theorem Kept.wake (h : s.Kept willWake bodies) (worker : W) :
    Kept willWake bodies (s.step willWake env (.wake worker)) := by
  have hsame : s.pool.step willWake (.wake worker) = s.pool →
      Kept willWake bodies (s.step willWake env (.wake worker)) := by
    intro hstep
    rw [Host.step, hstep]
    exact h
  cases hworker : s.pool.workers worker with
  | waiting | exited => exact hsame (by simp only [Pool.step, hworker])
  | busy job =>
    cases hjob : (s.pool.handoffs job).job with
    | unsent | dropped | queued | running | ran outcome | finished =>
      exact hsame (by simp only [Pool.step, hworker, hjob])
    | waking waker =>
      have hhand : (s.pool.roster s.sent s.begun).hand worker = some job := by
        simp only [Pool.roster, hworker, Worker.hand]
      have hcrew := h.crew.finish hhand
      rw [← roster_finish hworker hjob] at hcrew
      have hmove : (s.pool.step willWake (.wake worker)).handoffs =
          (s.pool.move willWake job .wake).handoffs := by
        simp only [Pool.step, hworker, hjob]
        rfl
      have hrest : (s.pool.step willWake (.wake worker)).sender = s.pool.sender ∧
          (s.pool.step willWake (.wake worker)).queue = s.pool.queue := by
        simp only [Pool.step, hworker, hjob]
        exact ⟨rfl, rfl⟩
      refine ⟨hcrew, h.inv_step _, h.waits, ?_, ?_, ?_⟩
      · intro other outcome houtcome
        rw [Host.step, hmove, produced_move (by rw [Handoff.step, hjob])] at houtcome
        exact h.own other outcome houtcome
      · intro other hexited
        have hother : s.pool.workers other = .exited := by
          by_cases heq : other = worker
          · subst heq
            simp [Host.step, Pool.step, hworker, hjob, Pool.move, Pool.assign] at hexited
          · simpa [Host.step, Pool.step, hworker, hjob, Pool.move, Pool.assign, heq] using hexited
        rw [Host.step, hrest.1, hrest.2]
        exact h.exited other hother
      · rw [Host.step, hmove, hrest.1]
        refine fun hopen other hno => h.accepts hopen other (dropped_move ?_ other hno)
        rw [Handoff.step, hjob]
        exact fun hno => by cases hno

theorem Kept.step (h : s.Kept willWake bodies) (turn : Turn J W Wk) :
    Kept willWake bodies (s.step willWake env turn) := by
  cases turn with
  | run job => exact h.run job
  | recv worker => exact h.recv worker
  | drive worker => exact h.drive worker
  | store worker => exact h.store worker
  | wake worker => exact h.wake worker
  | poll job waker => exact h.poll job waker
  | drop job => exact h.drop job
  | close => exact h.close

theorem kept_run (willWake : Wk → Wk → Bool) (env : (q : Q) → σ → Option (A q × σ)) (world : σ)
    (bodies : (job : J) → Program Q A (Outcome P (β job))) (turns : List (Turn J W Wk)) :
    ((spawn world bodies).run willWake env turns).Kept willWake bodies :=
  keeps (fun _ turn h => h.step turn) turns (kept_spawn world)

/-! ## What the offloaded closures come to -/

def Stuck (willWake : Wk → Wk → Bool) (env : (q : Q) → σ → Option (A q × σ))
    (s : Host J W Wk P A β σ) : Prop :=
  ∀ worker, s.step willWake env (.recv worker) = s ∧ s.step willWake env (.drive worker) = s ∧
    s.step willWake env (.store worker) = s ∧ s.step willWake env (.wake worker) = s

/-- The closures run side by side, as they would without the pool, but each only once it has come
out of the channel and never more of them at a time than there are workers. A call gets what its
own closure came to. A closed pool works off every closure it was given, and waits for no more
than the closures that themselves wait. -/
structure Served (env : (q : Q) → σ → Option (A q × σ)) (world : σ)
    (bodies : (job : J) → Program Q A (Outcome P (β job))) (willWake : Wk → Wk → Bool)
    (s : Host J W Wk P A β σ) : Prop where
  direct : ∃ schedule, s.inner = (Effects.Pool.start world bodies).run env schedule
  once : s.sent.Nodup
  inOrder : s.begun <+: s.sent
  accepts : s.pool.sender = true → ∀ job, (s.pool.handoffs job).future ≠ .unsent → job ∈ s.sent
  waits : ∀ job, job ∉ s.begun → s.inner.threads job = bodies job
  few : {job | job ∈ s.begun ∧ ¬ (s.inner.threads job).Done}.encard ≤ ENat.card W
  own : ∀ job, ∀ result ∈ (s.pool.handoffs job).results,
    ∃ out, s.inner.threads job = .done out ∧ result = .of (out.map (Sigma.mk job))
  drained : (∀ worker, s.pool.workers worker = .exited) →
    ∀ job ∈ s.sent, (s.inner.threads job).Done
  waitsFor : s.pool.sender = false → s.Stuck willWake env → ∀ worker,
    s.pool.workers worker = .exited ∨ ∃ job q next, s.pool.workers worker = .busy job ∧
      s.inner.threads job = .call q next ∧ env q s.inner.shared = none

omit [DecidableEq W] [DecidableEq J] in
theorem Kept.done_of_finished (h : s.Kept willWake bodies) {job : J}
    (hplace : (s.pool.handoffs job).job.place = .finished) : (s.inner.threads job).Done := by
  obtain ⟨outcome, hproduced⟩ := (h.handoffs job).produced_of_finished hplace
  obtain ⟨out, hthread, -⟩ := h.own job outcome (by simp [hproduced])
  rw [hthread]
  trivial

theorem Kept.stuck (h : s.Kept willWake bodies) (hclosed : s.pool.sender = false)
    (hstuck : s.Stuck willWake env) (worker : W) :
    s.pool.workers worker = .exited ∨ ∃ job q next, s.pool.workers worker = .busy job ∧
      s.inner.threads job = .call q next ∧ env q s.inner.shared = none := by
  obtain ⟨hrecv, hdrive, hstore, hwake⟩ := hstuck worker
  cases hworker : s.pool.workers worker with
  | exited => exact .inl rfl
  | waiting =>
    left
    cases hqueue : s.pool.queue with
    | nil =>
      have hnow := congrArg (fun s => s.pool.workers worker) hrecv
      simp [Host.step, Pool.step, hworker, hqueue, hclosed, Pool.assign] at hnow
    | cons job rest =>
      have hnow := congrArg (fun s => s.begun.length) hrecv
      simp [Host.step, hworker, hqueue] at hnow
  | busy job =>
    have hplace : (s.pool.handoffs job).job.place = .inHand :=
      (h.crew.inHand job).2 ⟨worker, Worker.hand_iff.2 hworker⟩
    cases hjob : (s.pool.handoffs job).job with
    | unsent | dropped | queued | finished =>
      rw [hjob] at hplace
      cases hplace
    | ran outcome =>
      have hnow := congrArg (fun s => (s.pool.handoffs job).job) hstore
      simp [Host.step, Pool.step, hworker, Pool.move, Handoff.step, hjob] at hnow
    | waking waker =>
      have hnow := congrArg (fun s => (s.pool.handoffs job).job) hwake
      simp [Host.step, Pool.step, hworker, Pool.move, Pool.assign, Handoff.step, hjob] at hnow
    | running =>
      cases hthread : s.inner.threads job with
      | done out =>
        have hnow := congrArg (fun s => (s.pool.handoffs job).job) hdrive
        simp [Host.step, Pool.step, hworker, Pool.move, Handoff.step, hjob, hthread] at hnow
      | call q next =>
        right
        refine ⟨job, q, next, rfl, hthread, ?_⟩
        cases hans : env q s.inner.shared with
        | none => rfl
        | some answer =>
          have hnow := congrArg (fun s => s.inner.log.length) hdrive
          simp [Host.step, hworker, hjob, hthread, Pool.step_of_call env hthread hans] at hnow

/-- On the inner tier, a turn is a step of one closure or nothing. -/
theorem step_inner (s : Host J W Wk P A β σ) (turn : Turn J W Wk) :
    (s.step willWake env turn).inner = s.inner ∨
      ∃ job, (s.step willWake env turn).inner = s.inner.step env job := by
  cases turn with
  | run job =>
    rw [Host.step]
    split <;> exact .inl rfl
  | recv worker =>
    rw [Host.step]
    split <;> exact .inl rfl
  | drive worker =>
    rw [Host.step]
    split
    · next job _ =>
      split
      · exact .inr ⟨job, rfl⟩
      · exact .inl rfl
      · exact .inl rfl
    · exact .inl rfl
  | store worker | wake worker | poll job waker | drop job | close => exact .inl rfl

theorem run_direct (world : σ) (bodies : (job : J) → Program Q A (Outcome P (β job)))
    (turns : List (Turn J W Wk)) :
    ∃ schedule, ((spawn world bodies).run willWake env turns).inner =
      (Effects.Pool.start world bodies).run env schedule := by
  have hstep : ∀ (s : Host J W Wk P A β σ) (turn : Turn J W Wk),
      (∃ schedule, s.inner = (Effects.Pool.start world bodies).run env schedule) →
      ∃ schedule, (s.step willWake env turn).inner =
        (Effects.Pool.start world bodies).run env schedule := by
    rintro s turn ⟨schedule, hschedule⟩
    obtain hsame | ⟨job, hnext⟩ := step_inner s turn
    · exact ⟨schedule, hsame.trans hschedule⟩
    · refine ⟨schedule ++ [job], ?_⟩
      rw [hnext, hschedule, Effects.Pool.run, Effects.Pool.run, List.foldl_append]
      rfl
  exact keeps hstep turns ⟨[], rfl⟩

omit [DecidableEq W] in
theorem Kept.accepted (h : s.Kept willWake bodies) (hopen : s.pool.sender = true) {job : J}
    (hfuture : (s.pool.handoffs job).future ≠ .unsent) : job ∈ s.sent := by
  by_contra hnot
  have hplace : (s.pool.handoffs job).job.place = .outside := (h.crew.outside job).2 hnot
  cases hjob : (s.pool.handoffs job).job with
  | unsent => exact hfuture ((h.handoffs job).unsent_iff.1 hjob)
  | dropped => exact h.accepts hopen job hjob
  | queued | running | ran outcome | waking waker | finished =>
    rw [hjob] at hplace
    cases hplace

omit [DecidableEq J] [DecidableEq W] in
/-- Only the workers' own jobs are under way. -/
theorem Kept.few (h : s.Kept willWake bodies) :
    {job | job ∈ s.begun ∧ ¬ (s.inner.threads job).Done}.encard ≤ ENat.card W := by
  refine (Set.encard_le_encard ?_).trans h.crew.encard_inHand
  rintro job ⟨hbegun, hnot⟩
  obtain hplace | hplace := h.crew.mem_begun.1 hbegun
  · exact hplace
  · exact absurd (h.done_of_finished hplace) hnot

omit [DecidableEq J] [DecidableEq W] in
theorem Kept.drained [Nonempty W] (h : s.Kept willWake bodies)
    (hexited : ∀ worker, s.pool.workers worker = .exited) {job : J} (hsent : job ∈ s.sent) :
    (s.inner.threads job).Done := by
  have hqueue : s.pool.queue = [] := (h.exited _ (hexited (Classical.arbitrary W))).2
  refine h.done_of_finished (h.crew.finished hqueue (fun worker => ?_) hsent)
  simp only [Pool.roster, hexited worker, Worker.hand]

omit [DecidableEq J] [DecidableEq W] in
theorem Kept.results (h : s.Kept willWake bodies) (job : J) (result : Poll P ((job : J) × β job))
    (hresult : result ∈ (s.pool.handoffs job).results) :
    ∃ out, s.inner.threads job = .done out ∧ result = .of (out.map (Sigma.mk job)) := by
  obtain ⟨outcome, hproduced, rfl⟩ := (h.handoffs job).delivered.own result hresult
  obtain ⟨out, hthread, rfl⟩ := h.own job outcome (by simp [hproduced])
  exact ⟨out, hthread, rfl⟩

/-- Every run of the pool serves its closures. -/
theorem served_run [Nonempty W] (willWake : Wk → Wk → Bool)
    (env : (q : Q) → σ → Option (A q × σ)) (world : σ)
    (bodies : (job : J) → Program Q A (Outcome P (β job))) (turns : List (Turn J W Wk)) :
    ((spawn world bodies).run willWake env turns).Served env world bodies willWake where
  direct := run_direct world bodies turns
  once := (kept_run willWake env world bodies turns).crew.nodup
  inOrder := (kept_run willWake env world bodies turns).crew.begun_prefix
  accepts := fun hopen _ => (kept_run willWake env world bodies turns).accepted hopen
  waits := (kept_run willWake env world bodies turns).waits
  few := (kept_run willWake env world bodies turns).few
  own := (kept_run willWake env world bodies turns).results
  drained := fun hexited _ => (kept_run willWake env world bodies turns).drained hexited
  waitsFor := (kept_run willWake env world bodies turns).stuck

end Host
end Hosting
end Offload

/-! ## The tier -/

inductive OffloadCall (K V C : Type) where
  | call (c : TierCall K V)
  | readRange (key : K) (start stop : UInt64)
  | list (cursor : Option C) (limit : Nat)

abbrev OffloadCall.Output (E : Type) {K V C : Type} : OffloadCall K V C → Type
  | .call c => Except E c.Output
  | .readRange _ _ _ => Except E (Option V)
  | .list _ _ => Except E (Page K C)

structure InnerTier (K V C E P : Type) {Q : Type} (A : Q → Type) where
  get : K → Program Q A (Offload.Outcome P (Except E (Option V)))
  exists_ : K → Program Q A (Offload.Outcome P (Except E Bool))
  getMany : List K → Program Q A (Offload.Outcome P (Except E (List (Option V))))
  readRange : K → UInt64 → UInt64 → Program Q A (Offload.Outcome P (Except E (Option V)))
  put : K → V → Program Q A (Offload.Outcome P (Except E (Displaced K V)))
  delete : K → Program Q A (Offload.Outcome P (Except E Bool))
  putMany : List (K × V) → Program Q A (Offload.Outcome P (Except E (Displaced K V)))
  deleteMany : List K → Program Q A (Offload.Outcome P (Except E (List Bool)))
  list : Option C → Nat → Program Q A (Offload.Outcome P (Except E (Page K C)))

namespace OffloadTier
variable {K V C E P Q σ J Wk : Type} {A : Q → Type}

def closure (inner : InnerTier K V C E P A) :
    (c : OffloadCall K V C) → Program Q A (Offload.Outcome P (c.Output E))
  | .call (.get key) => inner.get key
  | .call (.exists_ key) => inner.exists_ key
  | .call (.getMany keys) => inner.getMany keys
  | .call (.put key value) => inner.put key value
  | .call (.delete key) => inner.delete key
  | .call (.putMany entries) => inner.putMany entries
  | .call (.deleteMany keys) => inner.deleteMany keys
  | .readRange key start stop => inner.readRange key start stop
  | .list cursor limit => inner.list cursor limit

def new (inner : InnerTier K V C E P A) (threads : ℕ+) (world : σ)
    (calls : J → OffloadCall K V C) :
    Offload.Host J (Fin threads) Wk P A (fun job => (calls job).Output E) σ :=
  Offload.Host.spawn world fun job => closure inner (calls job)

/-- Offloading is transparent: in every run, the calls are served as the inner tier serves them
when they are made of it side by side. -/
theorem served_directly [DecidableEq J] (willWake : Wk → Wk → Bool)
    (env : (q : Q) → σ → Option (A q × σ)) (inner : InnerTier K V C E P A) (threads : ℕ+)
    (world : σ) (calls : J → OffloadCall K V C) (turns : List (Offload.Turn J (Fin threads) Wk)) :
    ((new inner threads world calls).run willWake env turns).Served env world
      (fun job => closure inner (calls job)) willWake :=
  have : Nonempty (Fin threads) := ⟨⟨0, threads.pos⟩⟩
  Offload.Host.served_run willWake env world _ turns

end OffloadTier
end Tierstore
