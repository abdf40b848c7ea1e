import Mathlib.Data.List.Nodup
import Mathlib.Data.Set.Card
import Mathlib.Logic.Function.Basic

/-! A queue of jobs and a crew of workers: each worker takes the first job, has it in hand, and
finishes it before it takes another. -/
namespace Crew
variable {J W : Type}

inductive Place where
  | outside
  | queued
  | inHand
  | finished
  deriving DecidableEq

/-- `sent` is every job that came into the queue and `begun` every job that left it. -/
structure Roster (J W : Type) where
  queue : List J
  hand : W → Option J
  place : J → Place
  sent : List J
  begun : List J

structure Kept (r : Roster J W) : Prop where
  order : r.begun ++ r.queue = r.sent
  nodup : r.sent.Nodup
  outside : ∀ job, r.place job = .outside ↔ job ∉ r.sent
  queued : ∀ job, r.place job = .queued ↔ job ∈ r.queue
  inHand : ∀ job, r.place job = .inHand ↔ ∃ worker, r.hand worker = some job
  alone : ∀ worker other job, r.hand worker = some job → r.hand other = some job → worker = other

namespace Roster

def fresh : Roster J W :=
  { queue := [], hand := fun _ => none, place := fun _ => .outside, sent := [], begun := [] }

variable [DecidableEq J] [DecidableEq W]

def send (r : Roster J W) (job : J) : Roster J W :=
  { r with
    queue := r.queue ++ [job]
    place := Function.update r.place job .queued
    sent := r.sent ++ [job] }

def take (r : Roster J W) (worker : W) (job : J) (rest : List J) : Roster J W :=
  { r with
    queue := rest
    hand := Function.update r.hand worker (some job)
    place := Function.update r.place job .inHand
    begun := r.begun ++ [job] }

def finish (r : Roster J W) (worker : W) (job : J) : Roster J W :=
  { r with
    hand := Function.update r.hand worker none
    place := Function.update r.place job .finished }

variable (r : Roster J W)

theorem place_take_of_ne (worker : W) {job other : J} (h : other ≠ job) (rest : List J) :
    (r.take worker job rest).place other = r.place other := Function.update_of_ne h _ _

theorem hand_take_self (worker : W) (job : J) (rest : List J) :
    (r.take worker job rest).hand worker = some job := Function.update_self ..

theorem hand_take_of_ne {worker other : W} (h : other ≠ worker) (job : J) (rest : List J) :
    (r.take worker job rest).hand other = r.hand other := Function.update_of_ne h _ _

theorem place_finish_of_ne (worker : W) {job other : J} (h : other ≠ job) :
    (r.finish worker job).place other = r.place other := Function.update_of_ne h _ _

theorem hand_finish_self (worker : W) (job : J) : (r.finish worker job).hand worker = none :=
  Function.update_self ..

theorem hand_finish_of_ne {worker other : W} (h : other ≠ worker) (job : J) :
    (r.finish worker job).hand other = r.hand other := Function.update_of_ne h _ _

end Roster

theorem kept_fresh : Kept (Roster.fresh : Roster J W) where
  order := rfl
  nodup := List.nodup_nil
  outside := by simp [Roster.fresh]
  queued := by simp [Roster.fresh]
  inHand := by simp [Roster.fresh]
  alone := by simp [Roster.fresh]

namespace Kept
variable {r : Roster J W}

theorem begun_prefix (h : Kept r) : r.begun <+: r.sent := ⟨r.queue, h.order⟩

theorem mem_begun (h : Kept r) {job : J} :
    job ∈ r.begun ↔ r.place job = .inHand ∨ r.place job = .finished := by
  have hnodup := h.nodup
  have houtside := h.outside job
  have hqueued := h.queued job
  rw [← h.order] at hnodup houtside
  rw [List.mem_append] at houtside
  have hapart : job ∈ r.begun → job ∉ r.queue := fun hbegun hqueue =>
    List.disjoint_of_nodup_append hnodup hbegun hqueue
  cases hplace : r.place job with
  | outside =>
    rw [hplace] at houtside
    simpa using fun hbegun => houtside.1 rfl (Or.inl hbegun)
  | queued =>
    rw [hplace] at hqueued
    simpa using fun hbegun => hapart hbegun (hqueued.1 rfl)
  | inHand | finished =>
    rw [hplace] at houtside hqueued
    simp only [reduceCtorEq, false_iff, not_not] at houtside hqueued
    simpa using houtside.resolve_right hqueued

/-- There are no more jobs in hand than workers. -/
theorem encard_inHand (h : Kept r) : {job | r.place job = .inHand}.encard ≤ ENat.card W := by
  have hsubset : some '' {job | r.place job = .inHand} ⊆ r.hand '' Set.univ := by
    rintro _ ⟨job, hjob, rfl⟩
    obtain ⟨worker, hworker⟩ := (h.inHand job).1 hjob
    exact ⟨worker, Set.mem_univ worker, hworker⟩
  calc {job | r.place job = .inHand}.encard
      = (some '' {job | r.place job = .inHand}).encard :=
        ((Option.some_injective J).encard_image _).symm
    _ ≤ (r.hand '' Set.univ).encard := Set.encard_le_encard hsubset
    _ ≤ (Set.univ : Set W).encard := Set.encard_image_le _ _
    _ = ENat.card W := Set.encard_univ W

/-- With nothing left to take or in hand, every job is finished. -/
theorem finished (h : Kept r) (hqueue : r.queue = []) (hhand : ∀ worker, r.hand worker = none)
    {job : J} (hsent : job ∈ r.sent) : r.place job = .finished := by
  cases hplace : r.place job with
  | outside => exact absurd hsent ((h.outside job).1 hplace)
  | queued =>
    have hmem := (h.queued job).1 hplace
    rw [hqueue] at hmem
    cases hmem
  | inHand =>
    obtain ⟨worker, hworker⟩ := (h.inHand job).1 hplace
    rw [hhand worker] at hworker
    cases hworker
  | finished => rfl

variable [DecidableEq J] [DecidableEq W]

omit [DecidableEq W] in
theorem send (h : Kept r) {job : J} (hout : r.place job = .outside) : Kept (r.send job) := by
  have hfresh := (h.outside job).1 hout
  refine ⟨?_, ?_, fun other => ?_, fun other => ?_, fun other => ?_, h.alone⟩
  · rw [Roster.send, ← h.order, List.append_assoc]
  · exact List.nodup_append.2 ⟨h.nodup, List.nodup_singleton job, by
      rintro x hx y hy rfl
      exact hfresh (List.mem_singleton.1 hy ▸ hx)⟩
  · by_cases heq : other = job
    · simp [Roster.send, heq]
    · simp [Roster.send, heq, h.outside]
  · by_cases heq : other = job
    · simp [Roster.send, heq]
    · simp [Roster.send, heq, h.queued]
  · by_cases heq : other = job
    · have hno : ¬ ∃ worker, r.hand worker = some job := by
        rw [← h.inHand, hout]
        simp
      simpa [Roster.send, heq] using hno
    · simp [Roster.send, heq, h.inHand]

theorem take (h : Kept r) {worker : W} (hfree : r.hand worker = none) {job : J} {rest : List J}
    (hqueue : r.queue = job :: rest) : Kept (r.take worker job rest) := by
  have hplace : r.place job = .queued := (h.queued job).2 (by simp [hqueue])
  have hnohand : ∀ other, r.hand other ≠ some job := by
    intro other hother
    have hin := (h.inHand job).2 ⟨other, hother⟩
    rw [hplace] at hin
    cases hin
  have hsent : job ∈ r.sent := by
    rw [← h.order, hqueue]
    simp
  have hrest : job ∉ rest := by
    have hnodup := h.nodup
    rw [← h.order, hqueue] at hnodup
    exact (List.nodup_cons.1 (List.nodup_append.1 hnodup).2.1).1
  refine ⟨?_, h.nodup, fun other => ?_, fun other => ?_, fun other => ?_, ?_⟩
  · rw [Roster.take, ← h.order, hqueue, List.append_assoc]
    rfl
  · by_cases heq : other = job
    · simpa [Roster.take, heq] using hsent
    · simp [Roster.take, heq, h.outside]
  · by_cases heq : other = job
    · simpa [Roster.take, heq] using hrest
    · simp [Roster.take, heq, h.queued, hqueue]
  · by_cases heq : other = job
    · subst heq
      simpa [Roster.take] using ⟨worker, Function.update_self ..⟩
    · rw [r.place_take_of_ne worker heq, h.inHand]
      refine exists_congr fun x => ?_
      by_cases hx : x = worker
      · subst hx
        simp [r.hand_take_self, hfree, Ne.symm heq]
      · rw [r.hand_take_of_ne hx]
  · intro x y other hx hy
    by_cases hxw : x = worker <;> by_cases hyw : y = worker
    · rw [hxw, hyw]
    · subst hxw
      rw [r.hand_take_self] at hx
      rw [r.hand_take_of_ne hyw] at hy
      cases hx
      exact absurd hy (hnohand y)
    · subst hyw
      rw [r.hand_take_self] at hy
      rw [r.hand_take_of_ne hxw] at hx
      cases hy
      exact absurd hx (hnohand x)
    · rw [r.hand_take_of_ne hxw] at hx
      rw [r.hand_take_of_ne hyw] at hy
      exact h.alone x y other hx hy

theorem finish (h : Kept r) {worker : W} {job : J} (hhand : r.hand worker = some job) :
    Kept (r.finish worker job) := by
  have hplace : r.place job = .inHand := (h.inHand job).2 ⟨worker, hhand⟩
  have hkept : ∀ x other, (r.finish worker job).hand x = some other →
      x ≠ worker ∧ r.hand x = some other := by
    intro x other hx
    by_cases hxw : x = worker
    · subst hxw
      rw [r.hand_finish_self] at hx
      cases hx
    · rw [r.hand_finish_of_ne hxw] at hx
      exact ⟨hxw, hx⟩
  refine ⟨h.order, h.nodup, fun other => ?_, fun other => ?_, fun other => ?_, ?_⟩
  · by_cases heq : other = job
    · have hsent := h.outside job
      rw [hplace] at hsent
      simpa [Roster.finish, heq] using hsent
    · simp [Roster.finish, heq, h.outside]
  · by_cases heq : other = job
    · have hqueued := h.queued job
      rw [hplace] at hqueued
      simpa [Roster.finish, heq] using hqueued
    · simp [Roster.finish, heq, h.queued]
  · by_cases heq : other = job
    · subst heq
      have hno : ¬ ∃ x, (r.finish worker other).hand x = some other := by
        rintro ⟨x, hx⟩
        obtain ⟨hne, hold⟩ := hkept x other hx
        exact hne (h.alone x worker other hold hhand)
      simpa [Roster.finish] using hno
    · rw [r.place_finish_of_ne worker heq, h.inHand]
      refine exists_congr fun x => ?_
      by_cases hx : x = worker
      · subst hx
        simp [r.hand_finish_self, hhand, Ne.symm heq]
      · rw [r.hand_finish_of_ne hx]
  · intro x y other hx hy
    exact h.alone x y other (hkept x other hx).2 (hkept y other hy).2

end Kept
end Crew
