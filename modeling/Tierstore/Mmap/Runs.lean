import Mathlib.Data.Fintype.Basic
import Tierstore.Lib.Runs
import Tierstore.Mmap.Steps

/-! Concurrent calls on the mmap tier: the conditions on each step, and the invariant of the
runs that meet them. -/
namespace Tierstore.Mmap
open Overlay Effects

variable {K ι : Type} {calls : ι → MmapCall K}

def asks (c : MmapPool K calls) (j : ι) : Option (MmapQuery K) := (c.threads j).asks

/-- No put starts while another put of its key is under way. -/
def StartsAlone (calls : ι → MmapCall K) (asks : ι → Option (MmapQuery K)) (i : ι) :
    MmapQuery K → Prop
  | .writeTmp key _ => ∀ j ≠ i, writing (calls j) (asks j) ≠ some key
  | _ => True

/-- The step keeps out of the windows that the tier's lock leaves open: a put's rename to its
lock section, a delete's lock section to its unlink, and a get's map to its insert. -/
def Avoids [DecidableEq K] (config : Config) (calls : ι → MmapCall K) (s : State K)
    (asks : ι → Option (MmapQuery K)) (i : ι) : MmapQuery K → Prop
  | .rename key => ∀ j, removing (calls j) (asks j) ≠ some key
  | .forget key => ∀ j, publishing (calls j) (asks j) ≠ some key
  | .account key len mapped => ∀ x ∈ evicted config s key len mapped,
    ∀ j ≠ i, publishing (calls j) (asks j) ≠ some x
  | .retain key bytes => key ∈ s.inner.sizes →
    s.disk.files key = some bytes ∨ ∃ j, publishing (calls j) (asks j) = some key
  | _ => True

def PutsApart (c : MmapPool K calls) (i : ι) : Prop :=
  ∀ q ∈ asks c i, StartsAlone calls (asks c) i q

def Careful [DecidableEq K] (config : Config) (c : MmapPool K calls) (i : ι) : Prop :=
  ∀ q ∈ asks c i, Avoids config calls c.shared (asks c) i q

section Decide
variable [DecidableEq K] [DecidableEq ι] [Fintype ι] {asks : ι → Option (MmapQuery K)} {i : ι}

instance : (q : MmapQuery K) → Decidable (StartsAlone calls asks i q)
  | .writeTmp key _ =>
    inferInstanceAs (Decidable (∀ j, j ≠ i → writing (calls j) (asks j) ≠ some key))
  | .rename _ | .map _ | .unlink _ | .probe _ | .retain _ _ | .account _ _ _ | .forget _ =>
    isTrue trivial

instance {config : Config} {s : State K} :
    (q : MmapQuery K) → Decidable (Avoids config calls s asks i q)
  | .rename key => inferInstanceAs (Decidable (∀ j, removing (calls j) (asks j) ≠ some key))
  | .forget key => inferInstanceAs (Decidable (∀ j, publishing (calls j) (asks j) ≠ some key))
  | .account key len mapped =>
    inferInstanceAs (Decidable (∀ x ∈ evicted config s key len mapped,
      ∀ j, j ≠ i → publishing (calls j) (asks j) ≠ some x))
  | .retain key bytes =>
    inferInstanceAs (Decidable (key ∈ s.inner.sizes →
      s.disk.files key = some bytes ∨ ∃ j, publishing (calls j) (asks j) = some key))
  | .writeTmp _ _ | .map _ | .unlink _ | .probe _ => isTrue trivial

instance (c : MmapPool K calls) (i : ι) : Decidable (PutsApart c i) :=
  inferInstanceAs (Decidable (∀ q ∈ Mmap.asks c i, _))

instance {config : Config} (c : MmapPool K calls) (i : ι) : Decidable (Careful config c i) :=
  inferInstanceAs (Decidable (∀ q ∈ Mmap.asks c i, _))

end Decide

def acknowledged : (c : MmapCall K) → MmapM K c.Output → Option (K × Bytes)
  | .put key value, .done (.ok _) => some (key, value)
  | _, _ => none

def handedBack : (c : MmapCall K) → MmapM K c.Output → Displaced K Bytes
  | .put _ _, .done (.ok displaced) => displaced
  | _, _ => []

theorem call_of_acknowledged {c : MmapCall K} {p : MmapM K c.Output} {key : K} {value : Bytes}
    (h : acknowledged c p = some (key, value)) : c = .put key value := by
  unfold acknowledged at h
  split at h
  · cases h
    rfl
  · cases h

/-- A call that has not returned has handed nothing back. -/
theorem handedBack_of_asks {c : MmapCall K} {p : MmapM K c.Output} {q : MmapQuery K}
    (h : p.asks = some q) : handedBack c p = [] := by
  unfold handedBack
  split
  · cases h
  · rfl

/-- A put that is past its lock section has returned the section's displaced list. -/
theorem Staged.stored {c : MmapCall K} {p : MmapM K c.Output} {key : K} {value : Bytes}
    {displaced : Displaced K Bytes} (h : Staged c p (.stored displaced))
    (hc : c = .put key value) :
    Mmap.acknowledged c p = some (key, value) ∧ handedBack c p = displaced := by
  subst hc
  cases p with
  | done a =>
    obtain rfl : a = .ok displaced := h
    exact ⟨rfl, rfl⟩
  | call q next => cases h.1

/-- A put that returned and did not fail is acknowledged. -/
theorem Staged.acknowledged {c : MmapCall K} {p : MmapM K c.Output} {stage : Stage K}
    (h : Staged c p stage) {key : K} {value : Bytes} (hc : c = .put key value) (hdone : p.Done)
    (hstage : stage ≠ .failed) : Mmap.acknowledged c p = some (key, value) := by
  subst hc
  cases p with
  | done a =>
    cases stage with
    | stored displaced =>
      obtain rfl : a = .ok displaced := h
      rfl
    | failed => exact absurd rfl hstage
    | _ => exact h.elim
  | call q next => exact hdone.elim

/-- An acknowledged put has passed its lock section. -/
theorem Staged.of_acknowledged {c : MmapCall K} {p : MmapM K c.Output} {stage : Stage K}
    (h : Staged c p stage) {key : K} {value : Bytes}
    (hack : Mmap.acknowledged c p = some (key, value)) :
    ∃ displaced, stage = .stored displaced := by
  unfold Mmap.acknowledged at hack
  split at hack
  · cases stage <;> first | exact ⟨_, rfl⟩ | cases h
  · cases hack

variable [DecidableEq K] [DecidableEq ι]

structure Live (c : MmapPool K calls) (stage : ι → Stage K) : Prop where
  sound : Sound calls c.shared (asks c)
  staged : ∀ j, Staged (calls j) (c.threads j) (stage j)
  stored : ∀ j, stage j ≠ .failed
  begun : ∀ j, (∀ q, (j, q) ∉ c.log) → stage j = .start

variable {config : Config} {c : MmapPool K calls} {stage : ι → Stage K} {i : ι}

/-- A call's next query keeps the invariant if its step is careful. -/
theorem Sound.query {s : State K} {asks : ι → Option (MmapQuery K)} (h : Sound calls s asks)
    {stage : Stage K} {q : MmapQuery K} (hask : asks i = some q)
    (hq : nextQuery (calls i) stage = some q) (hapart : StartsAlone calls asks i q)
    (hcareful : Avoids config calls s asks i q) :
    Sound calls (exec config q s).2
        (Function.update asks i (nextQuery (calls i) (advance stage q (exec config q s).1))) ∧
      advance stage q (exec config q s).1 ≠ .failed := by
  cases hcall : calls i with
  | put key value =>
    rw [hcall] at hq
    cases stage with
    | start =>
      cases hq
      exact ⟨h.writeTmp hcall hask hapart, fun e => by cases e⟩
    | written =>
      cases hq
      have hans : (exec config (.rename key) s).1 = .ok () := by
        simp only [exec, h.tmp_written hcall hask]
      rw [hans]
      exact ⟨h.rename hcall hask hcareful, fun e => by cases e⟩
    | renamed =>
      cases hq
      exact ⟨(h.mapNew hcall hask value.length).2, fun e => by cases e⟩
    | mapped bytes =>
      cases hq
      exact ⟨h.account hcall hask hcareful, fun e => by cases e⟩
    | _ => cases hq
  | get key =>
    rw [hcall] at hq
    cases stage with
    | start =>
      cases hq
      refine ⟨h.reads _ hcall (h.tracked.probe _ _) (Inner.probe_maps _ _ _)
        (Inner.probe_sizes _ _ _), ?_⟩
      cases (exec config (.probe key) s).1 <;> exact fun e => by cases e
    | missed =>
      cases hq
      refine ⟨h.reads s.inner hcall h.tracked rfl rfl, ?_⟩
      cases (exec config (.map key) s).1 <;> exact fun e => by cases e
    | fetched bytes =>
      cases hq
      exact ⟨h.retain hcall hcareful, fun e => by cases e⟩
    | _ => cases hq
  | delete key =>
    rw [hcall] at hq
    cases stage with
    | start =>
      cases hq
      exact ⟨h.forget hcall hask hcareful, fun e => by cases e⟩
    | forgotten =>
      cases hq
      exact ⟨h.unlink hcall hask, fun e => by cases e⟩
    | _ => cases hq

/-- A call that has returned takes no step. -/
theorem step_of_done (hask : asks c i = none) : step config c i = c := by
  obtain hsame | ⟨q, next, r, s, hthread, -, -⟩ :=
    Pool.step_cases (fun q s => some (exec config q s)) c i
  · exact hsame
  · unfold asks at hask
    rw [hthread] at hask
    cases hask

/-- What a careful step does. -/
theorem Live.step_asks (h : Live c stage) (hapart : PutsApart c i) (hcareful : Careful config c i)
    {q : MmapQuery K} (hask : asks c i = some q) :
    nextQuery (calls i) (stage i) = some q ∧
      (step config c i).shared = (exec config q c.shared).2 ∧
      (step config c i).log = (i, q) :: c.log ∧
      (∀ j ≠ i, (step config c i).threads j = c.threads j) ∧
      Live (step config c i)
        (Function.update stage i (advance (stage i) q (exec config q c.shared).1)) := by
  have hq : nextQuery (calls i) (stage i) = some q := (h.staged i).asks.symm.trans hask
  refine ⟨hq, ?_⟩
  cases hthread : c.threads i with
  | done a =>
    unfold asks at hask
    rw [hthread] at hask
    cases hask
  | call q' next =>
    obtain rfl : q' = q := by
      unfold asks at hask
      rw [hthread] at hask
      exact Option.some.inj hask
    obtain ⟨r, s, hr⟩ : ∃ r s, exec config q' c.shared = (r, s) := ⟨_, _, rfl⟩
    rw [step, Pool.step_of_call (fun q s => some (exec config q s)) hthread (congrArg some hr), hr]
    have hstaged : ∀ j, Staged (calls j) (Function.update c.threads i (next r) j)
        (Function.update stage i (advance (stage i) q' r) j) :=
      Pool.follows_step h.staged hthread trivial
    obtain ⟨hsound, hstored⟩ := h.sound.query hask hq (hapart _ hask) (hcareful _ hask)
    rw [hr] at hsound hstored
    refine ⟨rfl, rfl, fun j hj => Function.update_of_ne hj _ _, ?_, hstaged, fun j => ?_,
      fun j hj => ?_⟩
    · have hasks : (fun j => (Function.update c.threads i (next r) j).asks) =
          Function.update (asks c) i (nextQuery (calls i) (advance (stage i) q' r)) := by
        funext j
        refine (hstaged j).asks.trans ?_
        by_cases hj : j = i
        · subst hj
          simp
        · simp only [Function.update_of_ne hj]
          exact (h.staged j).asks.symm
      rw [← hasks] at hsound
      exact hsound
    · by_cases hj : j = i
      · subst hj
        rwa [Function.update_self]
      · rw [Function.update_of_ne hj]
        exact h.stored j
    · by_cases hji : j = i
      · subst hji
        exact absurd List.mem_cons_self (hj q')
      · rw [Function.update_of_ne hji]
        exact h.begun j fun q' hq' => hj q' (List.mem_cons_of_mem _ hq')

omit [DecidableEq ι] in
/-- Calls that have not started yet, on a tier whose accounting is exact. -/
theorem live_start {s : State K} (htracked : s.inner.Tracked)
    (hagrees : ∀ key, Agrees s.inner s.disk.files key) :
    Live (start calls s) fun _ => .start := by
  have hasks (j : ι) : asks (start calls s) j = nextQuery (calls j) .start :=
    (perform_staged (calls j)).asks
  have hwriting (j : ι) : writing (calls j) (asks (start calls s) j) = none := by
    rw [hasks]
    cases calls j <;> rfl
  refine ⟨⟨htracked, fun j => ?_, fun j _ key hj => ?_, fun j _ key hj => ?_,
    fun key _ _ => hagrees key⟩, fun j => perform_staged (calls j),
    fun _ => (by simp), fun _ _ => rfl⟩
  · rw [hasks]
    cases hcall : calls j <;> trivial
  · rw [hwriting] at hj
    cases hj
  · have hbusy := writing_of_publishing hj
    rw [hwriting] at hbusy
    cases hbusy

/-- Along a run of careful steps the calls are at some stages of theirs. -/
theorem live_run (inv : MmapPool K calls → (ι → Stage K) → Prop) {s : State K}
    (htracked : s.inner.Tracked) (hagrees : ∀ key, Agrees s.inner s.disk.files key)
    (hstart : inv (start calls s) fun _ => .start)
    (hstep : ∀ c stage i q, Live c stage → PutsApart c i → Careful config c i →
      asks c i = some q → inv c stage → inv (step config c i)
        (Function.update stage i (advance (stage i) q (exec config q c.shared).1)))
    {schedule : List ι}
    (hapart : Runs.Along (step config) PutsApart (start calls s) schedule)
    (hcareful : Runs.Along (step config) (Careful config) (start calls s) schedule) :
    ∃ stage, Live (run config (start calls s) schedule) stage ∧
      inv (run config (start calls s) schedule) stage := by
  refine @Runs.Along.keeps _ _ _ _ (fun c => ∃ stage, Live c stage ∧ inv c stage) ?_ _ _
    (hapart.and hcareful) ⟨_, live_start htracked hagrees, hstart⟩
  rintro c i ⟨stage, hlive, hinv⟩ ⟨hapart, hcareful⟩
  cases hask : asks c i with
  | none =>
    rw [step_of_done hask]
    exact ⟨stage, hlive, hinv⟩
  | some q =>
    obtain ⟨-, -, -, -, hnext⟩ := hlive.step_asks hapart hcareful hask
    exact ⟨_, hnext, hstep c stage i q hlive hapart hcareful hask hinv⟩

end Tierstore.Mmap
