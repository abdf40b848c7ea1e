import Tierstore.Mmap.Durable

/-! Concurrent gets and puts on an mmap tier without a budget: what a get returns after an
overwrite. -/
namespace Tierstore.Mmap
open Overlay Effects

variable {K ι : Type} [DecidableEq K] [DecidableEq ι]

def found : (c : MmapCall K) → MmapM K c.Output → Option (Option Bytes)
  | .get _, .done (.ok bytes) => some bytes
  | _, _ => none

/-- A get at this stage returns `value`, if it has come across a value at all. -/
def Serves (value : Bytes) : Stage K → Prop
  | .start => True
  | .missed => True
  | .fetched bytes => bytes = value
  | .answered bytes => bytes = some value
  | _ => False

/-- While no put of its key has started since, an acknowledged put shows on disk; and the gets
that start after it and are at work before the next put starts serve its value. -/
structure Overwritten {calls : ι → MmapCall K} (c : MmapPool K calls) (stage : ι → Stage K) :
    Prop where
  onDisk : ∀ j key value, acknowledged (calls j) (c.threads j) = some (key, value) →
    (∀ i w, (i, .writeTmp key w) ∉ since j c.log) →
    (∀ i, writing (calls i) (asks c i) ≠ some key) ∧ c.shared.disk.files key = some value
  serves : ∀ j g key value, acknowledged (calls j) (c.threads j) = some (key, value) →
    calls g = .get key → (∀ q, (g, q) ∉ upTo j c.log) →
    (∀ i w, (i, .writeTmp key w) ∉ since j (upTo g c.log)) → Serves value (stage g)

variable {config : Config} {calls : ι → MmapCall K} {c : MmapPool K calls} {stage : ι → Stage K}
  {i : ι}

omit [DecidableEq ι] in
/-- Without a budget no step hands an entry back. -/
theorem nothing_displaced (hbudget : config.budget = none) {stage : Stage K} {q : MmapQuery K}
    {s : State K} {displaced : Displaced K Bytes}
    (h : advance stage q (exec config q s).1 = .stored displaced) : displaced = [] := by
  obtain ⟨key, len, mapped, rfl⟩ := query_of_stored h
  rw [advance_account] at h
  have haccount : (exec config (.account key len mapped) s).1 = [] :=
    congrArg Prod.fst (account_unbounded config s key len mapped hbudget)
  rw [← Stage.stored.inj h, haccount]

omit [DecidableEq ι] in
/-- What a tier without a budget shows of a key that no put is under way for. -/
theorem Live.settled_key (h : Live c stage) (hcalls : ∀ j key, calls j ≠ .delete key) {key : K}
    (hidle : ∀ j, writing (calls j) (asks c j) ≠ some key) :
    Agrees c.shared.inner c.shared.disk.files key := by
  refine h.sound.agrees key (fun j hj => hidle j (writing_of_publishing hj)) fun j hj => ?_
  unfold removing at hj
  split at hj
  · next hcall _ => exact hcalls j _ hcall
  · cases hj

/-- The file of an acknowledged put stays until the next put of its key starts. -/
theorem Overwritten.onDisk_step (h : Live c stage) (hover : Overwritten c stage)
    (hbudget : config.budget = none) (hcalls : ∀ j key, calls j ≠ .delete key)
    (hapart : PutsApart c i) (hcareful : Careful config c i) {q : MmapQuery K}
    (hask : asks c i = some q) {j : ι} {key : K} {value : Bytes}
    (hack : acknowledged (calls j) ((step config c i).threads j) = some (key, value))
    (hquiet : ∀ x w, (x, .writeTmp key w) ∉ since j (step config c i).log) :
    (∀ x, writing (calls x) (asks (step config c i) x) ≠ some key) ∧
      (step config c i).shared.disk.files key = some value := by
  obtain ⟨hq, hshared, hlog, hothers, hlive⟩ := h.step_asks hapart hcareful hask
  have hasks (x : ι) (hx : x ≠ i) : asks (step config c i) x = asks c x := by
    unfold asks
    rw [hothers x hx]
  have hnext : asks (step config c i) i =
      nextQuery (calls i) (advance (stage i) q (exec config q c.shared).1) := by
    refine (hlive.staged i).asks.trans ?_
    rw [Function.update_self]
  by_cases hji : j = i
  · -- the step acknowledges the put
    subst hji
    have hself := hlive.staged j
    rw [Function.update_self] at hself
    obtain ⟨displaced, hstored⟩ := hself.of_acknowledged hack
    have hcall := call_of_acknowledged hack
    obtain hback | hfile := h.acknowledge hcall hask hq hcareful rfl hstored
    · rw [nothing_displaced hbudget hstored] at hback
      cases hback
    · refine ⟨fun x hx => ?_, by rwa [hshared]⟩
      by_cases hxj : x = j
      · subst hxj
        rw [hnext, hstored, hcall] at hx
        cases hx
      · rw [hasks x hxj] at hx
        obtain ⟨own, len, mapped, rfl⟩ := query_of_stored hstored
        have hbusy : writing (calls j) (asks c j) = some key := by
          rw [hask, hcall]
          rfl
        exact hxj (h.sound.single x j key hx hbusy)
  · rw [hothers j hji] at hack
    rw [hlog, since_cons_of_ne (Ne.symm hji)] at hquiet
    obtain ⟨hidle, hfile⟩ := hover.onDisk j key value hack fun x w hmem =>
      hquiet x w (List.mem_cons_of_mem _ hmem)
    refine ⟨fun x hx => ?_, ?_⟩
    · by_cases hxi : x = i
      · subst hxi
        rw [hnext] at hx
        obtain hbusy | ⟨w, rfl⟩ := writing_of_advance hq _ hx
        · exact hidle x (by rwa [hask])
        · exact hquiet x w List.mem_cons_self
      · rw [hasks x hxi] at hx
        exact hidle x hx
    · rw [hshared]
      obtain hsame | ⟨⟨later, hcall⟩, rfl⟩ | ⟨hcall, -⟩ |
        ⟨own, later, len, mapped, displaced, bytes, -, -, hstored, -, hback⟩ :=
        h.sound.file_step hask hq (hcareful q hask) key
      · rw [hsame, hfile]
      · refine absurd ?_ (hidle i)
        rw [hask, hcall]
        rfl
      · exact absurd hcall (hcalls i key)
      · rw [nothing_displaced hbudget hstored] at hback
        cases hback

omit [DecidableEq ι] in
/-- A get's step, while the file of its key has the contents `value`. -/
theorem Serves.step {s : State K} {key : K} {value : Bytes}
    (hagrees : Agrees s.inner s.disk.files key) (hfile : s.disk.files key = some value)
    {stage : Stage K} {q : MmapQuery K} (hq : nextQuery (.get key) stage = some q)
    (h : Serves value stage) : Serves value (advance stage q (exec config q s).1) := by
  cases stage with
  | start =>
    cases hq
    cases hprobe : (exec config (.probe key) s).1 with
    | none => trivial
    | some bytes =>
      have hbytes := hagrees.mapping bytes hprobe
      rw [hfile] at hbytes
      exact hbytes.symm
  | missed =>
    cases hq
    have hmap : (exec config (.map key) s).1 = some value := hfile
    rw [hmap]
    rfl
  | fetched bytes =>
    cases hq
    exact congrArg some h
  | _ => cases hq

/-- The gets that start after an acknowledged put serve its value, until the next put of the
key starts. -/
theorem Overwritten.serves_step (h : Live c stage) (hover : Overwritten c stage)
    (hcalls : ∀ j key, calls j ≠ .delete key)
    (hapart : PutsApart c i) (hcareful : Careful config c i) {q : MmapQuery K}
    (hask : asks c i = some q) {j g : ι} {key : K} {value : Bytes}
    (hack : acknowledged (calls j) ((step config c i).threads j) = some (key, value))
    (hget : calls g = .get key) (hafter : ∀ q, (g, q) ∉ upTo j (step config c i).log)
    (hquiet : ∀ x w, (x, .writeTmp key w) ∉ since j (upTo g (step config c i).log)) :
    Serves value (Function.update stage i (advance (stage i) q (exec config q c.shared).1) g) := by
  obtain ⟨hq, hshared, hlog, hothers, hlive⟩ := h.step_asks hapart hcareful hask
  have hcall := call_of_acknowledged hack
  have hjg : j ≠ g := by
    rintro rfl
    rw [hcall] at hget
    cases hget
  rw [hlog] at hafter hquiet
  by_cases hgi : g = i
  · subst hgi
    rw [Function.update_self]
    rw [hothers j hjg] at hack
    rw [upTo_cons_of_ne (Ne.symm hjg)] at hafter
    rw [upTo_cons_self, since_cons_of_ne (Ne.symm hjg)] at hquiet
    have hquiet' : ∀ x w, (x, .writeTmp key w) ∉ since j c.log := fun x w hmem =>
      hquiet x w (List.mem_cons_of_mem _ hmem)
    obtain ⟨hidle, hfile⟩ := hover.onDisk j key value hack hquiet'
    have hserves := hover.serves j g key value hack hget hafter fun x w hmem =>
      hquiet' x w (mem_since_of_upTo hafter hmem)
    rw [hget] at hq
    exact hserves.step (h.settled_key hcalls hidle) hfile hq
  · rw [Function.update_of_ne hgi]
    rw [upTo_cons_of_ne (Ne.symm hgi)] at hquiet
    by_cases hji : j = i
    · subst hji
      rw [upTo_cons_self] at hafter
      rw [h.begun g fun q hmem => hafter q (List.mem_cons_of_mem _ hmem)]
      trivial
    · rw [hothers j hji] at hack
      rw [upTo_cons_of_ne (Ne.symm hji)] at hafter
      exact hover.serves j g key value hack hget hafter hquiet

omit [DecidableEq K] in
theorem found_of_serves {c : MmapCall K} {p : MmapM K c.Output} {stage : Stage K} {key : K}
    {value : Bytes} (h : Staged c p stage) (hc : c = .get key) (hdone : p.Done)
    (hserves : Serves value stage) : found c p = some (some value) := by
  subst hc
  cases p with
  | done a =>
    cases stage with
    | answered bytes =>
      obtain rfl : a = .ok bytes := h
      exact congrArg some hserves
    | _ => exact h.elim
  | call q next => exact hdone.elim

/-- In a run where every get retains what its file shows, a get between an acknowledged put of
its key and the next one returns the put's value; and while no put of a key is under way, its
retained mapping shows its file. -/
theorem reads_are_fresh (config : Config) (hbudget : config.budget = none)
    (calls : ι → MmapCall K) (hcalls : ∀ j key, calls j ≠ .delete key) (s : State K)
    (htracked : s.inner.Tracked) (hagrees : ∀ key, Agrees s.inner s.disk.files key)
    (schedule : List ι)
    (hapart : Runs.Along (step config) PutsApart (start calls s) schedule)
    (hcareful : Runs.Along (step config) (Careful config) (start calls s) schedule) :
    let final := run config (start calls s) schedule
    (∀ j g key value, acknowledged (calls j) (final.threads j) = some (key, value) →
      calls g = .get key → (final.threads g).Done → (∀ q, (g, q) ∉ upTo j final.log) →
      (∀ i w, (i, .writeTmp key w) ∉ since j (upTo g final.log)) →
      found (calls g) (final.threads g) = some (some value)) ∧
    ∀ key bytes, (∀ j, writing (calls j) (asks final j) ≠ some key) →
      final.shared.inner.maps.lookup key = some bytes →
      final.shared.disk.files key = some bytes := by
  intro final
  have hstart : Overwritten (start calls s) fun _ => .start := by
    refine ⟨fun j key value hack => ?_, fun _ _ _ _ _ _ _ _ => trivial⟩
    obtain ⟨displaced, hstored⟩ := (perform_staged (calls j)).of_acknowledged hack
    cases hstored
  obtain ⟨stage, hlive, hover⟩ := live_run (fun c stage => Overwritten c stage) htracked
    hagrees hstart
    (fun c stage i q hlive hapart hcareful hask hover =>
      ⟨fun _ _ _ => hover.onDisk_step hlive hbudget hcalls hapart hcareful hask,
        fun _ _ _ _ => hover.serves_step hlive hcalls hapart hcareful hask⟩)
    hapart hcareful
  refine ⟨fun j g key value hack hget hdone hafter hquiet => ?_, fun key bytes hidle => ?_⟩
  · exact found_of_serves (hlive.staged g) hget hdone
      (hover.serves j g key value hack hget hafter hquiet)
  · exact (hlive.settled_key hcalls hidle).mapping bytes

/-! ## A run that serves a replaced value -/

def unbounded : Config := { budget := none, eviction := .fifo }

def reopened : State Nat :=
  { inner := Inner.scan [(1, 1)]
    disk := ⟨fun key => if key = 1 then some [5] else none, fun _ => none⟩ }

def getPutGet (i : Fin 3) : MmapCall Nat := if i.val = 1 then .put 1 [9] else .get 1

theorem reads_are_fresh_overlapping :
    let final := run unbounded (start getPutGet reopened) [0, 1, 1, 0, 1, 0, 1, 2]
    found (getPutGet 2) (final.threads 2) = some (some [9]) := by
  intro final
  have hagrees : ∀ key, Agrees reopened.inner reopened.disk.files key := by
    refine scan_agrees (by simp) fun key len => ?_
    by_cases hkey : key = 1
    · subst hkey
      simp [reopened, eq_comm]
    · simp [reopened, hkey]
  have hcalls : ∀ j key, getPutGet j ≠ .delete key := by
    intro j key
    unfold getPutGet
    split <;> simp
  have hlog : final.log = [(2, .probe 1), (1, .account 1 1 (some [9])), (0, .retain 1 [9]),
      (1, .map 1), (0, .map 1), (1, .rename 1), (1, .writeTmp 1 [9]), (0, .probe 1)] := by rfl
  exact (reads_are_fresh unbounded rfl getPutGet hcalls reopened (Inner.scan_tracked _) hagrees
    [0, 1, 1, 0, 1, 0, 1, 2] (by decide +kernel) (by decide +kernel)).1 1 2 1 [9] rfl rfl
    (by decide +kernel) (by rw [hlog]; simp [upTo]) (by rw [hlog]; simp [upTo, since])

/-- A get maps the file, a put replaces it, and then the get retains what it mapped: the get
after the put is served the replaced value. -/
theorem reads_are_stale :
    let final := run unbounded (start getPutGet reopened) [0, 0, 1, 1, 1, 1, 0, 2]
    Runs.Along (step unbounded) PutsApart (start getPutGet reopened) [0, 0, 1, 1, 1, 1, 0, 2] ∧
      acknowledged (getPutGet 1) (final.threads 1) = some (1, [9]) ∧
      (∀ q ∈ upTo 1 final.log, q.1 ≠ 2) ∧
      found (getPutGet 2) (final.threads 2) = some (some [5]) ∧
      final.shared.inner.maps.lookup 1 = some [5] ∧ final.shared.disk.files 1 = some [9] := by
  decide +kernel

end Tierstore.Mmap
