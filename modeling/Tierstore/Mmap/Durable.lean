import Tierstore.Mmap.Runs

/-! Concurrent puts, gets and deletes on the mmap tier: what becomes of an acknowledged put. -/
namespace Tierstore.Mmap
open Overlay Effects

variable {K ι : Type} [DecidableEq K] [DecidableEq ι] {calls : ι → MmapCall K}

inductive Kept (c : MmapPool K calls) (j : ι) (key : K) (value : Bytes) : Prop where
  | deleted (i : ι) (hcall : calls i = .delete key) (hmem : (i, .unlink key) ∈ since j c.log)
  | replaced (i : ι) (later : Bytes) (hcall : calls i = .put key later)
    (hmem : (i, .rename key) ∈ since j c.log)
  | displaced (i : ι) (hwhen : i = j ∨
      ∃ own len mapped, (i, .account own len mapped) ∈ since j c.log)
    (hback : (key, value) ∈ handedBack (calls i) (c.threads i))
  | stored (hfile : c.shared.disk.files key = some value)

variable {config : Config} {c : MmapPool K calls} {stage : ι → Stage K} {i : ι}

omit [DecidableEq ι] in
/-- All a careful step can do to the file of a key. -/
theorem Sound.file_step {s : State K} {asks : ι → Option (MmapQuery K)}
    (h : Sound calls s asks) {stage : Stage K} {q : MmapQuery K} (hask : asks i = some q)
    (hq : nextQuery (calls i) stage = some q) (hcareful : Avoids config calls s asks i q)
    (key : K) :
    (exec config q s).2.disk.files key = s.disk.files key ∨
      ((∃ value, calls i = .put key value) ∧ q = .rename key) ∨
      (calls i = .delete key ∧ q = .unlink key) ∨
      ∃ own value len mapped displaced bytes, calls i = .put own value ∧
        q = .account own len mapped ∧ advance stage q (exec config q s).1 = .stored displaced ∧
        s.disk.files key = some bytes ∧ (key, bytes) ∈ displaced := by
  cases q with
  | rename own =>
    by_cases hkey : key = own
    · subst hkey
      exact Or.inr (Or.inl ⟨nextQuery_rename hq, rfl⟩)
    · refine Or.inl ?_
      rw [exec]
      split
      · rfl
      · exact Function.update_of_ne hkey _ _
  | unlink own =>
    by_cases hkey : key = own
    · subst hkey
      exact Or.inr (Or.inr (Or.inl ⟨nextQuery_unlink hq, rfl⟩))
    · exact Or.inl (if_neg hkey)
  | account own len mapped =>
    obtain ⟨value, hcall, rfl⟩ := nextQuery_account hq
    obtain ⟨-, -, hready⟩ := h.account_ready hcall hask hcareful
    obtain ⟨-, -, hothers, htaken⟩ :=
      account_spec config s own value.length mapped h.tracked hready
    by_cases hgone : key ∈ evicted config s own value.length mapped
    · obtain ⟨-, bytes, hfile, hback⟩ := htaken key hgone
      exact Or.inr (Or.inr (Or.inr
        ⟨own, value, _, _, _, bytes, hcall, rfl, advance_account _ _ _ _ _, hfile, hback⟩))
    · exact Or.inl (hothers key hgone).file
  | _ => exact Or.inl rfl

omit [DecidableEq ι] in
/-- An acknowledged put leaves its lock section on disk, or handed back at once. -/
theorem Live.acknowledge (h : Live c stage) {q : MmapQuery K} {r : MmapAnswer q} {s : State K}
    {key : K} {value : Bytes} (hcall : calls i = .put key value) (hask : asks c i = some q)
    (hq : nextQuery (calls i) (stage i) = some q) (hcareful : Careful config c i)
    (hexec : exec config q c.shared = (r, s)) {displaced : Displaced K Bytes}
    (hstored : advance (stage i) q r = .stored displaced) :
    (key, value) ∈ displaced ∨ s.disk.files key = some value := by
  obtain ⟨own, len, mapped, rfl⟩ := query_of_stored hstored
  obtain ⟨value', hcall', rfl⟩ := nextQuery_account hq
  rw [hcall] at hcall'
  cases hcall'
  obtain ⟨hfile, -, hready⟩ := h.sound.account_ready hcall hask (hcareful _ hask)
  obtain ⟨-, -, hothers, htaken⟩ :=
    account_spec config c.shared key value.length mapped h.sound.tracked hready
  have haccount : account config c.shared key value.length mapped = (r, s) := hexec
  rw [haccount] at hothers htaken
  by_cases hgone : key ∈ evicted config c.shared key value.length mapped
  · obtain ⟨-, bytes, hbytes, hback⟩ := htaken key hgone
    rw [advance_account] at hstored
    have hdisplaced : r = displaced := Stage.stored.inj hstored
    rw [hfile] at hbytes
    cases hbytes
    exact Or.inl (hdisplaced ▸ hback)
  · exact Or.inr ((hothers key hgone).file.trans hfile)

/-- What has become of an entry stays so after a step of another thread. -/
theorem Live.kept_other (h : Live c stage) (hapart : PutsApart c i)
    (hcareful : Careful config c i) {q : MmapQuery K} (hask : asks c i = some q)
    {j : ι} (hji : j ≠ i) {key : K} {value : Bytes}
    (hkept : Kept c j key value) : Kept (step config c i) j key value := by
  obtain ⟨hq, hshared, hlog, hothers, hlive⟩ := h.step_asks hapart hcareful hask
  have hsince : since j (step config c i).log = (i, q) :: since j c.log := by
    rw [hlog, since_cons_of_ne (Ne.symm hji)]
  have hlater {e : ι × MmapQuery K} (he : e ∈ since j c.log) :
      e ∈ since j (step config c i).log := by
    rw [hsince]
    exact List.mem_cons_of_mem _ he
  have hnow : (i, q) ∈ since j (step config c i).log := by
    rw [hsince]
    exact List.mem_cons_self
  cases hkept with
  | deleted i' hcall hmem => exact .deleted i' hcall (hlater hmem)
  | replaced i' later hcall hmem => exact .replaced i' later hcall (hlater hmem)
  | displaced i' hwhen hback =>
    have hne : i' ≠ i := by
      rintro rfl
      rw [handedBack_of_asks hask] at hback
      cases hback
    refine .displaced i' (hwhen.imp_right ?_) (by rwa [hothers i' hne])
    rintro ⟨own, len, mapped, hmem⟩
    exact ⟨own, len, mapped, hlater hmem⟩
  | stored hfile =>
    obtain hsame | ⟨⟨later, hcall⟩, rfl⟩ | ⟨hcall, rfl⟩ |
      ⟨own, later, len, mapped, displaced, bytes, hcall, rfl, hstored, hbytes, hback⟩ :=
      h.sound.file_step hask hq (hcareful q hask) key
    · exact .stored (by rw [hshared, hsame, hfile])
    · exact .replaced i later hcall hnow
    · exact .deleted i hcall hnow
    · have hself := hlive.staged i
      rw [Function.update_self, hstored] at hself
      rw [hfile] at hbytes
      cases hbytes
      refine .displaced i (Or.inr ⟨own, len, mapped, hnow⟩) ?_
      rwa [(hself.stored hcall).2]

/-- What has become of the puts acknowledged so far still holds after a careful step, and the
step accounts for the put it acknowledges. -/
theorem Live.kept_step (h : Live c stage) (hapart : PutsApart c i)
    (hcareful : Careful config c i) {q : MmapQuery K} (hask : asks c i = some q)
    (hkept : ∀ j key value, acknowledged (calls j) (c.threads j) = some (key, value) →
      Kept c j key value) (j : ι) (key : K) (value : Bytes)
    (hack : acknowledged (calls j) ((step config c i).threads j) = some (key, value)) :
    Kept (step config c i) j key value := by
  obtain ⟨hq, hshared, hlog, hothers, hlive⟩ := h.step_asks hapart hcareful hask
  by_cases hji : j = i
  · subst hji
    have hself := hlive.staged j
    rw [Function.update_self] at hself
    obtain ⟨displaced, hstored⟩ := hself.of_acknowledged hack
    have hcall := call_of_acknowledged hack
    rw [hstored] at hself
    obtain hback | hfile := h.acknowledge hcall hask hq hcareful rfl hstored
    · exact .displaced j (Or.inl rfl) (by rwa [(hself.stored hcall).2])
    · exact .stored (by rwa [hshared])
  · rw [hothers j hji] at hack
    exact h.kept_other hapart hcareful hask hji (hkept j key value hack)

omit [DecidableEq ι] in
/-- Once nobody is under way, the accounting is exact. -/
theorem Live.settled (h : Live c stage) (hdone : c.AllDone) (key : K) :
    Agrees c.shared.inner c.shared.disk.files key := by
  have hasks (j : ι) : asks c j = none := by
    unfold asks
    cases hthread : c.threads j with
    | done a => rfl
    | call q next =>
      have hj := hdone j
      rw [hthread] at hj
      exact hj.elim
  refine h.sound.agrees key (fun j => ?_) fun j => ?_
  · rw [hasks j]
    cases calls j <;> exact fun e => by cases e
  · rw [hasks j]
    cases calls j <;> exact fun e => by cases e

/-- A get that runs alone answers from the file. -/
theorem Agrees.get {s : State K} {key : K} (h : Agrees s.inner s.disk.files key) :
    ((get key).run (exec config) s).1 = .ok (s.disk.files key) := by
  rw [Mmap.get, Program.run_bind, Program.run_ask]
  cases hprobe : (exec config (.probe key) s).1 with
  | some bytes =>
    rw [h.mapping bytes hprobe]
    rfl
  | none =>
    rw [Program.run_bind, Program.run_ask]
    have hmap : (exec config (.map key) (exec config (.probe key) s).2).1 = s.disk.files key := rfl
    cases hfile : (exec config (.map key) (exec config (.probe key) s).2).1 with
    | none =>
      rw [← hmap, hfile]
      rfl
    | some bytes =>
      rw [← hmap, hfile]
      rfl

/-- An acknowledged put is not lost in a run that keeps out of the tier's open windows: unless
a delete or a later put of its key took over, it was handed back or it is on disk and served;
and the accounting is that of the files. -/
theorem acknowledged_puts_kept (config : Config) (calls : ι → MmapCall K) (s : State K)
    (htracked : s.inner.Tracked) (hagrees : ∀ key, Agrees s.inner s.disk.files key)
    (schedule : List ι)
    (hapart : Runs.Along (step config) PutsApart (start calls s) schedule)
    (hcareful : Runs.Along (step config) (Careful config) (start calls s) schedule)
    (hdone : (run config (start calls s) schedule).AllDone) :
    let final := run config (start calls s) schedule
    (∀ j key value, acknowledged (calls j) (final.threads j) = some (key, value) →
      (∃ i, calls i = .delete key ∧ (i, .unlink key) ∈ since j final.log) ∨
      (∃ i later, acknowledged (calls i) (final.threads i) = some (key, later) ∧
        (i, .rename key) ∈ since j final.log) ∨
      (∃ i, (i = j ∨ ∃ own len mapped, (i, .account own len mapped) ∈ since j final.log) ∧
        (key, value) ∈ handedBack (calls i) (final.threads i)) ∨
      final.shared.disk.files key = some value ∧
        ((get key).run (exec config) final.shared).1 = .ok (some value)) ∧
    ∀ key, final.shared.inner.sizes.lookup key =
      (final.shared.disk.files key).map List.length := by
  intro final
  have hstart : ∀ j key value,
      acknowledged (calls j) ((start calls s).threads j) = some (key, value) →
      Kept (start calls s) j key value := by
    intro j key value hack
    obtain ⟨displaced, hstored⟩ := (perform_staged (calls j)).of_acknowledged hack
    cases hstored
  obtain ⟨stage, hlive, hkept⟩ := live_run (fun c _ => ∀ j key value,
    acknowledged (calls j) (c.threads j) = some (key, value) → Kept c j key value)
    htracked hagrees hstart
    (fun c stage i q hlive hapart hcareful hask hkept =>
      hlive.kept_step hapart hcareful hask hkept)
    hapart hcareful
  refine ⟨fun j key value hack => ?_, fun key => (hlive.settled hdone key).size⟩
  cases hkept j key value hack with
  | deleted i hcall hmem => exact Or.inl ⟨i, hcall, hmem⟩
  | replaced i later hcall hmem =>
    refine Or.inr (Or.inl ⟨i, later, ?_, hmem⟩)
    exact (hlive.staged i).acknowledged hcall (hdone i) (hlive.stored i)
  | displaced i hwhen hback => exact Or.inr (Or.inr (Or.inl ⟨i, hwhen, hback⟩))
  | stored hfile =>
    refine Or.inr (Or.inr (Or.inr ⟨hfile, ?_⟩))
    rw [(hlive.settled hdone key).get, hfile]

/-! ## A run that loses a put -/

def twoBytes : Config := { budget := some ⟨2, Nat.two_pos⟩, eviction := .fifo }

def emptyTier : State Nat := { inner := Inner.new, disk := ⟨fun _ => none, fun _ => none⟩ }

def oneEntry : State Nat := ((put 1 [5]).run (exec twoBytes) emptyTier).2

def twoPuts (i : Fin 2) : MmapCall Nat := if i.val = 0 then .put 1 [9] else .put 2 [7, 8]

theorem acknowledged_puts_kept_overlapping :
    let final := run twoBytes (start twoPuts emptyTier) [0, 1, 0, 1, 0, 0, 1, 1]
    acknowledged (twoPuts 0) (final.threads 0) = some (1, [9]) ∧
      final.shared.inner.sizes.lookup 1 = (final.shared.disk.files 1).map List.length := by
  intro final
  have htracked : emptyTier.inner.Tracked := fun key hkey => absurd hkey (AList.notMem_empty key)
  have hagrees : ∀ key, Agrees emptyTier.inner emptyTier.disk.files key :=
    fun key => ⟨rfl, fun bytes hbytes => by cases hbytes⟩
  refine ⟨by decide +kernel, ?_⟩
  exact (acknowledged_puts_kept twoBytes twoPuts emptyTier htracked hagrees
    [0, 1, 0, 1, 0, 0, 1, 1] (by decide +kernel) (by decide +kernel)
    (by unfold Pool.AllDone; decide +kernel)).2 1

/-- The entry of the first put is evicted between its rename and its lock section: the file is
gone, the entry is accounted for, and nobody got it back. -/
theorem acknowledged_put_lost :
    let final := run twoBytes (start twoPuts oneEntry) [0, 0, 1, 1, 1, 1, 0, 0]
    Runs.Along (step twoBytes) PutsApart (start twoPuts oneEntry) [0, 0, 1, 1, 1, 1, 0, 0] ∧
      (∀ i, (final.threads i).Done) ∧
      acknowledged (twoPuts 0) (final.threads 0) = some (1, [9]) ∧
      (∀ i, (1, [9]) ∉ handedBack (twoPuts i) (final.threads i)) ∧
      final.shared.disk.files 1 = none ∧ final.shared.inner.sizes.lookup 1 = some 1 ∧
      ((get 1).run (exec twoBytes) final.shared).1 = .ok none := by
  decide +kernel

end Tierstore.Mmap
