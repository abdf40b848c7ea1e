import Tierstore.Mmap.Restart

/-! File-system calls that fail: which failures the accounting survives. -/
namespace Tierstore.Mmap
open Effects ItemShelf

/-- The accounting is that of the entry files, and a read serves only what the file has. -/
structure Faithful (sys : System) (handle : Handle) (w : World) : Prop where
  sizes : ∀ key, handle.inner.sizes.lookup key = (fileOf w.dir key).map List.length
  total : handle.inner.total = diskUsage w.dir
  serves : ∀ key bytes,
    (sys.run (Fs.get handle.config handle.inner key) w).1.1 = .ok (some bytes) →
      fileOf w.dir key = some bytes

theorem Machine.InStep.faithful {sys : System} {m : Machine} (h : m.InStep) {handle : Handle}
    (hhandle : handle ∈ m.tier) : Faithful sys handle m.world := by
  obtain ⟨shelf, hsynced⟩ := h.synced handle hhandle
  refine ⟨hsynced.sizes, hsynced.total h.owned, fun key bytes hget => ?_⟩
  obtain ⟨inner', clock, ⟨hrun, -⟩ | ⟨hrun, -⟩⟩ :=
    System.get_run sys hsynced (hsynced.room h.owned h.counted) handle.config key
  · rw [hrun] at hget
    exact Except.ok.inj hget
  · rw [hrun] at hget
    cases hget

/-! ## Failures that show -/

structure Orphaned (inner : Inner Key) (dir : Directory) (key : Key) : Prop where
  size : inner.sizes.lookup key = none
  stamp : key ∉ inner.stamps
  file : entryName key ∈ dir

section Orphaned
variable {sys : System} {w : World} {inner : Inner Key} {shelf : ItemShelf Key Bytes} {key : Key}

theorem Orphaned.not_faithful {handle : Handle} (h : Orphaned handle.inner w.dir key) :
    ¬ Faithful sys handle w := by
  intro hfaithful
  have hsize := hfaithful.sizes key
  rw [h.size] at hsize
  have hfile : ((fileOf w.dir key).map List.length).isSome := by
    rw [Option.isSome_map]
    exact isSome_fileOf.2 h.file
  rw [← hsize] at hfile
  cases hfile

theorem Orphaned.evict (h : Orphaned inner w.dir key) {oldest : Key} (hne : key ≠ oldest)
    (order : List (Key × UInt64)) (clock : Nat) :
    Orphaned (({ inner with order } : Inner Key).evict oldest)
      (sys.exec (.unlink (entryName oldest)) { w with clock }).2.dir key := by
  refine ⟨?_, ?_, ?_⟩
  · rw [Inner.evict_sizes, if_neg hne]
    exact h.size
  · rw [(Inner.evict_queue _ _).2.2, AList.mem_erase]
    exact fun hmem => h.stamp hmem.2
  · have hname : entryName key ≠ entryName oldest := fun heq => hne (entryName_injective heq)
    rw [System.unlink_run]
    split
    · exact h.file
    · split
      · exact AList.mem_erase.2 ⟨hname, h.file⟩
      · exact h.file

/-- The loop never comes back to an orphan. -/
theorem Orphaned.evictLoop (h : Orphaned inner w.dir key) (budget turns : Nat) :
    Orphaned (sys.run (Fs.evictLoop budget turns inner) w).1.2
      (sys.run (Fs.evictLoop budget turns inner) w).2.dir key := by
  induction turns generalizing inner w with
  | zero => exact h
  | succ turns ih =>
    by_cases hover : inner.total > budget
    · obtain ⟨order, hpop⟩ | ⟨oldest, order, hstamp, hpop⟩ :=
        Inner.popTickets_cases inner.order inner
      · have hstop : inner.popOldest = (none, { inner with order }) := hpop
        rw [Fs.evictLoop, if_pos hover, hstop]
        exact ⟨h.size, h.stamp, h.file⟩
      · have htake : inner.popOldest = (some oldest, { inner with order }) := hpop
        obtain ⟨bytes, clock, -, hrun, -⟩ := System.evictLoop_turn sys w hover htake turns
        have hne : key ≠ oldest := by
          rintro rfl
          exact h.stamp hstamp
        rw [hrun]
        exact ih (h.evict hne order clock)
    · rw [Fs.evictLoop, if_neg hover]
      exact h

/-- A victim whose file withstands the unlink is left an orphan. -/
theorem evictLoop_orphans (h : Synced inner w.dir shelf) {budget turns : Nat}
    (hturns : shelf.length ≤ turns)
    (hnot : ¬ (Fs.evictLoop budget turns inner).Always sys.exec sys.Unlinks w) :
    ∃ key, Orphaned (sys.run (Fs.evictLoop budget turns inner) w).1.2
      (sys.run (Fs.evictLoop budget turns inner) w).2.dir key := by
  induction turns generalizing inner w shelf with
  | zero => exact absurd trivial hnot
  | succ turns ih =>
    by_cases hover : inner.total > budget
    · have htotal := hover
      rw [h.shelved.total] at htotal
      cases shelf with
      | nil => exact absurd htotal (Nat.not_lt_zero _)
      | cons item rest =>
        obtain ⟨order, hpop, hshelved⟩ := h.shelved.popOldest
        obtain ⟨bytes, clock, -, hrun, hiff⟩ := System.evictLoop_turn sys w hover hpop turns
        have hmem : entryName item.key ∈ w.dir :=
          isSome_fileOf.1 (by rw [System.file_first h]; rfl)
        rw [hrun]
        cases hfails : sys.fails clock with
        | true =>
          have hkept : (sys.run (Program.ask (FsCall.unlink (entryName item.key)))
              { w with clock }).2 = { w with clock := clock + 1 } := by
            rw [System.run_ask, System.exec_fails hfails]
          rw [hkept]
          have horphan : Orphaned (({ inner with order } : Inner Key).evict item.key) w.dir
              item.key := by
            refine ⟨?_, ?_, hmem⟩
            · rw [Inner.evict_sizes, if_pos rfl]
            · rw [(Inner.evict_queue _ _).2.2, AList.mem_erase]
              exact fun hmem => hmem.1 rfl
          exact ⟨item.key, Orphaned.evictLoop (w := { w with clock := clock + 1 }) horphan _ _⟩
        | false =>
          have hgone : (sys.run (Program.ask (FsCall.unlink (entryName item.key)))
              { w with clock }).2 =
                { dir := w.dir.erase (entryName item.key), clock := clock + 1 } := by
            rw [System.run_ask, System.exec_ok hfails, System.answer, if_pos hmem]
          rw [hgone] at hiff ⊢
          refine ih (h.evict hshelved) (Nat.le_of_succ_le_succ hturns) fun hrest => hnot ?_
          exact hiff.2 ⟨fun _ => hfails, hrest⟩
    · rw [Fs.evictLoop, if_neg hover] at hnot
      exact absurd trivial hnot

theorem account_orphans {config : Config} {dir : Directory} (h : Synced inner dir shelf)
    (hroom : shelf.length + 1 < 2 ^ 64) {value : Bytes}
    (hfile : fileOf w.dir = Function.update (fileOf dir) key (some value))
    (hfits : (Ordered.place config.eviction shelf (itemOf key value)).total ≤ usizeMax)
    (hnot : ¬ (Fs.account config inner key value.length (some value)).Always sys.exec
      sys.Unlinks w) :
    ∃ orphan,
      Orphaned (sys.run (Fs.account config inner key value.length (some value)) w).1.2
        (sys.run (Fs.account config inner key value.length (some value)) w).2.dir orphan := by
  have hrecorded := h.record hroom hfile config.eviction hfits
  rw [Fs.account] at hnot ⊢
  cases hbudget : config.budget with
  | none =>
    rw [hbudget] at hnot
    exact absurd trivial hnot
  | some budget =>
    rw [hbudget] at hnot
    exact evictLoop_orphans hrecorded hrecorded.length_le hnot

end Orphaned

/-- A put that fails with the file in place shows, unless the old file had the same length and no
mapping of other contents is retained. -/
theorem overwritten_shows {sys : System} {handle : Handle} {w w' : World} {key : Key}
    {value : Bytes}
    (hsizes : ∀ key, handle.inner.sizes.lookup key = (fileOf w.dir key).map List.length)
    (hfile : fileOf w'.dir = Function.update (fileOf w.dir) key (some value))
    (hfaithful : Faithful sys handle w') :
    (fileOf w.dir key).map List.length = some value.length ∧
      ∀ bytes, handle.inner.maps.lookup key = some bytes → bytes = value := by
  have hvalue : fileOf w'.dir key = some value := by rw [hfile, Function.update_self]
  refine ⟨?_, fun bytes hcached => ?_⟩
  · rw [← hsizes, hfaithful.sizes, hvalue]
    rfl
  · have hget : (sys.run (Fs.get handle.config handle.inner key) w').1.1 = .ok (some bytes) := by
      have hprobe : handle.inner.probe handle.config.eviction key =
          (some bytes, (handle.inner.probe handle.config.eviction key).2) := by
        rw [← hcached]
        rfl
      rw [Fs.get, hprobe]
      rfl
    have hserved := hfaithful.serves key bytes hget
    rw [hvalue] at hserved
    exact (Option.some.inj hserved).symm

/-- A call that is not harmless leaves a state in which the failure shows. -/
theorem harmless_of_faithful {sys : System} {w : World} {handle : Handle}
    {shelf : ItemShelf Key Bytes} (h : Synced handle.inner w.dir shelf) (howned : Owned w.dir)
    (hcounted : Counted w.dir) {c : DiskCall} (hfits : c.Fits w.dir)
    (hclears : c = .clear →
      (Fs.clear handle.inner).Always sys.exec (fun _ w => sys.fails w.clock = false) w)
    (hfaithful : Faithful sys
      { handle with inner := (sys.run (Fs.perform handle.config handle.inner c) w).1.2 }
      (sys.run (Fs.perform handle.config handle.inner c) w).2) :
    c.Harmless sys w handle := by
  have hroom := h.room howned hcounted
  cases c with
  | get key =>
    exact ⟨System.unlinks_of_reading (Fs.get_asks _ _ key) sys w, fun _ _ hc => by cases hc⟩
  | exists_ key =>
    exact ⟨System.unlinks_of_reading (Fs.exists_asks _ key) sys w, fun _ _ hc => by cases hc⟩
  | list cursor limit =>
    exact ⟨System.unlinks_of_reading (Fs.list_page_asks _ _ cursor limit) sys w,
      fun _ _ hc => by cases hc⟩
  | clear =>
    refine ⟨(hclears rfl).mono fun q w' hcalm => ?_, fun _ _ hc => by cases hc⟩
    cases q <;> first | exact trivial | exact fun _ => hcalm
  | delete key =>
    refine ⟨?_, fun _ _ hc => by cases hc⟩
    rw [Fs.perform, Fs.delete, System.always_bind]
    refine ⟨⟨fun hmem => ?_, trivial⟩, by split <;> trivial⟩
    obtain ⟨result, w', hrun, ⟨-, hdir⟩ | ⟨hfails, -⟩⟩ :=
      System.delete_run sys w handle.inner key
    · rw [Fs.perform, hrun] at hfaithful
      have hsize := hfaithful.sizes key
      have hnone : (handle.inner.forget key).sizes.lookup key = none := by
        rw [Inner.forget_sizes, if_pos rfl]
      rw [hdir, hnone] at hsize
      have hfile : ((fileOf w.dir key).map List.length).isSome := by
        rw [Option.isSome_map]
        exact isSome_fileOf.2 hmem
      rw [← hsize] at hfile
      cases hfile
    · exact hfails
  | put key value =>
    obtain ⟨w', ⟨hstores, -, -, hasks⟩ | ⟨-, hfile,
        ⟨hloses, hrun, hasks⟩ | ⟨hloses, hrun, hiff⟩⟩⟩ :=
      System.put_cases sys w handle.config handle.inner key value
    · refine ⟨hasks, fun _ _ _ hloses => ?_⟩
      rw [System.loses, hstores] at hloses
      cases hloses
    · rw [Fs.perform, hrun] at hfaithful
      refine ⟨hasks, fun _ _ hc _ => ?_⟩
      cases hc
      exact overwritten_shows h.sizes hfile hfaithful
    · refine ⟨hiff.2 ?_, fun _ _ _ hlost => ?_⟩
      · by_contra hnot
        obtain ⟨orphan, horphan⟩ :=
          account_orphans h hroom hfile (fits_place h howned _ hfits) hnot
        rw [Fs.perform, hrun] at hfaithful
        exact horphan.not_faithful hfaithful
      · rw [hloses] at hlost
        cases hlost

/-! ## Runs -/

theorem Machine.harmless_of_faithful {sys : System} {m : Machine} (h : m.InStep) {e : Event}
    (hfits : e.Fits m) (hclears : e.Clears sys m)
    (hfaithful : ∀ handle ∈ (m.step sys e).tier, Faithful sys handle (m.step sys e).world) :
    e.Harmless sys m := by
  unfold Event.Harmless
  split
  · next c =>
    intro handle hhandle
    obtain ⟨shelf, hsynced⟩ := h.synced handle hhandle
    have htier : m.tier = some handle := hhandle
    have hafter := hfaithful
      { handle with inner := (sys.run (Fs.perform handle.config handle.inner c) m.world).1.2 }
    simp only [Machine.step, Machine.finish, htier] at hafter
    refine Mmap.harmless_of_faithful hsynced h.owned h.counted hfits ?_ (hafter rfl)
    rintro rfl
    exact hclears handle hhandle
  · trivial

theorem Machine.faithful_iff {sys : System} {m : Machine} (h : m.InStep) {events : List Event}
    (hfits : Runs.Along (Machine.step sys) Event.Fits m events)
    (hclears : Runs.Along (Machine.step sys) (Event.Clears sys) m events) :
    (∀ before after, events = before ++ after → ∀ handle ∈ (m.run sys before).tier,
      Faithful sys handle (m.run sys before).world) ↔
      Runs.Along (Machine.step sys) (Event.Harmless sys) m events := by
  constructor
  · intro hfaithful
    induction events generalizing m with
    | nil => trivial
    | cons e rest ih =>
      have hnow : e.Harmless sys m :=
        Machine.harmless_of_faithful h hfits.1 hclears.1 (hfaithful [e] rest rfl)
      refine ⟨hnow, ih (h.step hfits.1 hclears.1 hnow) hfits.2 hclears.2 ?_⟩
      rintro before after rfl
      exact hfaithful (e :: before) after rfl
  · rintro hharmless before after rfl handle hhandle
    obtain ⟨hfits, -⟩ := Runs.along_append.1 hfits
    obtain ⟨hclears, -⟩ := Runs.along_append.1 hclears
    obtain ⟨hharmless, -⟩ := Runs.along_append.1 hharmless
    exact (h.run hfits hclears hharmless).faithful hhandle

/-- From a directory of a tier, whatever is opened, called and stopped: the accounting is that of
the files after every event, with only the contents of the files served, exactly when every call
of the run is harmless. -/
theorem faults_shown_iff (sys : System) (dir : Directory) (clock : Nat) (howned : Owned dir)
    (hcounted : Counted dir) (events : List Event)
    (hfits : Runs.Along (Machine.step sys) Event.Fits { world := { dir, clock }, tier := none }
      events)
    (hclears : Runs.Along (Machine.step sys) (Event.Clears sys)
      { world := { dir, clock }, tier := none } events) :
    (∀ before after, events = before ++ after →
      let m := Machine.run sys { world := { dir, clock }, tier := none } before
      ∀ handle ∈ m.tier, Faithful sys handle m.world) ↔
      Runs.Along (Machine.step sys) (Event.Harmless sys)
        { world := { dir, clock }, tier := none } events := by
  have hstart : Machine.InStep { world := { dir, clock }, tier := none } :=
    ⟨howned, hcounted, fun _ h => (by cases h)⟩
  exact Machine.faithful_iff hstart hfits hclears

/-! ## Concrete failures -/

namespace Faulty

def keyA : Key := Shrunk.keyA
def keyB : Key := Shrunk.keyB

/-- Opening takes two file-system calls, a put five, the fourth of which opens the new file. -/
def replaced : List Event :=
  [.done (.opening none), .done (.call (.put keyA [1])), .done (.call (.put keyA [2, 3]))]

def kept : List Event :=
  [.done (.opening none), .done (.call (.put keyA [1])), .done (.call (.delete keyA))]

def mixed : List Event :=
  [.done (.opening none), .done (.call (.put keyA [1])), .done (.call (.put keyA [2, 3])),
   .done (.call (.put keyB [4, 5])), .done (.call (.get keyA)), .done (.call (.delete keyA))]

/-- The second put cannot write its temporary file; the calls before it and after it succeed. -/
theorem faults_shown_iff_unwritten :
    let sys := System.plain fun n => n = 8
    let m := Machine.blank.run sys mixed
    (∃ handle ∈ m.tier, Faithful sys handle m.world) ∧
      fileOf (Machine.blank.run sys (mixed.take 3)).world.dir keyA = some [1] ∧
      fileOf m.world.dir keyA = none ∧ fileOf m.world.dir keyB = some [4, 5] := by
  intro sys m
  have hiff := faults_shown_iff sys ∅ 0 owned_empty (by decide +kernel) mixed (by decide +kernel)
    ⟨trivial, trivial, trivial, trivial, trivial, trivial, trivial⟩
  have hopen : m.tier.isSome := by decide +kernel
  obtain ⟨handle, hhandle⟩ := Option.isSome_iff_exists.1 hopen
  exact ⟨⟨handle, hhandle, hiff.2 (by decide +kernel) mixed [] rfl handle hhandle⟩,
    by decide +kernel, by decide +kernel, by decide +kernel⟩

/-- After a put that cannot open the new file, the size and what is served are the old ones; after
a delete that cannot unlink, the file has no size. -/
theorem failures_show :
    let longer := Machine.blank.run (.plain fun n => n = 10) replaced
    let left := Machine.blank.run (.plain fun n => n = 7) kept
    Runs.Along (Machine.step (.plain fun n => n = 10)) Event.Fits .blank replaced ∧
      Runs.Along (Machine.step (.plain fun n => n = 7)) Event.Fits .blank kept ∧
      longer.tier.map (fun handle => (handle.inner.sizes.lookup keyA,
        ((System.plain fun n => n = 10).run (Fs.get handle.config handle.inner keyA)
          longer.world).1.1.toOption)) = some (some 1, some (some [1])) ∧
      fileOf longer.world.dir keyA = some [2, 3] ∧
      left.tier.map (fun handle => handle.inner.sizes.lookup keyA) = some none ∧
      fileOf left.world.dir keyA = some [1] := by
  decide +kernel

end Faulty
end Tierstore.Mmap
