import Tierstore.Lib.Runs
import Tierstore.Mmap.Synced

/-! Whole lives of a tier directory: the tier is opened, called, stopped between any two
file-system calls, and opened again. -/
namespace Tierstore.Mmap
open Effects ItemShelf

inductive DiskCall where
  | get (key : Key)
  | exists_ (key : Key)
  | put (key : Key) (value : Bytes)
  | delete (key : Key)
  | clear
  | list (cursor : Option Nat) (limit : Nat)

abbrev DiskCall.Output : DiskCall → Type
  | .get _ => Option Bytes
  | .exists_ _ => Bool
  | .put _ _ => Displaced Key Bytes
  | .delete _ => Bool
  | .clear => Unit
  | .list _ _ => Page Key Nat

def Fs.perform (config : Config) (inner : Inner Key) :
    (c : DiskCall) → FsM (Except FsError c.Output × Inner Key)
  | .get key => Fs.get config inner key
  | .exists_ key => Fs.exists_ inner key
  | .put key value => Fs.put config inner key value
  | .delete key => Fs.delete inner key
  | .clear => Fs.clear inner
  | .list cursor limit => do
    let page ← Fs.list cursor limit
    pure (page, inner)

structure Handle where
  config : Config
  inner : Inner Key

structure Machine where
  world : World
  tier : Option Handle

inductive Job where
  | opening (budget : Option ℕ+)
  | call (c : DiskCall)

inductive Event where
  | done (job : Job)
  | withEviction (eviction : Eviction)
  /-- The process stops when the job has made `n` file-system calls. -/
  | stopped (job : Job) (n : Nat)

namespace Machine

def finish (sys : System) (m : Machine) : Job → Machine
  | .opening budget =>
    let out := sys.run Fs.openInner m.world
    { world := out.2
      tier := match out.1 with
        | .ok inner => some { config := { budget, eviction := .fifo }, inner }
        | .error _ => none }
  | .call c =>
    match m.tier with
    | none => m
    | some handle =>
      let out := sys.run (Fs.perform handle.config handle.inner c) m.world
      { world := out.2, tier := some { handle with inner := out.1.2 } }

def stop (sys : System) (m : Machine) (n : Nat) : Job → Machine
  | .opening _ => { world := Fs.openInner.runFor sys.exec n m.world, tier := none }
  | .call c =>
    match m.tier with
    | none => m
    | some handle =>
      { world := (Fs.perform handle.config handle.inner c).runFor sys.exec n m.world, tier := none }

def step (sys : System) (m : Machine) : Event → Machine
  | .done job => m.finish sys job
  | .withEviction eviction =>
    { m with tier := m.tier.map fun handle =>
        { handle with config := { handle.config with eviction } } }
  | .stopped job n => m.stop sys n job

def run (sys : System) (m : Machine) (events : List Event) : Machine :=
  events.foldl (step sys) m

end Machine

def DiskCall.Fits (dir : Directory) : DiskCall → Prop
  | .put key value => Counted (dir.insert (entryName key) value)
  | _ => True

def Event.Fits (m : Machine) : Event → Prop
  | .done (.call c) | .stopped (.call c) _ => c.Fits m.world.dir
  | _ => True

instance DiskCall.decideFits (dir : Directory) : (c : DiskCall) → Decidable (c.Fits dir)
  | .put key value => inferInstanceAs (Decidable (Counted (dir.insert (entryName key) value)))
  | .get _ | .exists_ _ | .delete _ | .clear | .list _ _ => isTrue trivial

instance Event.decideFits (m : Machine) : (e : Event) → Decidable (e.Fits m)
  | .done (.call c) | .stopped (.call c) _ => DiskCall.decideFits m.world.dir c
  | .done (.opening _) | .stopped (.opening _) _ | .withEviction _ => isTrue trivial

/-! ## Files across a stop -/
section Files
variable (sys : System) {w : World} (config : Config) (inner : Inner Key)

theorem Fs.list_page_asks (cursor : Option Nat) (limit : Nat) :
    Asks Reading (Fs.perform config inner (.list cursor limit)) :=
  Program.Safe.bind (Fs.list_asks cursor limit) fun _ _ => trivial

theorem Fs.perform_asks (c : DiskCall) : Asks Tidy (Fs.perform config inner c) := by
  have hreads {α : Type} {p : FsM α} (h : Asks Reading p) : Asks Tidy p :=
    h.weaken fun _ hq => hq.sparing.tidy
  cases c with
  | get key => exact hreads (Fs.get_asks config inner key)
  | exists_ key => exact hreads (Fs.exists_asks inner key)
  | put key value => exact Fs.put_asks config inner key value
  | delete key => exact (Fs.delete_asks inner key).weaken fun _ => Sparing.tidy
  | clear => exact (Fs.clear_asks inner).weaken fun _ => Sparing.tidy
  | list cursor limit => exact hreads (Fs.list_page_asks config inner cursor limit)

/-- A put leaves no file but the old ones and its own. -/
theorem put_below (w : World) (key : Key) (value : Bytes) :
    Below (fileOf (sys.run (Fs.put config inner key value) w).2.dir) (fileOf w.dir) ∨
      Below (fileOf (sys.run (Fs.put config inner key value) w).2.dir)
        (Function.update (fileOf w.dir) key (some value)) := by
  obtain ⟨stored, hstore⟩ := sys.store_run w key value
  rw [Fs.put, System.run_bind]
  cases hstores : sys.stores w.clock with
  | false =>
    rw [hstores, if_neg Bool.false_ne_true] at hstore
    rw [hstore.1]
    refine Or.inl ?_
    rw [← hstore.2]
    exact Below.refl _
  | true =>
    rw [hstores, if_pos rfl] at hstore
    obtain ⟨hrun, -, hfile⟩ := hstore
    rw [hrun, ← hfile]
    exact Or.inr (sys.run_below (Fs.finish_asks config inner key value) stored)

theorem perform_kept {c : DiskCall} (howned : Owned w.dir) (hcounted : Counted w.dir)
    (hfits : c.Fits w.dir) :
    Owned (sys.run (Fs.perform config inner c) w).2.dir ∧
      Counted (sys.run (Fs.perform config inner c) w).2.dir := by
  have howned' := sys.run_owned (Fs.perform_asks config inner c) howned
  have hsparing {α : Type} {p : FsM α} (hp : Asks Sparing p) (h : Owned (sys.run p w).2.dir) :
      Counted (sys.run p w).2.dir := hcounted.below h howned (sys.run_below hp w)
  have hreading {α : Type} {p : FsM α} (hp : Asks Reading p) (h : Owned (sys.run p w).2.dir) :
      Counted (sys.run p w).2.dir := hsparing (hp.weaken fun _ => Reading.sparing) h
  refine ⟨howned', ?_⟩
  cases c with
  | get key => exact hreading (Fs.get_asks config inner key) howned'
  | exists_ key => exact hreading (Fs.exists_asks inner key) howned'
  | put key value =>
    obtain hold | hnew := put_below sys config inner w key value
    · exact hcounted.below howned' howned hold
    · rw [← fileOf_insert] at hnew
      exact hfits.below howned' (howned.insert ⟨key, Or.inl rfl⟩ value) hnew
  | delete key => exact hsparing (Fs.delete_asks inner key) howned'
  | clear => exact hsparing (Fs.clear_asks inner) howned'
  | list cursor limit => exact hreading (Fs.list_page_asks config inner cursor limit) howned'

end Files

/-! ## One event -/

structure Machine.InStep (m : Machine) : Prop where
  owned : Owned m.world.dir
  counted : Counted m.world.dir
  synced : ∀ handle ∈ m.tier, ∃ shelf, Synced handle.inner m.world.dir shelf

def Event.Clears (sys : System) (m : Machine) : Event → Prop
  | .done (.call .clear) => ∀ handle ∈ m.tier,
    (Fs.clear handle.inner).Always sys.exec (fun _ w => sys.fails w.clock = false) m.world
  | _ => True

/-- No file that is there withstands an unlink, and a put that fails with the new file in place
replaced one of the same length, without a mapping of other contents. -/
structure DiskCall.Harmless (sys : System) (w : World) (handle : Handle) (c : DiskCall) : Prop where
  unlinks : (Fs.perform handle.config handle.inner c).Always sys.exec sys.Unlinks w
  puts : ∀ key value, c = .put key value → sys.loses w.clock = true →
    (fileOf w.dir key).map List.length = some value.length ∧
      ∀ bytes, handle.inner.maps.lookup key = some bytes → bytes = value

theorem DiskCall.harmless_iff_unlinks {sys : System} {w : World} {handle : Handle} {c : DiskCall}
    (hc : ∀ key value, c ≠ .put key value) : c.Harmless sys w handle ↔
      (Fs.perform handle.config handle.inner c).Always sys.exec sys.Unlinks w :=
  ⟨fun h => h.unlinks, fun h => ⟨h, fun key value heq => absurd heq (hc key value)⟩⟩

instance DiskCall.decideHarmless (sys : System) (w : World) (handle : Handle) :
    (c : DiskCall) → Decidable (c.Harmless sys w handle)
  | .put key value =>
    decidable_of_iff ((Fs.perform handle.config handle.inner (.put key value)).Always sys.exec
        sys.Unlinks w ∧ (sys.loses w.clock = true →
          (fileOf w.dir key).map List.length = some value.length ∧
            ∀ bytes ∈ handle.inner.maps.lookup key, bytes = value))
      ⟨fun ⟨hunlinks, hputs⟩ => ⟨hunlinks, by rintro _ _ ⟨⟩; exact hputs⟩,
        fun h => ⟨h.unlinks, h.puts key value rfl⟩⟩
  | .get _ | .exists_ _ | .delete _ | .clear | .list _ _ =>
    decidable_of_iff _ (harmless_iff_unlinks (by simp)).symm

def Event.Harmless (sys : System) (m : Machine) : Event → Prop
  | .done (.call c) => ∀ handle ∈ m.tier, c.Harmless sys m.world handle
  | _ => True

instance Event.decideHarmless (sys : System) (m : Machine) :
    (e : Event) → Decidable (e.Harmless sys m)
  | .done (.call c) =>
    inferInstanceAs (Decidable (∀ handle ∈ m.tier, c.Harmless sys m.world handle))
  | .done (.opening _) | .withEviction _ | .stopped _ _ => isTrue trivial

section Step
variable {sys : System} {w : World} {handle : Handle} {shelf : ItemShelf Key Bytes}

theorem fits_place (h : Synced handle.inner w.dir shelf) (howned : Owned w.dir)
    (eviction : Eviction) {key : Key} {value : Bytes}
    (hfits : Counted (w.dir.insert (entryName key) value)) :
    (Ordered.place eviction shelf (itemOf key value)).total ≤ usizeMax := by
  have hnd := Ordered.nodup_place eviction h.nodup (itemOf key value)
  have hfiles := h.files_place (fileOf_insert w.dir key value) eviction
  rw [total_eq hnd hfiles (howned.insert ⟨key, Or.inl rfl⟩ value)]
  exact hfits.bytes

theorem perform_synced (h : Synced handle.inner w.dir shelf) (howned : Owned w.dir)
    (hcounted : Counted w.dir) {c : DiskCall} (hfits : c.Fits w.dir)
    (hclears : c = .clear →
      (Fs.clear handle.inner).Always sys.exec (fun _ w => sys.fails w.clock = false) w)
    (hharmless : c.Harmless sys w handle) :
    ∃ shelf', Synced (sys.run (Fs.perform handle.config handle.inner c) w).1.2
      (sys.run (Fs.perform handle.config handle.inner c) w).2.dir shelf' := by
  have hroom := h.room howned hcounted
  cases c with
  | get key =>
    obtain ⟨inner', clock, ⟨hrun, hsynced⟩ | ⟨hrun, -⟩⟩ :=
      System.get_run sys h hroom handle.config key
    · rw [Fs.perform, hrun]
      exact ⟨_, hsynced⟩
    · rw [Fs.perform, hrun]
      exact ⟨shelf, h⟩
  | exists_ key =>
    obtain ⟨clock, hrun | ⟨-, hrun⟩⟩ := System.exists_run sys h key
    · rw [Fs.perform, hrun]
      exact ⟨shelf, h⟩
    · rw [Fs.perform, hrun]
      exact ⟨shelf, h⟩
  | put key value =>
    obtain ⟨w', ⟨-, hrun, hfile⟩ | ⟨hloses, hrun, hfile⟩ | ⟨out, inner', hrun, hsynced, -⟩⟩ :=
      System.put_run sys h hroom (fits_place h howned _ hfits) hharmless.unlinks
    · rw [Fs.perform, hrun]
      exact ⟨shelf, h.congr hfile⟩
    · obtain ⟨hlen, hmaps⟩ := hharmless.puts key value rfl hloses
      rw [Fs.perform, hrun]
      exact ⟨_, h.overwritten hfile hlen hmaps⟩
    · rw [Fs.perform, hrun]
      exact ⟨_, hsynced⟩
  | delete key =>
    obtain ⟨result, w', hrun, hcases⟩ := System.delete_run sys w handle.inner key
    rw [Fs.perform, hrun]
    refine ⟨shelf.without key, h.forget ?_⟩
    obtain ⟨hfails, hdir⟩ | ⟨-, -, hfile⟩ := hcases
    · have hnone : fileOf w.dir key = none := by
        refine AList.lookup_eq_none.2 fun hmem => ?_
        have hsure := hharmless.unlinks.1 hmem
        rw [hfails] at hsure
        cases hsure
      rw [hdir]
      exact (Function.update_eq_self_iff.2 hnone.symm).symm
    · exact hfile
  | clear =>
    obtain ⟨w', hrun, hnone⟩ := System.clear_run handle.inner (hclears rfl)
    rw [Fs.perform, hrun]
    exact ⟨[], System.synced_cleared handle.inner hnone⟩
  | list cursor limit =>
    obtain ⟨result, clock, hrun, -⟩ := System.list_run sys howned cursor limit
    rw [Fs.perform, System.run_bind, hrun]
    exact ⟨shelf, h⟩

end Step

namespace Machine
variable {sys : System} {m : Machine}

theorem finish_kept (sys : System) (howned : Owned m.world.dir) (hcounted : Counted m.world.dir)
    {job : Job} (hfits : (Event.done job).Fits m) :
    Owned (m.finish sys job).world.dir ∧ Counted (m.finish sys job).world.dir := by
  cases job with
  | opening budget =>
    have hsparing := Fs.openInner_asks.weaken fun _ => Reading.sparing
    have howned' := sys.run_owned (hsparing.weaken fun _ => Sparing.tidy) howned
    exact ⟨howned', hcounted.below howned' howned (sys.run_below hsparing m.world)⟩
  | call c =>
    unfold finish
    dsimp only
    split
    · exact ⟨howned, hcounted⟩
    · exact perform_kept sys _ _ howned hcounted hfits

/-- A stopped job leaves what it leaves when all its later calls fail, and no tier. -/
theorem stop_eq (sys : System) (m : Machine) (n : Nat) (job : Job) :
    (m.stop sys n job).world.dir = (m.finish (sys.stopped (m.world.clock + n)) job).world.dir ∧
      (m.stop sys n job).tier = none := by
  cases job with
  | opening budget => exact ⟨sys.runFor_dir n Fs.openInner m.world, rfl⟩
  | call c =>
    unfold stop finish
    dsimp only
    split
    · next htier => exact ⟨rfl, htier⟩
    · exact ⟨sys.runFor_dir n _ m.world, rfl⟩

theorem InStep.finish (h : m.InStep) {job : Job} (hfits : (Event.done job).Fits m)
    (hclears : (Event.done job).Clears sys m) (hharmless : (Event.done job).Harmless sys m) :
    (m.finish sys job).InStep := by
  obtain ⟨howned, hcounted⟩ := finish_kept sys h.owned h.counted hfits
  refine ⟨howned, hcounted, fun handle hhandle => ?_⟩
  cases job with
  | opening budget =>
    obtain ⟨result, clock, hrun, -, hsynced⟩ := System.openInner_run sys h.owned h.counted
    simp only [Machine.finish, hrun] at hhandle ⊢
    cases result with
    | error e => cases hhandle
    | ok inner =>
      cases hhandle
      exact hsynced inner rfl
  | call c =>
    cases htier : m.tier with
    | none =>
      simp only [Machine.finish, htier] at hhandle
      cases hhandle
    | some old =>
      obtain ⟨shelf, hold⟩ := h.synced old (by rw [htier]; rfl)
      simp only [Machine.finish, htier] at hhandle ⊢
      cases hhandle
      have hmem : old ∈ m.tier := by rw [htier]; rfl
      refine perform_synced hold h.owned h.counted hfits ?_ (hharmless old hmem)
      rintro rfl
      exact hclears old hmem

/-- Whatever is stopped, the directory is one that can be opened again. -/
theorem InStep.stop (h : m.InStep) {n : Nat} {job : Job} (hfits : (Event.done job).Fits m) :
    (m.stop sys n job).InStep := by
  obtain ⟨hdir, htier⟩ := stop_eq sys m n job
  obtain ⟨howned, hcounted⟩ :=
    finish_kept (sys.stopped (m.world.clock + n)) h.owned h.counted hfits
  rw [← hdir] at howned hcounted
  refine ⟨howned, hcounted, fun handle hhandle => ?_⟩
  rw [htier] at hhandle
  cases hhandle

theorem InStep.step (h : m.InStep) {e : Event} (hfits : e.Fits m) (hclears : e.Clears sys m)
    (hharmless : e.Harmless sys m) : (m.step sys e).InStep := by
  cases e with
  | done job => exact h.finish hfits hclears hharmless
  | withEviction eviction =>
    refine ⟨h.owned, h.counted, fun handle hhandle => ?_⟩
    obtain ⟨old, hold, rfl⟩ := Option.mem_map.1 hhandle
    exact h.synced old hold
  | stopped job n =>
    have hjob : (Event.done job).Fits m := by cases job <;> exact hfits
    exact h.stop hjob

theorem InStep.run {events : List Event} (h : m.InStep)
    (hfits : Runs.Along (Machine.step sys) Event.Fits m events)
    (hclears : Runs.Along (Machine.step sys) (Event.Clears sys) m events)
    (hharmless : Runs.Along (Machine.step sys) (Event.Harmless sys) m events) :
    (m.run sys events).InStep :=
  ((hfits.and hclears).and hharmless).keeps (fun _ _ h hok => h.step hok.1.1 hok.1.2 hok.2) h

end Machine

/-! ## Accounting -/

/-- The accounting is that of the entry files: every other file is a temporary one, an accounted
key has one live ticket, and a mapping shows its file. -/
structure Accounted (inner : Inner Key) (dir : Directory) : Prop where
  owned : Owned dir
  sizes : ∀ key, inner.sizes.lookup key = (fileOf dir key).map List.length
  total : inner.total = diskUsage dir
  tickets : ∀ key, ((inner.order.filter inner.live).map Prod.fst).count key =
    if key ∈ inner.sizes then 1 else 0
  maps : ∀ key bytes, inner.maps.lookup key = some bytes → fileOf dir key = some bytes

theorem Synced.accounted {inner : Inner Key} {dir : Directory} {shelf : ItemShelf Key Bytes}
    (h : Synced inner dir shelf) (howned : Owned dir) : Accounted inner dir := by
  refine ⟨howned, h.sizes, h.total howned, fun key => ?_, fun _ _ => h.maps⟩
  have hkeys : (inner.order.filter inner.live).map Prod.fst = shelf.keys :=
    h.shelved.queue.tickets.keys
  rw [hkeys, h.nodup.count]
  by_cases hkey : key ∈ shelf.keys
  · rw [if_pos hkey, if_pos ((h.shelved.mem_sizes key).2 (find_isSome.2 hkey))]
  · rw [if_neg hkey, if_neg fun hmem => hkey (find_isSome.1 ((h.shelved.mem_sizes key).1 hmem))]

theorem Event.clears_of_calm {sys : System} (hcalm : sys.Calm) (m : Machine) (e : Event) :
    e.Clears sys m := by
  unfold Event.Clears
  split
  · intro handle _
    exact Program.always_of_forall _ (fun _ w' => hcalm (World.clock w')) _ _
  · trivial

theorem Event.harmless_of_calm {sys : System} (hcalm : sys.Calm) (m : Machine) (e : Event) :
    e.Harmless sys m := by
  unfold Event.Harmless
  split
  · refine fun handle _ => ⟨hcalm.unlinks _ _, fun key value _ hloses => ?_⟩
    simp [System.loses, hcalm _] at hloses
  · trivial

/-- The bytes on disk fit the budget when a put returns. -/
theorem put_fits {sys : System} (hcalm : sys.Calm) {m : Machine} (h : m.InStep) {key : Key}
    {value : Bytes} (hfits : (DiskCall.put key value).Fits m.world.dir) {handle : Handle}
    (hhandle : handle ∈ (m.finish sys (.call (.put key value))).tier) {budget : ℕ+}
    (hbudget : handle.config.budget = some budget) : handle.inner.total ≤ budget := by
  cases htier : m.tier with
  | none =>
    simp only [Machine.finish, htier] at hhandle
    cases hhandle
  | some old =>
    obtain ⟨shelf, hold⟩ := h.synced old (by rw [htier]; rfl)
    simp only [Machine.finish, htier, Fs.perform] at hhandle
    obtain ⟨w', ⟨hstores, -⟩ | ⟨hloses, -⟩ | ⟨out, inner', hrun, hsynced, -⟩⟩ :=
      System.put_run sys hold (hold.room h.owned h.counted)
        (fits_place hold h.owned old.config.eviction hfits) (hcalm.unlinks _ _)
    · simp [System.stores, hcalm _] at hstores
    · simp [System.loses, hcalm _] at hloses
    · rw [hrun] at hhandle
      cases hhandle
      obtain ⟨-, -, -, hfit, -⟩ := Ordered.write_spec old.config.eviction old.config.limits shelf
        (itemOf key value)
      change old.config.budget = some budget at hbudget
      rw [hsynced.shelved.total]
      simpa [Ordered.fits, Config.limits, hbudget] using hfit

/-- Whatever the run opens, calls and stops in between: with a tier open the accounting is that
of the directory, only entry files are served and listed, and a put has evicted down to the
budget. -/
theorem accounting_survives_restarts (sys : System) (hcalm : sys.Calm) (dir : Directory)
    (clock : Nat) (howned : Owned dir) (hcounted : Counted dir) (events : List Event)
    (hfits : Runs.Along (Machine.step sys) Event.Fits { world := { dir, clock }, tier := none }
      events) :
    let final := Machine.run sys { world := { dir, clock }, tier := none } events
    ∀ handle ∈ final.tier, Accounted handle.inner final.world.dir ∧
      (∀ key, (sys.run (Fs.get handle.config handle.inner key) final.world).1.1 =
        .ok (fileOf final.world.dir key)) ∧
      (∀ cursor limit, ∃ page, (sys.run (Fs.list cursor limit) final.world).1 = .ok page ∧
        ∀ key ∈ page.keys, key ∈ handle.inner.sizes) ∧
      ∀ before key value budget, events = before ++ [.done (.call (.put key value))] →
        handle.config.budget = some budget → handle.inner.total ≤ budget := by
  intro final handle hhandle
  have hstart : Machine.InStep { world := { dir, clock }, tier := none } :=
    ⟨howned, hcounted, fun _ h => (by cases h)⟩
  have hrun {events : List Event} (hfits : Runs.Along (Machine.step sys) Event.Fits
      { world := { dir, clock }, tier := none } events) :
      (Machine.run sys { world := { dir, clock }, tier := none } events).InStep :=
    hstart.run hfits (Runs.along_of_forall (fun e _ m => Event.clears_of_calm hcalm m e) _)
      (Runs.along_of_forall (fun e _ m => Event.harmless_of_calm hcalm m e) _)
  have hfinal : final.InStep := hrun hfits
  obtain ⟨shelf, hsynced⟩ := hfinal.synced handle hhandle
  refine ⟨hsynced.accounted hfinal.owned, fun key => ?_, fun cursor limit => ?_, ?_⟩
  · obtain ⟨inner', clock', ⟨hget, -⟩ | ⟨-, hmiss⟩⟩ := System.get_run sys hsynced
      (hsynced.room hfinal.owned hfinal.counted) handle.config key
    · rw [hget]
    · rw [hcalm.misses] at hmiss
      cases hmiss
  · obtain ⟨result, clock', hlist, hok, hkeys⟩ :=
      System.list_run sys hfinal.owned cursor limit
    obtain ⟨page, rfl⟩ := hok hcalm
    refine ⟨page, by rw [hlist], fun key hkey => ?_⟩
    have hfile := hkeys page rfl key hkey
    rw [← AList.lookup_isSome, hsynced.sizes, Option.isSome_map]
    exact hfile
  · rintro before key value budget rfl hbudget
    obtain ⟨hbefore, hlast⟩ := Runs.along_append.1 hfits
    have hend : final = Machine.finish sys (Machine.run sys _ before) (.call (.put key value)) :=
      List.foldl_append
    rw [hend] at hhandle
    exact put_fits hcalm (hrun hbefore) hlast.1 hhandle hbudget

def Machine.blank : Machine := { world := { dir := ∅, clock := 0 }, tier := none }

theorem owned_empty : Owned ∅ := fun name h => absurd h (AList.notMem_empty name)

namespace Shrunk

def keyA : Key := ⟨"a", by decide⟩
def keyB : Key := ⟨"b", by decide⟩

def events : List Event :=
  [.done (.opening none), .done (.call (.put keyA [1, 2])), .stopped (.call (.put keyB [3])) 2,
    .done (.opening (some 4)), .withEviction .lru, .stopped (.call (.put keyB [3, 4, 5])) 5,
    .done (.opening (some ⟨3, by decide⟩)), .done (.call (.get keyA)),
    .done (.call (.put keyB [6]))]

theorem accounting_survives_restarts_shrunk :
    ∃ handle ∈ (Machine.blank.run (.plain fun _ => false) events).tier,
      Accounted handle.inner (Machine.blank.run (.plain fun _ => false) events).world.dir ∧
        handle.inner.total = 3 := by
  have hopen : ((Machine.blank.run (.plain fun _ => false) events).tier.map
      fun handle => handle.inner.total) = some 3 := by decide +kernel
  obtain ⟨handle, hhandle, htotal⟩ := Option.map_eq_some_iff.1 hopen
  have h := accounting_survives_restarts (.plain fun _ => false) (fun _ => rfl) ∅ 0 owned_empty
    (by decide +kernel) events (by decide +kernel) handle hhandle
  exact ⟨handle, hhandle, h.1, htotal⟩

end Shrunk
end Tierstore.Mmap
