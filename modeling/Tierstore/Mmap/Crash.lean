import Tierstore.Mmap.Restart

/-! What survives: file-system calls fail, and the process stops and opens the directory again.
An acknowledged put is lost to nothing but a later call on its key, a clear or an eviction, and
a deleted value never comes back. -/
namespace Tierstore.Mmap
open Effects

def Event.call? : Event → Option DiskCall
  | .done (.call c) => some c
  | .stopped (.call c) _ => some c
  | _ => none

/-- What the file of a key may hold after a call, if it held one of `old` before. -/
def DiskCall.fates (key : Key) (returns evicts : Bool) (old : List (Option Bytes)) :
    DiskCall → List (Option Bytes)
  | .put other value =>
    let left := if other = key then if returns then [some value] else some value :: old else old
    if evicts then none :: left else left
  | .delete other => if other = key then if returns then [none] else none :: old else old
  | .clear => none :: old
  | .get _ => old
  | .exists_ _ => old
  | .list _ _ => old

namespace Machine

def returns (sys : System) (m : Machine) : Event → Bool
  | .done (.call c) =>
    match m.tier with
    | none => false
    | some handle => (sys.run (Fs.perform handle.config handle.inner c) m.world).1.1.isOk
  | _ => false

def fates (sys : System) (key : Key) (m : Machine) (old : List (Option Bytes)) (e : Event) :
    List (Option Bytes) :=
  match m.tier, e.call? with
  | some handle, some c => c.fates key (m.returns sys e) handle.config.budget.isSome old
  | _, _ => old

def fatesAlong (sys : System) (key : Key) : Machine → List (Option Bytes) → List Event →
    List (Option Bytes)
  | _, old, [] => old
  | m, old, e :: rest => fatesAlong sys key (m.step sys e) (m.fates sys key old e) rest

end Machine

/-! ## One call -/
section Call
variable (sys : System) {w : World} {key : Key} {old : List (Option Bytes)}

theorem reading_exec (w : World) {q : FsCall} (hq : Reading q) : (sys.exec q w).2.dir = w.dir := by
  cases hfails : sys.fails w.clock with
  | true => rw [System.exec_fails hfails]
  | false =>
    rw [System.exec_ok hfails]
    cases q with
    | create name => cases hq
    | write name bytes => cases hq
    | rename source target => cases hq
    | unlink name => cases hq
    | openFile name =>
      change (sys.answer w (.openFile name)).2 = w.dir
      unfold System.answer
      dsimp only
      split <;> rfl
    | createDir => rfl
    | mapFile file => rfl
    | tryExists name => rfl
    | readDir => rfl

theorem reading_run {α : Type} {p : FsM α} (hp : Asks Reading p) (w : World) :
    (sys.run p w).2.dir = w.dir := by
  induction p generalizing w with
  | done a => rfl
  | call q next ih => exact (ih _ (hp.2 _ trivial) _).trans (reading_exec sys w hp.1)

/-- An unbounded tier evicts nothing. -/
theorem finish_reads {config : Config} (hbudget : config.budget = none) (inner : Inner Key)
    (value : Bytes) : Asks Reading (do
      match ← Fs.mapFile (entryName key) with
      | .error e => pure (.error e, inner)
      | .ok mapped => do
        let out ← Fs.account config inner key value.length mapped
        pure ((.ok out.1, out.2) : Except FsError (Displaced Key Bytes) × Inner Key)) := by
  refine Program.Safe.bind (Fs.mapFile_asks _) fun mapped _ => ?_
  cases mapped with
  | error e => trivial
  | ok mapped =>
    have hnothing : Fs.account config inner key value.length mapped =
        pure ([], inner.record config.eviction key value.length mapped) := by
      simp only [Fs.account, hbudget]
    dsimp only
    rw [hnothing]
    trivial

/-- A put has failed with the files as they were, or put the new one in place. -/
theorem put_cases (config : Config) (inner : Inner Key) (w : World) (key : Key) (value : Bytes) :
    let out := sys.run (Fs.put config inner key value) w
    (out.1.1.isOk = false ∧ fileOf out.2.dir = fileOf w.dir) ∨
      (Below (fileOf out.2.dir) (Function.update (fileOf w.dir) key (some value)) ∧
        (config.budget = none →
          fileOf out.2.dir = Function.update (fileOf w.dir) key (some value))) := by
  obtain ⟨stored, hstore⟩ := sys.store_run w key value
  rw [Fs.put, System.run_bind]
  cases hstores : sys.stores w.clock with
  | false =>
    rw [hstores, if_neg Bool.false_ne_true] at hstore
    rw [hstore.1]
    exact Or.inl ⟨rfl, hstore.2⟩
  | true =>
    rw [hstores, if_pos rfl] at hstore
    obtain ⟨hrun, -, hfile⟩ := hstore
    rw [hrun, ← hfile]
    refine Or.inr ⟨sys.run_below (Fs.finish_asks config inner key value) stored, fun hbudget => ?_⟩
    exact congrArg fileOf (reading_run sys (finish_reads hbudget inner value) stored)

theorem delete_fails (h : sys.fails w.clock = true) (inner : Inner Key) (key : Key) :
    (sys.run (Fs.delete inner key) w).1.1 = .error .other := by
  rw [Fs.delete, System.ask_fails h]
  rfl

theorem below_mem {files files' : Key → Option Bytes} (h : Below files files')
    (hold : files' key ∈ old) : files key ∈ none :: old := by
  cases hfile : files key with
  | none => exact List.mem_cons_self
  | some bytes =>
    rw [h key bytes hfile] at hold
    exact List.mem_cons_of_mem none hold

/-- Whether a call returns or not, the file of a key holds one of its fates. -/
theorem perform_fates (config : Config) (inner : Inner Key) (w : World) (c : DiskCall)
    (hold : fileOf w.dir key ∈ old) {returns : Bool}
    (hreturns : returns = true → (sys.run (Fs.perform config inner c) w).1.1.isOk = true) :
    fileOf (sys.run (Fs.perform config inner c) w).2.dir key ∈
      c.fates key returns config.budget.isSome old := by
  have hreading (hp : Asks Reading (Fs.perform config inner c)) :
      fileOf (sys.run (Fs.perform config inner c) w).2.dir key ∈ old := by
    rwa [reading_run sys hp w]
  cases c with
  | get other => exact hreading (Fs.get_asks config inner other)
  | exists_ other => exact hreading (Fs.exists_asks inner other)
  | list cursor limit => exact hreading (Fs.list_page_asks config inner cursor limit)
  | clear => exact below_mem (sys.run_below (Fs.clear_asks inner) w) hold
  | delete other =>
    obtain ⟨result, w', hrun, hcases⟩ := System.delete_run sys w inner other
    have hw' : (sys.run (Fs.delete inner other) w).2 = w' := by rw [hrun]
    rw [Fs.perform, DiskCall.fates, hw']
    by_cases hother : other = key
    · subst hother
      rw [if_pos rfl]
      obtain ⟨hfails, hdir⟩ | ⟨-, -, hfile⟩ := hcases
      · cases returns with
        | true =>
          have hok := hreturns rfl
          rw [Fs.perform, delete_fails sys hfails] at hok
          cases hok
        | false =>
          rw [hdir]
          exact List.mem_cons_of_mem none hold
      · rw [hfile, Function.update_self]
        cases returns <;> exact List.mem_cons_self
    · rw [if_neg hother]
      obtain ⟨-, hdir⟩ | ⟨-, -, hfile⟩ := hcases
      · rwa [hdir]
      · rwa [hfile, Function.update_of_ne (Ne.symm hother)]
  | put other value =>
    have hnew : Function.update (fileOf w.dir) other (some value) key ∈
        if other = key then if returns then [some value] else some value :: old else old := by
      by_cases hother : other = key
      · subst hother
        rw [if_pos rfl, Function.update_self]
        cases returns <;> exact List.mem_cons_self
      · rwa [if_neg hother, Function.update_of_ne (Ne.symm hother)]
    rw [Fs.perform, DiskCall.fates]
    obtain ⟨hfailed, hsame⟩ | ⟨hplaced, hunbounded⟩ := put_cases sys config inner w other value
    · cases returns with
      | true =>
        have hok := hreturns rfl
        rw [Fs.perform, hfailed] at hok
        cases hok
      | false =>
        have hstill : fileOf w.dir key ∈ if other = key then some value :: old else old := by
          split
          · exact List.mem_cons_of_mem _ hold
          · exact hold
        rw [hsame]
        cases hbudget : config.budget.isSome with
        | true => exact List.mem_cons_of_mem none hstill
        | false => exact hstill
    · cases hbudget : config.budget with
      | none =>
        rw [hunbounded hbudget]
        exact hnew
      | some budget => exact below_mem hplaced hnew

end Call

namespace Machine
variable (sys : System) {m : Machine} {key : Key} {old : List (Option Bytes)}

theorem opening_dir (sys : System) (m : Machine) (budget : Option ℕ+) :
    (m.finish sys (.opening budget)).world.dir = m.world.dir :=
  reading_run sys Fs.openInner_asks m.world

/-- One event, with all its failures and wherever it stops. -/
theorem step_fates (hold : fileOf m.world.dir key ∈ old) (e : Event) :
    fileOf (m.step sys e).world.dir key ∈ m.fates sys key old e := by
  have hopening (sys : System) (budget : Option ℕ+) :
      fileOf (m.finish sys (.opening budget)).world.dir key ∈ old := by
    rwa [opening_dir]
  cases htier : m.tier with
  | none =>
    rw [fates, htier]
    cases e with
    | withEviction eviction => exact hold
    | done job =>
      cases job with
      | opening budget => exact hopening sys budget
      | call c =>
        change fileOf (m.finish sys (.call c)).world.dir key ∈ old
        rwa [finish, htier]
    | stopped job n =>
      cases job with
      | opening budget =>
        change fileOf (m.stop sys n (.opening budget)).world.dir key ∈ old
        rw [(stop_eq sys m n (.opening budget)).1]
        exact hopening _ budget
      | call c =>
        change fileOf (m.stop sys n (.call c)).world.dir key ∈ old
        rwa [stop, htier]
  | some handle =>
    rw [fates, htier]
    cases e with
    | withEviction eviction => exact hold
    | done job =>
      cases job with
      | opening budget => exact hopening sys budget
      | call c =>
        change fileOf (m.finish sys (.call c)).world.dir key ∈
          c.fates key (m.returns sys (.done (.call c))) handle.config.budget.isSome old
        rw [finish, returns, htier]
        exact perform_fates sys handle.config handle.inner m.world c hold id
    | stopped job n =>
      cases job with
      | opening budget =>
        change fileOf (m.stop sys n (.opening budget)).world.dir key ∈ old
        rw [(stop_eq sys m n (.opening budget)).1]
        exact hopening _ budget
      | call c =>
        change fileOf (m.stop sys n (.call c)).world.dir key ∈
          c.fates key false handle.config.budget.isSome old
        rw [(stop_eq sys m n (.call c)).1, finish, htier]
        exact perform_fates _ handle.config handle.inner m.world c hold
          fun h => (Bool.false_ne_true h).elim

theorem run_fates (hold : fileOf m.world.dir key ∈ old) (events : List Event) :
    fileOf (m.run sys events).world.dir key ∈ fatesAlong sys key m old events := by
  induction events generalizing m old with
  | nil => exact hold
  | cons e rest ih => exact ih (step_fates sys hold e)

end Machine

/-! ## Opened again -/

/-- A tier that was just opened has mapped nothing. -/
theorem openInner_maps (sys : System) (w : World) {inner : Inner Key}
    (h : (sys.run Fs.openInner w).1 = .ok inner) : inner.maps = ∅ := by
  have hsafe : Fs.openInner.Safe (fun _ => True) (fun _ _ => True)
      fun result => ∀ inner, result = .ok inner → inner.maps = ∅ := by
    refine ⟨trivial, fun made _ => ?_⟩
    cases made with
    | error e => exact fun _ hok => by cases hok
    | ok _ =>
      refine ⟨trivial, fun read _ => ?_⟩
      cases read with
      | error e => exact fun _ hok => by cases hok
      | ok entries =>
        intro inner hok
        cases hok
        exact Inner.scan_maps (Fs.found entries)
  have hstep (q : FsCall) (w : World) (_ : True) (_ : True) : True ∧ True := ⟨trivial, trivial⟩
  exact (Program.Safe.run (σ := World) hstep hsafe trivial).1 inner h

theorem get_unmapped (sys : System) (w : World) (config : Config) {inner : Inner Key}
    (hmaps : inner.maps = ∅) (key : Key) :
    (sys.run (Fs.get config inner key) w).1.1 = .error .other ∨
      (sys.run (Fs.get config inner key) w).1.1 = .ok (fileOf w.dir key) := by
  have hprobe : inner.probe config.eviction key = (none, inner) := by
    simp [Inner.probe, hmaps]
  obtain ⟨clock, hmap⟩ := System.mapFile_run sys w key
  rw [Fs.get, hprobe]
  dsimp only
  rw [System.run_bind, hmap]
  cases sys.misses w key with
  | true => exact Or.inl rfl
  | false =>
    refine Or.inr ?_
    rw [if_neg Bool.false_ne_true]
    cases fileOf w.dir key <;> rfl

/-- Whatever file-system calls fail, and however often the process stops and where: once the
directory is opened again, a get answers with one of the fates that the calls so far have left
to its key, unless it fails itself. -/
theorem acknowledged_survives (sys : System) (m : Machine) (events : List Event)
    (budget : Option ℕ+) (key : Key) :
    let final := (m.run sys events).step sys (.done (.opening budget))
    ∀ handle ∈ final.tier,
      let answer := (sys.run (Fs.get handle.config handle.inner key) final.world).1.1
      answer = .error .other ∨
        ∃ found ∈ m.fatesAlong sys key [fileOf m.world.dir key] events, answer = .ok found := by
  intro final handle hhandle
  have hheld : fileOf final.world.dir key ∈
      m.fatesAlong sys key [fileOf m.world.dir key] events := by
    change fileOf ((m.run sys events).finish sys (.opening budget)).world.dir key ∈ _
    rw [Machine.opening_dir]
    exact Machine.run_fates sys (List.mem_singleton.2 rfl) events
  have hmaps : handle.inner.maps = ∅ := by
    simp only [final, Machine.step, Machine.finish] at hhandle
    cases hopen : (sys.run Fs.openInner (m.run sys events).world).1 with
    | error e =>
      rw [hopen] at hhandle
      cases hhandle
    | ok inner =>
      rw [hopen] at hhandle
      cases hhandle
      exact openInner_maps sys _ hopen
  obtain hfails | hok := get_unmapped sys final.world handle.config hmaps key
  · exact Or.inl hfails
  · exact Or.inr ⟨_, hheld, hok⟩

end Tierstore.Mmap
