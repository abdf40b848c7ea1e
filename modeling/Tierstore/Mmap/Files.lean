import Mathlib.Algebra.Order.BigOperators.Group.List
import Mathlib.Data.List.Perm.Subperm
import Tierstore.Mmap.Directory

/-! What the file-system calls do to the entry files, and which files a tier leaves behind
wherever it stops. -/
namespace Tierstore.Mmap
open Effects

def fileOf (dir : Directory) (key : Key) : Option Bytes := dir.lookup (entryName key)

theorem isSome_fileOf {dir : Directory} {key : Key} :
    (fileOf dir key).isSome ↔ entryName key ∈ dir := AList.lookup_isSome

theorem fileOf_insert_temp (dir : Directory) (key : Key) (bytes : Bytes) :
    fileOf (dir.insert (tempName key) bytes) = fileOf dir := by
  funext x
  exact AList.lookup_insert_ne (entryName_ne_tempName x key)

theorem fileOf_insert (dir : Directory) (key : Key) (bytes : Bytes) :
    fileOf (dir.insert (entryName key) bytes) = Function.update (fileOf dir) key (some bytes) := by
  funext x
  by_cases hx : x = key
  · subst hx
    rw [fileOf, AList.lookup_insert, Function.update_self]
  · rw [fileOf, AList.lookup_insert_ne fun h => hx (entryName_injective h),
      Function.update_of_ne hx, fileOf]

theorem fileOf_erase_temp (dir : Directory) (key : Key) :
    fileOf (dir.erase (tempName key)) = fileOf dir := by
  funext x
  exact AList.lookup_erase_ne (entryName_ne_tempName x key)

theorem fileOf_erase (dir : Directory) (key : Key) :
    fileOf (dir.erase (entryName key)) = Function.update (fileOf dir) key none := by
  funext x
  by_cases hx : x = key
  · subst hx
    rw [fileOf, AList.lookup_erase, Function.update_self]
  · rw [fileOf, AList.lookup_erase_ne fun h => hx (entryName_injective h),
      Function.update_of_ne hx, fileOf]

/-! ## Calls -/
namespace System
variable {sys : System} {w : World} {α β : Type}

@[simp] theorem run_done (a : α) : sys.run (.done a) w = (a, w) := rfl

@[simp] theorem run_ask (q : FsCall) : sys.run (Program.ask q) w = sys.exec q w := rfl

@[simp] theorem run_bind (p : FsM α) (f : α → FsM β) :
    sys.run (p >>= f) w = sys.run (f (sys.run p w).1) (sys.run p w).2 := Program.run_bind _ p f w

theorem always_bind (ok : FsCall → World → Prop) (p : FsM α) (f : α → FsM β) :
    (p >>= f).Always sys.exec ok w ↔
      p.Always sys.exec ok w ∧ (f (sys.run p w).1).Always sys.exec ok (sys.run p w).2 :=
  Program.always_bind _ ok p f w

theorem exec_ok (h : sys.fails w.clock = false) (q : FsCall) :
    sys.exec q w = ((sys.answer w q).1, { dir := (sys.answer w q).2, clock := w.clock + 1 }) := by
  simp [exec, h]

theorem exec_fails (h : sys.fails w.clock = true) (q : FsCall) :
    sys.exec q w = (.error .other, { w with clock := w.clock + 1 }) := by
  simp [exec, h]

theorem ask_ok (h : sys.fails w.clock = false) (q : FsCall)
    (f : Except FsError q.Output → FsM α) :
    sys.run (Program.ask q >>= f) w =
      sys.run (f (sys.answer w q).1) { dir := (sys.answer w q).2, clock := w.clock + 1 } := by
  rw [run_bind, run_ask, exec_ok h]

theorem ask_fails (h : sys.fails w.clock = true) (q : FsCall)
    (f : Except FsError q.Output → FsM α) :
    sys.run (Program.ask q >>= f) w =
      sys.run (f (.error .other)) { w with clock := w.clock + 1 } := by
  rw [run_bind, run_ask, exec_fails h]

def misses (sys : System) (w : World) (key : Key) : Bool :=
  sys.fails w.clock || (decide (entryName key ∈ w.dir) && sys.fails (w.clock + 1))

theorem mapFile_run (sys : System) (w : World) (key : Key) :
    ∃ clock, sys.run (Fs.mapFile (entryName key)) w =
      (if sys.misses w key then .error .other else .ok (fileOf w.dir key), { w with clock }) := by
  rw [Fs.mapFile]
  cases hopen : sys.fails w.clock with
  | true =>
    refine ⟨w.clock + 1, ?_⟩
    rw [ask_fails hopen]
    simp [misses, hopen]
  | false =>
    rw [ask_ok hopen]
    cases hfile : w.dir.lookup (entryName key) with
    | none =>
      have hnot : entryName key ∉ w.dir := AList.lookup_eq_none.1 hfile
      refine ⟨w.clock + 1, ?_⟩
      simp [answer, hfile, fileOf, misses, hopen, hnot]
    | some bytes =>
      have hmem : entryName key ∈ w.dir := AList.lookup_isSome.1 (by simp [hfile])
      refine ⟨w.clock + 2, ?_⟩
      simp only [answer, hfile]
      cases hmap : sys.fails (w.clock + 1) with
      | true =>
        rw [ask_fails hmap]
        simp [misses, hmap, hmem]
      | false =>
        rw [ask_ok hmap]
        simp [answer, hfile, fileOf, misses, hopen, hmap]

def stores (sys : System) (clock : Nat) : Bool :=
  !sys.fails clock && !sys.fails (clock + 1) && !sys.fails (clock + 2)

/-- The entry file is replaced as a whole or not at all. -/
theorem store_run (sys : System) (w : World) (key : Key) (value : Bytes) :
    ∃ w', if sys.stores w.clock then
        sys.run (Fs.store key value) w = (.ok (), w') ∧ w'.clock = w.clock + 3 ∧
          fileOf w'.dir = Function.update (fileOf w.dir) key (some value)
      else sys.run (Fs.store key value) w = (.error .other, w') ∧ fileOf w'.dir = fileOf w.dir := by
  rw [Fs.store, stores]
  cases hcreate : sys.fails w.clock with
  | true =>
    rw [ask_fails hcreate]
    exact ⟨_, rfl, rfl⟩
  | false =>
    rw [ask_ok hcreate]
    simp only [answer]
    cases hwrite : sys.fails (w.clock + 1) with
    | true =>
      rw [ask_fails hwrite]
      exact ⟨_, rfl, fileOf_insert_temp _ _ _⟩
    | false =>
      rw [ask_ok hwrite]
      simp only [answer]
      cases hrename : sys.fails (w.clock + 2) with
      | true =>
        rw [run_ask, exec_fails hrename]
        refine ⟨_, rfl, ?_⟩
        rw [fileOf_insert_temp, fileOf_insert_temp]
      | false =>
        rw [run_ask, exec_ok hrename]
        simp only [answer, AList.lookup_insert]
        refine ⟨_, rfl, rfl, ?_⟩
        rw [fileOf_insert, fileOf_erase_temp, fileOf_insert_temp, fileOf_insert_temp]

theorem unlink_run (sys : System) (w : World) (key : Key) :
    sys.exec (.unlink (entryName key)) w =
      if sys.fails w.clock then (.error .other, { w with clock := w.clock + 1 })
      else if (fileOf w.dir key).isSome then
        (.ok (), { dir := w.dir.erase (entryName key), clock := w.clock + 1 })
      else (.error .notFound, { w with clock := w.clock + 1 }) := by
  cases hunlink : sys.fails w.clock with
  | true =>
    rw [exec_fails hunlink]
    rfl
  | false =>
    rw [exec_ok hunlink, answer]
    by_cases hmem : entryName key ∈ w.dir
    · simp [hmem, isSome_fileOf]
    · simp [hmem, isSome_fileOf]

end System

/-! ## The files of a tier -/

def Owned (dir : Directory) : Prop :=
  ∀ name ∈ dir, ∃ key, name = entryName key ∨ name = tempName key

def Tidy : FsCall → Prop
  | .create name | .write name _ => ∃ key, name = tempName key
  | .rename source target => ∃ key, source = tempName key ∧ target = entryName key
  | _ => True

def Sparing : FsCall → Prop
  | .create name | .write name _ => ∃ key, name = tempName key
  | .rename _ _ => False
  | _ => True

def Reading : FsCall → Prop
  | .create _ | .write _ _ | .rename _ _ | .unlink _ => False
  | _ => True

theorem Reading.sparing {q : FsCall} (h : Reading q) : Sparing q := by
  cases q <;> first | exact trivial | cases h

theorem Sparing.tidy {q : FsCall} (h : Sparing q) : Tidy q := by
  cases q <;> first | exact h | exact trivial | cases h

theorem Owned.insert {dir : Directory} (h : Owned dir) {name : FileName}
    (hname : ∃ key, name = entryName key ∨ name = tempName key) (bytes : Bytes) :
    Owned (dir.insert name bytes) := by
  intro x hx
  obtain rfl | hold := (AList.mem_insert _).1 hx
  · exact hname
  · exact h x hold

theorem Owned.erase {dir : Directory} (h : Owned dir) (name : FileName) :
    Owned (dir.erase name) := fun x hx => h x (AList.mem_erase.1 hx).2

theorem Owned.exec {sys : System} {w : World} (h : Owned w.dir) {q : FsCall} (hq : Tidy q) :
    Owned (sys.exec q w).2.dir := by
  cases hfails : sys.fails w.clock with
  | true =>
    rw [System.exec_fails hfails]
    exact h
  | false =>
    rw [System.exec_ok hfails]
    change Owned (sys.answer w q).2
    cases q with
    | create name =>
      obtain ⟨key, rfl⟩ := hq
      exact h.insert ⟨key, Or.inr rfl⟩ []
    | write name bytes =>
      obtain ⟨key, rfl⟩ := hq
      exact h.insert ⟨key, Or.inr rfl⟩ bytes
    | rename source target =>
      obtain ⟨key, rfl, rfl⟩ := hq
      unfold System.answer
      dsimp only
      split
      · exact h
      · exact (h.erase _).insert ⟨key, Or.inl rfl⟩ _
    | openFile name =>
      unfold System.answer
      dsimp only
      split <;> exact h
    | unlink name =>
      unfold System.answer
      dsimp only
      split
      · exact h.erase name
      · exact h
    | createDir | mapFile _ | tryExists _ | readDir => exact h

def Below (files files' : Key → Option Bytes) : Prop :=
  ∀ key bytes, files key = some bytes → files' key = some bytes

theorem Below.refl (files : Key → Option Bytes) : Below files files := fun _ _ h => h

theorem Below.trans {files files' files'' : Key → Option Bytes} (h : Below files files')
    (h' : Below files' files'') : Below files files'' :=
  fun key bytes hk => h' key bytes (h key bytes hk)

theorem below_erase (dir : Directory) (name : FileName) :
    Below (fileOf (dir.erase name)) (fileOf dir) := by
  intro key bytes h
  by_cases hname : entryName key = name
  · rw [fileOf, hname, AList.lookup_erase] at h
    cases h
  · rwa [fileOf, AList.lookup_erase_ne hname] at h

theorem below_exec (sys : System) (w : World) {q : FsCall} (hq : Sparing q) :
    Below (fileOf (sys.exec q w).2.dir) (fileOf w.dir) := by
  cases hfails : sys.fails w.clock with
  | true =>
    rw [System.exec_fails hfails]
    exact .refl _
  | false =>
    rw [System.exec_ok hfails]
    change Below (fileOf (sys.answer w q).2) _
    cases q with
    | create name =>
      obtain ⟨key, rfl⟩ := hq
      rw [System.answer, fileOf_insert_temp]
      exact .refl _
    | write name bytes =>
      obtain ⟨key, rfl⟩ := hq
      rw [System.answer, fileOf_insert_temp]
      exact .refl _
    | rename source target => cases hq
    | openFile name =>
      unfold System.answer
      dsimp only
      split <;> exact .refl _
    | unlink name =>
      unfold System.answer
      dsimp only
      split
      · exact below_erase _ _
      · exact .refl _
    | createDir | mapFile _ | tryExists _ | readDir => exact .refl _

def entrySizes (dir : Directory) : List (Key × Nat) :=
  dir.keys.filterMap fun name =>
    (keyOf name).map fun key => (key, ((dir.lookup name).getD []).length)

def diskUsage (dir : Directory) : Nat := ((entrySizes dir).map Prod.snd).sum

structure Counted (dir : Directory) : Prop where
  bytes : diskUsage dir ≤ usizeMax
  entries : (entrySizes dir).length + 1 < 2 ^ 64

instance (dir : Directory) : Decidable (Counted dir) :=
  decidable_of_iff (diskUsage dir ≤ usizeMax ∧ (entrySizes dir).length + 1 < 2 ^ 64)
    ⟨fun h => ⟨h.1, h.2⟩, fun h => ⟨h.1, h.2⟩⟩

section Owned
variable {dir : Directory}

theorem Owned.name_eq (h : Owned dir) {name : FileName} (hname : name ∈ dir) {key : Key}
    (hkey : keyOf name = some key) : name = entryName key := by
  obtain ⟨owner, rfl | rfl⟩ := h name hname
  · rw [keyOf_entryName] at hkey
    rw [Option.some.inj hkey]
  · rw [keyOf_tempName] at hkey
    cases hkey

theorem mem_entrySizes (h : Owned dir) {key : Key} {len : Nat} :
    (key, len) ∈ entrySizes dir ↔ (fileOf dir key).map List.length = some len := by
  rw [entrySizes, List.mem_filterMap]
  constructor
  · rintro ⟨name, hname, hentry⟩
    obtain ⟨found, hkey, hfound⟩ := Option.map_eq_some_iff.1 hentry
    cases hfound
    have heq := h.name_eq hname hkey
    subst heq
    obtain ⟨bytes, hbytes⟩ := Option.isSome_iff_exists.1 (AList.lookup_isSome.2 hname)
    simp [fileOf, hbytes]
  · intro hfile
    obtain ⟨bytes, hbytes, rfl⟩ := Option.map_eq_some_iff.1 hfile
    have hmem : entryName key ∈ dir := isSome_fileOf.1 (by rw [hbytes]; rfl)
    rw [fileOf] at hbytes
    exact ⟨entryName key, hmem, by simp [keyOf_entryName, hbytes]⟩

theorem nodup_entrySizes (h : Owned dir) : ((entrySizes dir).map Prod.fst).Nodup := by
  rw [entrySizes, List.map_filterMap, List.Nodup, List.pairwise_filterMap]
  refine dir.keys_nodup.imp_of_mem fun {name other} hname hother hne => ?_
  intro key hkey key' hkey' heq
  subst heq
  simp only [Option.map_map, Option.map_eq_some_iff] at hkey hkey'
  obtain ⟨_, hdecode, rfl⟩ := hkey
  obtain ⟨_, hdecode', heq⟩ := hkey'
  refine hne ((h.name_eq hname hdecode).trans ((h.name_eq hother hdecode').trans ?_).symm)
  exact congrArg entryName heq

theorem Counted.below {dir' : Directory} (hcounted : Counted dir') (h : Owned dir)
    (h' : Owned dir') (hbelow : Below (fileOf dir) (fileOf dir')) : Counted dir := by
  have hsub : entrySizes dir ⊆ entrySizes dir' := by
    rintro ⟨key, len⟩ hmem
    rw [mem_entrySizes h] at hmem
    rw [mem_entrySizes h']
    obtain ⟨bytes, hbytes, rfl⟩ := Option.map_eq_some_iff.1 hmem
    rw [hbelow key bytes hbytes]
    rfl
  have hsubperm := (nodup_entrySizes h).of_map.subperm hsub
  refine ⟨le_trans ?_ hcounted.bytes, ?_⟩
  · obtain ⟨part, hperm, hpart⟩ := hsubperm
    rw [diskUsage, ← (hperm.map Prod.snd).sum_eq]
    exact (hpart.map Prod.snd).sum_le_sum fun _ _ => Nat.zero_le _
  · have hlen := hsubperm.length_le
    have hentries := hcounted.entries
    omega

end Owned

/-! ## What the programs ask -/

abbrev Asks {α : Type} (ok : FsCall → Prop) (p : FsM α) : Prop :=
  p.Safe ok (fun _ _ => True) fun _ => True

namespace Fs
variable (config : Config) (inner : Inner Key) (key : Key)

theorem mapFile_asks (name : FileName) : Asks Reading (mapFile name) := by
  refine Program.Safe.bind (Program.Safe.ask trivial) fun opened _ => ?_
  cases opened with
  | error e => cases e <;> trivial
  | ok file =>
    refine Program.Safe.bind (Program.Safe.ask trivial) fun mapped _ => ?_
    cases mapped <;> trivial

theorem get_asks : Asks Reading (get config inner key) := by
  unfold get
  split
  split
  · trivial
  · refine Program.Safe.bind (mapFile_asks _) fun mapped _ => ?_
    cases mapped with
    | error e => trivial
    | ok found => cases found <;> trivial

theorem exists_asks : Asks Reading (exists_ inner key) := by
  unfold exists_
  split
  · trivial
  · exact Program.Safe.bind (Program.Safe.ask trivial) fun _ _ => trivial

theorem evictLoop_asks (budget turns : Nat) : Asks Sparing (evictLoop budget turns inner) := by
  induction turns generalizing inner with
  | zero => trivial
  | succ turns ih =>
    unfold evictLoop
    split
    · split
      · trivial
      · next oldest rest _ =>
        have hvictim : Asks Sparing (victimBytes rest oldest) := by
          unfold victimBytes
          split
          · trivial
          · refine Program.Safe.bind ((mapFile_asks _).weaken fun _ => Reading.sparing)
              fun mapped _ => ?_
            cases mapped <;> trivial
        refine Program.Safe.bind hvictim fun bytes _ => ?_
        refine Program.Safe.bind (Program.Safe.ask trivial) fun _ _ => ?_
        exact Program.Safe.bind (ih _) fun _ _ => trivial
    · trivial

theorem account_asks (len : Nat) (mapped : Option Bytes) :
    Asks Sparing (account config inner key len mapped) := by
  unfold account
  dsimp only
  split
  · trivial
  · exact evictLoop_asks _ _ _

theorem store_asks (value : Bytes) : Asks Tidy (store key value) := by
  refine Program.Safe.bind (Program.Safe.ask ⟨key, rfl⟩) fun created _ => ?_
  cases created with
  | error e => trivial
  | ok _ =>
    refine Program.Safe.bind (Program.Safe.ask ⟨key, rfl⟩) fun written _ => ?_
    cases written with
    | error e => trivial
    | ok _ =>
      have htidy : Tidy (.rename (tempName key) (entryName key)) := ⟨key, rfl, rfl⟩
      exact (Program.Safe.ask htidy).mono fun _ _ => trivial

/-- What a put does once the file is in place. -/
theorem finish_asks (value : Bytes) : Asks Sparing (do
    match ← mapFile (entryName key) with
    | .error e => pure (.error e, inner)
    | .ok mapped => do
      let out ← account config inner key value.length mapped
      pure ((.ok out.1, out.2) : Except FsError (Displaced Key Bytes) × Inner Key)) := by
  refine Program.Safe.bind ((mapFile_asks _).weaken fun _ => Reading.sparing) fun mapped _ => ?_
  cases mapped with
  | error e => trivial
  | ok found => exact Program.Safe.bind (account_asks _ _ _ _ _) fun _ _ => trivial

theorem put_asks (value : Bytes) : Asks Tidy (put config inner key value) := by
  refine Program.Safe.bind (store_asks key value) fun stored _ => ?_
  cases stored with
  | error e => trivial
  | ok _ => exact (finish_asks config inner key value).weaken fun _ => Sparing.tidy

theorem delete_asks : Asks Sparing (delete inner key) := by
  refine Program.Safe.bind (Program.Safe.ask trivial) fun gone _ => ?_
  cases gone with
  | error e => cases e <;> trivial
  | ok _ => trivial

theorem unlinkAll_asks (entries : List DirEntry) : Asks Sparing (unlinkAll entries) := by
  induction entries with
  | nil => trivial
  | cons entry rest ih => exact Program.Safe.bind (Program.Safe.ask trivial) fun _ _ => ih

theorem clear_asks : Asks Sparing (clear inner) := by
  refine Program.Safe.bind (Program.Safe.ask trivial) fun read _ => ?_
  cases read with
  | error e => trivial
  | ok entries => exact Program.Safe.bind (unlinkAll_asks entries) fun _ _ => trivial

theorem list_asks (cursor : Option Nat) (limit : Nat) : Asks Reading (list cursor limit) := by
  refine Program.Safe.bind (Program.Safe.ask trivial) fun read _ => ?_
  cases read <;> trivial

theorem openInner_asks : Asks Reading openInner := by
  refine Program.Safe.bind (Program.Safe.ask trivial) fun made _ => ?_
  cases made with
  | error e => trivial
  | ok _ =>
    refine Program.Safe.bind (Program.Safe.ask trivial) fun read _ => ?_
    cases read <;> trivial

end Fs

namespace System
variable {α : Type} (sys : System)

theorem run_owned {p : FsM α} (hp : Asks Tidy p) {w : World} (h : Owned w.dir) :
    Owned (sys.run p w).2.dir := by
  have hstep (q : FsCall) (w : World) (hs : Owned w.dir) (hq : Tidy q) :
      True ∧ Owned (sys.exec q w).2.dir := ⟨trivial, hs.exec hq⟩
  exact (Program.Safe.run (σ := World) hstep hp h).2

theorem run_below {p : FsM α} (hp : Asks Sparing p) (w : World) :
    Below (fileOf (sys.run p w).2.dir) (fileOf w.dir) := by
  have hstep (q : FsCall) (w' : World) (hs : Below (fileOf w'.dir) (fileOf w.dir))
      (hq : Sparing q) : True ∧ Below (fileOf (sys.exec q w').2.dir) (fileOf w.dir) :=
    ⟨trivial, (below_exec sys w' hq).trans hs⟩
  exact (Program.Safe.run (σ := World) hstep hp (Below.refl _)).2

/-- The same system when the process stops at the `last` call: from there on no call has an
effect. -/
def stopped (last : Nat) : System :=
  { sys with fails := fun clock => decide (last ≤ clock) || sys.fails clock }

theorem runFor_dir (n : Nat) (p : FsM α) (w : World) :
    (p.runFor sys.exec n w).dir = ((sys.stopped (w.clock + n)).run p w).2.dir := by
  induction p generalizing n w with
  | done a => cases n <;> rfl
  | call q next ih =>
    cases n with
    | zero =>
      have hstop : ∀ (p : FsM α) (w' : World), w.clock ≤ w'.clock →
          ((sys.stopped w.clock).run p w').2.dir = w'.dir := by
        intro p
        induction p with
        | done a => exact fun _ _ => rfl
        | call q next ih' =>
          intro w' hle
          have hfails : (sys.stopped w.clock).fails w'.clock = true := by simp [stopped, hle]
          change ((sys.stopped w.clock).run (next _) _).2.dir = _
          rw [exec_fails hfails]
          exact ih' _ _ (Nat.le_succ_of_le hle)
      exact (hstop _ w (Nat.le_refl _)).symm
    | succ n =>
      have hexec : (sys.stopped (w.clock + (n + 1))).exec q w = sys.exec q w := by
        have hnot : ¬ w.clock + (n + 1) ≤ w.clock := by omega
        unfold exec
        simp only [stopped, hnot, decide_false, Bool.false_or]
        rfl
      have hclock : (sys.exec q w).2.clock = w.clock + 1 := by
        cases hfails : sys.fails w.clock with
        | true => rw [exec_fails hfails]
        | false => rw [exec_ok hfails]
      have hnext := ih (sys.exec q w).1 n (sys.exec q w).2
      rw [hclock, Nat.add_right_comm, Nat.add_assoc] at hnext
      change (Program.runFor sys.exec n _ _).dir = ((sys.stopped _).run (next _) _).2.dir
      rw [hexec]
      exact hnext

end System
end Tierstore.Mmap
