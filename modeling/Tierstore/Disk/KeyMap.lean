import Tierstore.Disk.Tier
import Tierstore.Lib.Runs

/-! One client alone: under keys that are not empty, the file-per-key tier is a plain map, and
writes nothing but direct children of its root. -/
namespace Tierstore.Disk
open Effects Files Mmap

inductive DiskCall where
  | put (key : String) (value : Bytes) (cuts : List Nat)
  | get (key : String)
  | exists_ (key : String)
  | delete (key : String)
  | list (cursor : Option Nat) (limit : Nat)

abbrev DiskCall.Output : DiskCall → Type
  | .put _ _ _ => Displaced String Bytes
  | .get _ => Option Bytes
  | .exists_ _ => Bool
  | .delete _ => Bool
  | .list _ _ => Page String Nat

def DiskCall.program (root : Path) : (c : DiskCall) → FsM (Except FsError c.Output)
  | .put key value cuts => DiskTier.put root cuts key value
  | .get key => DiskTier.get root key
  | .exists_ key => DiskTier.exists_ root key
  | .delete key => DiskTier.delete root key
  | .list cursor limit => DiskTier.list root cursor limit

def DiskCall.Named : DiskCall → Prop
  | .put key _ _ => key ≠ ""
  | .get key => key ≠ ""
  | .exists_ key => key ≠ ""
  | .delete key => key ≠ ""
  | .list _ _ => True

instance (c : DiskCall) : Decidable c.Named := by
  cases c <;> unfold DiskCall.Named <;> infer_instance

namespace DiskTier

def perform (sys : System) (root : Path) (fs : FileSystem) (c : DiskCall) :
    Except FsError c.Output × FileSystem := (c.program root).run (exec sys) fs

end DiskTier

/-- What the tier is for: a map from keys to values, which lists its keys in order. -/
abbrev KeyMap := AList fun _ : String => Bytes

namespace KeyMap

def sortedKeys (m : KeyMap) : List String := m.keys.insertionSort fun a b => a ≤ b

def perform (m : KeyMap) : (c : DiskCall) → Except FsError c.Output × KeyMap
  | .put key value _ => (.ok [], m.insert key value)
  | .get key => (.ok (m.lookup key), m)
  | .exists_ key => (.ok (m.lookup key).isSome, m)
  | .delete key => (.ok (m.lookup key).isSome, m.erase key)
  | .list cursor limit => (.ok (DiskTier.page (sortedKeys m) cursor limit), m)

end KeyMap

/-- The entries under the root are the map's: no name there is a directory, and a name that
decodes is the hex name of its key. -/
structure Mirrors (root : Path) (fs : FileSystem) (m : KeyMap) : Prop where
  dir : fs.IsDir root
  plain : ∀ name, ¬ fs.IsDir (root ++ [.normal name])
  held : ∀ key, key ≠ "" → fs.held (pathFor root key) = m.lookup key
  named : m.lookup "" = none
  tidy : ∀ name key, fs.held (root ++ [.normal name]) ≠ none → keyOf name = some key →
    key ≠ "" ∧ name = hexName key

structure Fresh (root : Path) (fs : FileSystem) : Prop where
  dir : fs.IsDir root
  empty : ∀ name, root ++ [.normal name] ∉ fs.names

variable {root : Path} {fs fs' : FileSystem} {m : KeyMap} {key : String}

theorem Fresh.mirrors (h : Fresh root fs) : Mirrors root fs ∅ where
  dir := h.dir
  plain name hdir := h.empty name (Table.mem_names.2 (Or.inl hdir))
  held key hkey := by
    by_contra hheld
    rw [pathFor_of_ne hkey, AList.lookup_empty] at hheld
    exact h.empty _ (Table.mem_names.2 (Or.inr hheld))
  named := AList.lookup_empty _
  tidy name key hheld _ := absurd (Table.mem_names.2 (Or.inr hheld)) (h.empty name)

namespace Mirrors

theorem ready (h : Mirrors root fs m) (hkey : key ≠ "") : Ready root key fs where
  dir := h.dir
  entry := by
    rw [pathFor_of_ne hkey]
    exact h.plain _
  temp := by
    rw [tempFor_of_ne hkey]
    exact h.plain _

/-- The entry of a key changes, and maybe its temporary file goes. -/
theorem update (h : Mirrors root fs m) (hkey : key ≠ "") {m' : KeyMap} {v : Option Bytes}
    (hdirs : ∀ p, fs'.IsDir p ↔ fs.IsDir p)
    (hentry : fs'.held (pathFor root key) = v) (hlookup : m'.lookup key = v)
    (hrest : ∀ p, p ≠ pathFor root key → p ≠ tempFor root key → fs'.held p = fs.held p)
    (hgone : ∀ p, fs'.held p ≠ none → fs.held p ≠ none ∨ p = pathFor root key)
    (hother : ∀ other, other ≠ key → m'.lookup other = m.lookup other) :
    Mirrors root fs' m' where
  dir := (hdirs root).2 h.dir
  plain name hdir := h.plain name ((hdirs _).1 hdir)
  held other hne := by
    by_cases heq : other = key
    · rw [heq, hentry, hlookup]
    · rw [hrest _ (fun hp => heq ((pathFor_inj hne hkey).1 hp)) (pathFor_ne_tempFor hne hkey),
        h.held other hne, hother other heq]
  named := by rw [hother "" (Ne.symm hkey), h.named]
  tidy name key' hheld hkeyOf := by
    obtain hold | hnew := hgone _ hheld
    · exact h.tidy name key' hold hkeyOf
    · rw [pathFor_of_ne hkey] at hnew
      obtain rfl : name = hexName key := child_injective hnew
      rw [keyOf_hexName] at hkeyOf
      obtain rfl : key = key' := Option.some.inj hkeyOf
      exact ⟨hkey, rfl⟩

/-! ## The listing -/

theorem nameIn_eq_some {dir path : Path} {name : FileName} :
    FileSystem.nameIn dir path = some name ↔ path = dir ++ [.normal name] := by
  constructor
  · intro h
    unfold FileSystem.nameIn at h
    split at h
    next name' hlast =>
      split at h
      next hdrop =>
        obtain rfl : name' = name := by simpa using h
        rw [← hdrop]
        exact (List.dropLast_append_getLast? _ hlast).symm
      next => cases h
    next => cases h
  · rintro rfl
    simp [FileSystem.nameIn]

theorem mem_children {name : FileName} :
    name ∈ fs.children root ↔ root ++ [.normal name] ∈ fs.names := by
  rw [FileSystem.children, List.mem_filterMap]
  constructor
  · rintro ⟨path, hpath, hname⟩
    rw [nameIn_eq_some.1 hname] at hpath
    exact AList.mem_keys.2 hpath
  · intro h
    exact ⟨_, AList.mem_keys.1 h, nameIn_eq_some.2 rfl⟩

/-- The names that decode are those of the map's keys. -/
theorem mem_listed (h : Mirrors root fs m) :
    key ∈ (fs.children root).filterMap keyOf ↔ key ∈ m := by
  rw [List.mem_filterMap, ← AList.lookup_isSome]
  constructor
  · rintro ⟨name, hname, hkeyOf⟩
    obtain hdir | hheld := Table.mem_names.1 (mem_children.1 hname)
    · exact absurd hdir (h.plain name)
    · obtain ⟨hkey, rfl⟩ := h.tidy name key hheld hkeyOf
      rw [← pathFor_of_ne hkey, h.held key hkey] at hheld
      exact Option.isSome_iff_ne_none.2 hheld
  · intro hsome
    have hkey : key ≠ "" := by
      rintro rfl
      rw [h.named] at hsome
      cases hsome
    refine ⟨hexName key, mem_children.2 (Table.mem_names.2 (Or.inr ?_)), keyOf_hexName key⟩
    rw [← pathFor_of_ne hkey, h.held key hkey]
    exact Option.isSome_iff_ne_none.1 hsome

theorem nodup_children : (fs.children root).Nodup := by
  rw [FileSystem.children]
  refine (AList.keys_nodup fs.names).filterMap fun path path' name hname hname' => ?_
  rw [nameIn_eq_some.1 hname, nameIn_eq_some.1 hname']

theorem nodup_listed (h : Mirrors root fs m) : ((fs.children root).filterMap keyOf).Nodup := by
  rw [List.Nodup, List.pairwise_filterMap]
  refine List.Pairwise.imp_of_mem (fun {name name'} hname hname' hne => ?_) nodup_children
  rintro key hkey key' hkey' rfl
  have hdecoded : ∀ {n}, n ∈ fs.children root → keyOf n = some key → n = hexName key := by
    intro n hn hkeyOf
    obtain hdir | hheld := Table.mem_names.1 (mem_children.1 hn)
    · exact absurd hdir (h.plain n)
    · exact (h.tidy n key hheld hkeyOf).2
  exact hne ((hdecoded hname hkey).trans (hdecoded hname' hkey').symm)

/-- However the system lists the directory, the sorted keys are the map's. -/
theorem sorted (h : Mirrors root fs m) (sys : System) :
    ((sys.order fs (fs.children root)).filterMap keyOf).insertionSort (fun a b => a ≤ b) =
      KeyMap.sortedKeys m := by
  have hperm : ((sys.order fs (fs.children root)).filterMap keyOf).Perm m.keys := by
    refine ((sys.listed fs _).filterMap keyOf).trans ?_
    refine (List.perm_ext_iff_of_nodup h.nodup_listed m.keys_nodup).2 fun key => ?_
    rw [h.mem_listed, AList.mem_keys]
  refine List.Perm.eq_of_pairwise' (List.pairwise_insertionSort _ _)
    (List.pairwise_insertionSort _ _) ?_
  exact (List.perm_insertionSort _ _).trans (hperm.trans (List.perm_insertionSort _ _).symm)

/-! ## One call, and a run -/

/-- One call answers as the map does, and keeps to it. -/
theorem perform (h : Mirrors root fs m) (sys : System) {c : DiskCall} (hc : c.Named) :
    (DiskTier.perform sys root fs c).1 = (KeyMap.perform m c).1 ∧
      Mirrors root (DiskTier.perform sys root fs c).2 (KeyMap.perform m c).2 := by
  cases c with
  | put key value cuts =>
    obtain ⟨fs', hrun, hheld, hdirs⟩ := DiskTier.run_put sys (h.ready hc) cuts value
    rw [DiskTier.perform, DiskCall.program, hrun]
    refine ⟨rfl, h.update hc hdirs (v := some value) ?_ (AList.lookup_insert _) ?_ ?_
      fun other hne => AList.lookup_insert_ne hne⟩
    · rw [hheld, Function.update_self]
    · intro p hp hp'
      rw [hheld, Function.update_of_ne hp, Function.update_of_ne hp']
    · intro p hp
      by_cases hpath : p = pathFor root key
      · exact Or.inr hpath
      · rw [hheld, Function.update_of_ne hpath] at hp
        by_cases htemp : p = tempFor root key
        · rw [htemp, Function.update_self] at hp
          exact absurd rfl hp
        · rw [Function.update_of_ne htemp] at hp
          exact Or.inl hp
  | get key =>
    rw [DiskTier.perform, DiskCall.program, DiskTier.run_get sys (h.ready hc), h.held key hc]
    exact ⟨rfl, h⟩
  | exists_ key =>
    rw [DiskTier.perform, DiskCall.program, DiskTier.run_exists sys (h.ready hc), h.held key hc]
    exact ⟨rfl, h⟩
  | delete key =>
    obtain ⟨fs', hrun, hheld, hdirs⟩ := DiskTier.run_delete sys (h.ready hc)
    rw [DiskTier.perform, DiskCall.program, hrun, h.held key hc]
    refine ⟨rfl, h.update hc hdirs (v := none) ?_ (AList.lookup_erase _ _) ?_ ?_
      fun other hne => AList.lookup_erase_ne hne⟩
    · rw [hheld, Function.update_self]
    · intro p hp _
      rw [hheld, Function.update_of_ne hp]
    · intro p hp
      by_cases hpath : p = pathFor root key
      · exact Or.inr hpath
      · rw [hheld, Function.update_of_ne hpath] at hp
        exact Or.inl hp
  | list cursor limit =>
    rw [DiskTier.perform, DiskCall.program, DiskTier.run_list sys cursor limit h.dir, h.sorted sys]
    exact ⟨rfl, h⟩

theorem log (h : Mirrors root fs m) (sys : System) {calls : List DiskCall}
    (hcalls : ∀ c ∈ calls, c.Named) :
    Runs.log (DiskTier.perform sys root) fs calls = Runs.log KeyMap.perform m calls := by
  induction calls generalizing fs m with
  | nil => rfl
  | cons c calls ih =>
    obtain ⟨hout, hnext⟩ := h.perform sys (hcalls c (by simp))
    rw [Runs.log, Runs.log, hout, ih hnext fun c' hc' => hcalls c' (List.mem_cons_of_mem c hc')]

end Mirrors

/-! ## What is written -/

/-- Whatever the system answers, the program writes under the root only. -/
def Inside {α : Type} (root : Path) (p : FsM α) : Prop :=
  p.Safe (fun q => ∀ path ∈ q.written, path.ChildOf root) (fun _ _ => True) fun _ => True

theorem inside_appendAll (file : Nat) (rest : List Bytes) :
    Inside root (DiskTier.appendAll file rest) := by
  induction rest with
  | nil => trivial
  | cons piece rest ih =>
    refine ⟨by simp [FsCall.written], fun r _ => ?_⟩
    cases r with
    | error e => trivial
    | ok _ => exact ih

theorem inside_write {path : Path} (hpath : path.ChildOf root) (cuts : List Nat) (bytes : Bytes) :
    Inside root (DiskTier.write path cuts bytes) := by
  refine ⟨by simpa [FsCall.written] using hpath, fun r _ => ?_⟩
  cases r with
  | error e => trivial
  | ok file => exact inside_appendAll file _

theorem inside_program {c : DiskCall} (hc : c.Named) : Inside root (c.program root) := by
  cases c with
  | put key value cuts =>
    have hentry : (pathFor root key).ChildOf root := pathFor_childOf hc
    have htemp : (tempFor root key).ChildOf root := tempFor_childOf hc
    refine Program.Safe.bind (inside_write htemp cuts value) fun written _ => ?_
    cases written with
    | error e => trivial
    | ok _ =>
      refine ⟨?_, fun r _ => by cases r <;> trivial⟩
      simpa [FsCall.written] using ⟨htemp, hentry⟩
  | get key =>
    refine ⟨by simp [FsCall.written], fun r _ => ?_⟩
    cases r with
    | ok bytes => trivial
    | error e => cases e <;> trivial
  | exists_ key => exact ⟨by simp [FsCall.written], fun r _ => trivial⟩
  | delete key =>
    have hentry : (pathFor root key).ChildOf root := pathFor_childOf hc
    refine ⟨by simpa [FsCall.written] using hentry, fun r _ => ?_⟩
    cases r with
    | ok _ => trivial
    | error e => cases e <;> trivial
  | list cursor limit =>
    refine ⟨by simp [FsCall.written], fun r _ => ?_⟩
    cases r <;> trivial

/-! ## The map -/

/-- The calls answer as a map's do, from the empty one on; the keys they are about have paths of
their own, and only direct children of the root are written. -/
structure IsMap (sys : System) (root : Path) (fs : FileSystem) (calls : List DiskCall)
    (keys : String → Prop) : Prop where
  answers : Runs.log (DiskTier.perform sys root) fs calls = Runs.log KeyMap.perform ∅ calls
  entries : ∀ key other, keys key → keys other → key ≠ other →
    pathFor root key ≠ pathFor root other
  temps : ∀ key other, keys key → keys other → key ≠ other →
    tempFor root key ≠ tempFor root other
  apart : ∀ key other, keys key → keys other → tempFor root key ≠ pathFor root other
  inside : ∀ c ∈ calls, Inside root (c.program root)

/-- Every history without the empty key, from an empty root on, is one of a plain map. -/
theorem disk_is_map (sys : System) (hfresh : Fresh root fs) {calls : List DiskCall}
    (hcalls : ∀ c ∈ calls, c.Named) : IsMap sys root fs calls (· ≠ "") where
  answers := hfresh.mirrors.log sys hcalls
  entries _ _ hkey hother hne h := hne ((pathFor_inj hkey hother).1 h)
  temps _ _ hkey hother hne h := hne ((tempFor_inj hkey hother).1 h)
  apart _ _ hkey hother h := pathFor_ne_tempFor hother hkey h.symm
  inside c hc := inside_program (hcalls c hc)

namespace EmptyKey

def dir : Path := [.rootDir, .normal ['c']]

def inOrder : System :=
  { order := fun _ names => names, listed := fun _ names => .refl names, seekMax := i64Max
    seekMax_le := Nat.le_refl _ }

def files : FileSystem := Table.ofDirs [[.rootDir], dir] []

theorem fresh : Fresh dir files where
  dir := Table.isDir_ofDirs.2 (by simp)
  empty name hname := by
    obtain hdir | hheld := Table.mem_names.1 hname
    · have hmem := Table.isDir_ofDirs.1 hdir
      simp [dir] at hmem
    · obtain ⟨inode, hinode⟩ := Table.held_ne_none.1 hheld
      exact Table.lookup_dirNames_ne_file _ _ _ hinode

end EmptyKey

/-- A put, a look and a get under a key of two bytes, then the listing. -/
theorem disk_is_map_naive : IsMap EmptyKey.inOrder EmptyKey.dir EmptyKey.files
    [.put "ï" [1, 2] [1], .exists_ "ï", .get "ï", .list none 5] (· ≠ "") :=
  disk_is_map EmptyKey.inOrder EmptyKey.fresh (by decide)

/-- A put of the empty key leaves its temporary file beside the root and fails, and the empty key
exists without ever having been put. -/
theorem empty_key_fails :
    (DiskTier.perform EmptyKey.inOrder EmptyKey.dir EmptyKey.files (.put "" [1] [])).1 =
        .error .other ∧
      (DiskTier.perform EmptyKey.inOrder EmptyKey.dir EmptyKey.files (.exists_ "")).1 = .ok true ∧
      (DiskTier.perform EmptyKey.inOrder EmptyKey.dir EmptyKey.files (.put "" [1] [])).2.held
        [.rootDir, .normal "c.tmp".toList] = some [1] ∧
      ¬ IsMap EmptyKey.inOrder EmptyKey.dir EmptyKey.files [.put "" [1] [], .exists_ ""]
        fun _ => True := by
  have hput : (DiskTier.perform EmptyKey.inOrder EmptyKey.dir EmptyKey.files (.put "" [1] [])).1 =
      .error .other := rfl
  refine ⟨hput, rfl, rfl, fun h => ?_⟩
  have hlog := h.answers
  simp only [Runs.log, List.cons.injEq, Sigma.mk.injEq, true_and, heq_eq_eq] at hlog
  rw [hput] at hlog
  cases hlog.1

end Tierstore.Disk
