import Mathlib.Data.List.Sort
import Mathlib.Data.String.Basic
import Tierstore.Disk.FileSystem
import Tierstore.Memory

/-! The file-per-key tier, each method as its system calls. -/
namespace Tierstore

/-- How a call ends: a buffer of more than `isize::MAX` bytes panics, and one that the allocator
cannot provide aborts the process. -/
inductive Outcome (ε α : Type) where
  | returned (result : Except ε α)
  | panicked
  | aborted

def isizeMax : Nat := 2 ^ 63 - 1

def usizeTryFrom (n : UInt64) : Option Nat := if n.toNat ≤ usizeMax then some n.toNat else none

namespace Disk
open Effects Files
namespace DiskTier

/-! ## `fs::write` -/

/-- How the system divides one write into appends, at least one. -/
def pieces : List Nat → Bytes → List Bytes
  | [], bytes => [bytes]
  | cut :: cuts, bytes => bytes.take cut :: pieces cuts (bytes.drop cut)

def appendAll (file : Nat) : List Bytes → FsM (Except FsError Unit)
  | [] => pure (.ok ())
  | piece :: rest => do
    match ← Program.ask (FsCall.append file piece) with
    | .error e => pure (.error e)
    | .ok _ => appendAll file rest

def write (path : Path) (cuts : List Nat) (bytes : Bytes) : FsM (Except FsError Unit) := do
  match ← Program.ask (FsCall.create path) with
  | .error e => pure (.error e)
  | .ok file => appendAll file (pieces cuts bytes)

theorem flatten_pieces (cuts : List Nat) (bytes : Bytes) :
    (pieces cuts bytes).flatten = bytes := by
  induction cuts generalizing bytes with
  | nil => simp [pieces]
  | cons cut cuts ih => simp [pieces, ih]

/-! ## The methods -/
variable (root : Path)

def get (key : String) : FsM (Except FsError (Option Bytes)) := do
  match ← Program.ask (FsCall.read (pathFor root key)) with
  | .ok bytes => pure (.ok (some bytes))
  | .error .notFound => pure (.ok none)
  | .error e => pure (.error e)

def exists_ (key : String) : FsM (Except FsError Bool) :=
  Program.ask (FsCall.tryExists (pathFor root key))

def readRange (allocates : Nat → Bool) (key : String) (start stop : UInt64) :
    FsM (Outcome FsError (Option Bytes)) := do
  if start > stop then pure (.returned (.error .invalidInput))
  else
    match ← Program.ask (FsCall.openFile (pathFor root key)) with
    | .error .notFound => pure (.returned (.ok none))
    | .error e => pure (.returned (.error e))
    | .ok file =>
    match usizeTryFrom (stop - start) with
    | none => pure (.returned (.error .invalidInput))
    | some len =>
    match ← Program.ask (FsCall.seek file start.toNat) with
    | .error e => pure (.returned (.error e))
    | .ok _ =>
      -- the buffer is made before anything is read, and one of no bytes is not allocated
      if len > isizeMax then pure .panicked
      else if len ≠ 0 ∧ allocates len = false then pure .aborted
      else
        match ← Program.ask (FsCall.readExact file start.toNat len) with
        | .error e => pure (.returned (.error e))
        | .ok bytes => pure (.returned (.ok (some bytes)))

def put (cuts : List Nat) (key : String) (value : Bytes) :
    FsM (Except FsError (Displaced String Bytes)) := do
  match ← write (tempFor root key) cuts value with
  | .error e => pure (.error e)
  | .ok _ =>
  match ← Program.ask (FsCall.rename (tempFor root key) (pathFor root key)) with
  | .error e => pure (.error e)
  | .ok _ => pure (.ok [])

def delete (key : String) : FsM (Except FsError Bool) := do
  match ← Program.ask (FsCall.removeFile (pathFor root key)) with
  | .ok _ => pure (.ok true)
  | .error .notFound => pure (.ok false)
  | .error e => pure (.error e)

def page (all : List String) (cursor : Option Nat) (limit : Nat) : Page String Nat :=
  let offset := cursor.getD 0
  let keys := (all.drop offset).take limit
  let next := saturatingAdd offset keys.length
  { keys, next := if limit > 0 ∧ next < all.length then some next else none }

/-- Directory order is arbitrary, so the keys are sorted. -/
def list (cursor : Option Nat) (limit : Nat) : FsM (Except FsError (Page String Nat)) := do
  match ← Program.ask (FsCall.readDir root) with
  | .error e => pure (.error e)
  | .ok names =>
    let all := (names.filterMap keyOf).insertionSort fun a b => a ≤ b
    pure (.ok (page all cursor limit))

end DiskTier

/-! ## Calls on regular paths under an existing root -/

/-- No call on the paths of the key fails, unless its source is missing. -/
structure Ready (root : Path) (key : String) (fs : FileSystem) : Prop where
  dir : fs.IsDir root
  entry : ¬ fs.IsDir (pathFor root key)
  temp : ¬ fs.IsDir (tempFor root key)

variable {root : Path} {key : String} {fs fs' : FileSystem}

theorem Ready.key_ne (h : Ready root key fs) : key ≠ "" := by
  rintro rfl
  exact h.entry h.dir

theorem Ready.of_isDir (h : Ready root key fs) (hdir : ∀ p, fs'.IsDir p ↔ fs.IsDir p) :
    Ready root key fs' :=
  { dir := (hdir _).2 h.dir
    entry := fun he => h.entry ((hdir _).1 he)
    temp := fun ht => h.temp ((hdir _).1 ht) }

theorem Ready.dir_temp (h : Ready root key fs) : fs.IsDir (tempFor root key).dropLast := by
  rw [tempFor_of_ne h.key_ne, List.dropLast_concat]
  exact h.dir

theorem Ready.dir_entry (h : Ready root key fs) : fs.IsDir (pathFor root key).dropLast := by
  rw [pathFor_of_ne h.key_ne, List.dropLast_concat]
  exact h.dir

namespace DiskTier
variable (sys : System) {path : Path} {file : Nat}

theorem run_appendAll (rest : List Bytes) (hfile : fs.names.lookup path = some (.file file)) :
    ∃ fs', (appendAll file rest).run (exec sys) fs = (.ok (), fs') ∧ fs'.names = fs.names ∧
      fs'.data file = fs.data file ++ rest.flatten ∧
      fs'.held = Function.update fs.held path (some (fs'.data file)) := by
  induction rest generalizing fs with
  | nil =>
    refine ⟨fs, rfl, rfl, by simp, ?_⟩
    rw [← Table.held_of_file hfile, Function.update_eq_self]
  | cons piece rest ih =>
    have hgrown : (fs.write file (fs.data file ++ piece)).names.lookup path = some (.file file) :=
      hfile
    obtain ⟨fs', hrun, hnames, hdata, hheld⟩ := ih hgrown
    have hnow : (fs.write file (fs.data file ++ piece)).data file = fs.data file ++ piece := by
      simp [Table.write]
    refine ⟨fs', hrun, hnames, by simp [hdata, hnow], ?_⟩
    rw [hheld, Table.held_write hfile, Function.update_idem]

/-- The file is found under its path, and nothing else changed. -/
theorem run_write (cuts : List Nat) (bytes : Bytes) (hpath : ¬ fs.IsDir path)
    (hdir : fs.IsDir path.dropLast) :
    ∃ file fs', (write path cuts bytes).run (exec sys) fs = (.ok (), fs') ∧
      fs'.names.lookup path = some (.file file) ∧ fs'.data file = bytes ∧
      fs'.held = Function.update fs.held path (some bytes) ∧ ∀ p, fs'.IsDir p ↔ fs.IsDir p := by
  obtain ⟨file, fs₁, hcreate, hfile, hempty, hheld₁, hdirs⟩ := exec_create sys hpath hdir
  obtain ⟨fs₂, hrun, hnames, hdata, hheld₂⟩ :=
    run_appendAll sys (pieces cuts bytes) hfile
  have hbytes : fs₂.data file = bytes := by
    rw [hdata, hempty, flatten_pieces, List.nil_append]
  refine ⟨file, fs₂, ?_, hnames ▸ hfile, hbytes, ?_, fun p => ?_⟩
  · rw [write, Program.run_bind, Program.run_ask, hcreate]
    exact hrun
  · rw [hheld₂, hheld₁, Function.update_idem, hbytes]
  · rw [Table.IsDir, hnames]
    exact hdirs p

theorem run_get (hready : Ready root key fs) :
    (get root key).run (exec sys) fs = (.ok (fs.held (pathFor root key)), fs) := by
  rw [get, Program.run_bind, Program.run_ask, exec_read sys hready.entry]
  cases fs.held (pathFor root key) <;> rfl

theorem run_exists (hready : Ready root key fs) :
    (exists_ root key).run (exec sys) fs = (.ok (fs.held (pathFor root key)).isSome, fs) := by
  have hentry := hready.entry
  change (Except.ok (fs.names.lookup (pathFor root key)).isSome, fs) = _
  rw [Table.IsDir] at hentry
  rw [Table.held]
  cases hnode : fs.names.lookup (pathFor root key) with
  | none => rfl
  | some node =>
    cases node with
    | dir => exact absurd hnode hentry
    | file inode => rfl

theorem run_put (hready : Ready root key fs) (cuts : List Nat) (value : Bytes) :
    ∃ fs', (put root cuts key value).run (exec sys) fs = (.ok [], fs') ∧
      fs'.held = Function.update (Function.update fs.held (tempFor root key) none)
        (pathFor root key) (some value) ∧ ∀ p, fs'.IsDir p ↔ fs.IsDir p := by
  obtain ⟨file, fs₁, hwrite, hfile, hdata, hheld, hdirs⟩ :=
    run_write sys cuts value hready.temp hready.dir_temp
  have hready₁ := hready.of_isDir hdirs
  have hrename := exec_rename sys hfile hready₁.entry hready₁.dir_entry
  refine ⟨_, ?_, ?_, fun p => (Table.isDir_move hfile hready₁.entry).trans (hdirs p)⟩
  · rw [put, Program.run_bind, hwrite]
    change Program.run (exec sys) (Program.ask _ >>= _) _ = _
    rw [Program.run_bind, Program.run_ask, hrename]
    rfl
  · rw [Table.held_move hfile, hheld, Function.update_idem, hdata]

theorem run_delete (hready : Ready root key fs) :
    ∃ fs', (delete root key).run (exec sys) fs =
        (.ok (fs.held (pathFor root key)).isSome, fs') ∧
      fs'.held = Function.update fs.held (pathFor root key) none ∧
      ∀ p, fs'.IsDir p ↔ fs.IsDir p := by
  have hentry := hready.entry
  rw [Table.IsDir] at hentry
  rw [delete, Program.run_bind, Program.run_ask]
  simp only [exec]
  cases hnode : fs.names.lookup (pathFor root key) with
  | none =>
    have hheld : fs.held (pathFor root key) = none := by simp [Table.held, hnode]
    refine ⟨fs, by rw [hheld]; rfl, ?_, fun p => Iff.rfl⟩
    rw [← hheld, Function.update_eq_self]
  | some node =>
    cases node with
    | dir => exact absurd hnode hentry
    | file inode =>
      refine ⟨fs.remove (pathFor root key), ?_, Table.held_remove _,
        fun p => Table.isDir_remove hready.entry⟩
      rw [Table.held_of_file hnode]
      rfl

theorem run_list (cursor : Option Nat) (limit : Nat) (hroot : fs.IsDir root) :
    (list root cursor limit).run (exec sys) fs = (.ok (page (((sys.order fs
      (FileSystem.children fs root)).filterMap keyOf).insertionSort fun a b => a ≤ b)
      cursor limit), fs) := by
  rw [list, Program.run_bind, Program.run_ask]
  simp only [exec, if_pos hroot]
  rfl

end DiskTier
end Disk
end Tierstore
