import Mathlib.Algebra.GroupWithZero.Nat
import Mathlib.Data.List.Perm.Basic
import Tierstore.Disk.Paths
import Tierstore.Lib.Files
import Tierstore.Lib.Program

/-! The file system under the file-per-key tier, one system call at a time. Calls on regular paths
in an existing directory succeed; names are never too long. -/
namespace Tierstore.Disk
open Effects Files Mmap

abbrev Bytes := List UInt8

inductive FsError where
  | notFound
  | invalidInput
  | unexpectedEof
  | other
  deriving DecidableEq, Repr

abbrev FileSystem := Table Path Bytes

inductive FsCall where
  | create (path : Path)
  | append (file : Nat) (bytes : Bytes)
  | rename (source target : Path)
  | read (path : Path)
  | openFile (path : Path)
  | seek (file start : Nat)
  | readExact (file start len : Nat)
  | tryExists (path : Path)
  | removeFile (path : Path)
  | readDir (path : Path)
  deriving DecidableEq

abbrev FsCall.Output : FsCall → Type
  | .create _ => Nat
  | .append _ _ => Unit
  | .rename _ _ => Unit
  | .read _ => Bytes
  | .openFile _ => Nat
  | .seek _ _ => Unit
  | .readExact _ _ _ => Bytes
  | .tryExists _ => Bool
  | .removeFile _ => Unit
  | .readDir _ => List FileName

def FsCall.written : FsCall → List Path
  | .create path => [path]
  | .rename source target => [source, target]
  | .removeFile path => [path]
  | _ => []

abbrev FsM := Program FsCall fun q => Except FsError q.Output

namespace FileSystem

def nameIn (dir path : Path) : Option FileName :=
  match path.getLast? with
  | some (.normal name) => if path.dropLast = dir then some name else none
  | _ => none

def children (fs : FileSystem) (dir : Path) : List FileName := fs.names.keys.filterMap (nameIn dir)

end FileSystem

def i64Max : Nat := 2 ^ 63 - 1

/-- What the system settles: the order in which it lists a directory, and the largest offset
that it seeks to, which `seek` hands it as an `i64`. -/
structure System where
  order : FileSystem → List FileName → List FileName
  listed : ∀ fs names, (order fs names).Perm names
  seekMax : Nat
  seekMax_le : seekMax ≤ i64Max

/-- One system call. `create` truncates the file it finds; `append`, `seek` and `readExact` go to
an open file, the last from the offset sought. No directory is opened as a file or renamed. -/
def exec (sys : System) (q : FsCall) (fs : FileSystem) : Except FsError q.Output × FileSystem :=
  match q with
  | .create path =>
    match fs.names.lookup path with
    | some .dir => (.error .other, fs)
    | some (.file inode) => (.ok inode, fs.write inode [])
    | none => if fs.IsDir path.dropLast then (.ok fs.next, fs.create path [])
      else (.error .notFound, fs)
  | .append file bytes => (.ok (), fs.write file (fs.data file ++ bytes))
  | .rename source target =>
    match h : fs.names.lookup source with
    | some (.file inode) =>
      if fs.IsDir target then (.error .other, fs)
      else if fs.IsDir target.dropLast then (.ok (), fs.move source target inode h)
      else (.error .notFound, fs)
    | some .dir => (.error .other, fs)
    | none => (.error .notFound, fs)
  | .read path =>
    match fs.names.lookup path with
    | some (.file inode) => (.ok (fs.data inode), fs)
    | some .dir => (.error .other, fs)
    | none => (.error .notFound, fs)
  | .openFile path =>
    match fs.names.lookup path with
    | some (.file inode) => (.ok inode, fs)
    | some .dir => (.error .other, fs)
    | none => (.error .notFound, fs)
  | .seek _ start => if start > sys.seekMax then (.error .invalidInput, fs) else (.ok (), fs)
  | .readExact file start len =>
    let read := ((fs.data file).drop start).take len
    if read.length < len then (.error .unexpectedEof, fs) else (.ok read, fs)
  | .tryExists path => (.ok (fs.names.lookup path).isSome, fs)
  | .removeFile path =>
    match fs.names.lookup path with
    | some (.file _) => (.ok (), fs.remove path)
    | some .dir => (.error .other, fs)
    | none => (.error .notFound, fs)
  | .readDir path =>
    if fs.IsDir path then (.ok (sys.order fs (fs.children path)), fs)
    else if (fs.names.lookup path).isSome then (.error .other, fs)
    else (.error .notFound, fs)

/-! ## What each call does -/
variable (sys : System) {fs : FileSystem} {path source target : Path} {inode : Nat}

theorem exec_read (hpath : ¬ fs.IsDir path) : exec sys (.read path) fs =
    (match fs.held path with | some bytes => .ok bytes | none => .error .notFound, fs) := by
  simp only [exec, Table.held]
  cases hnode : fs.names.lookup path with
  | none => rfl
  | some node =>
    cases node with
    | dir => exact absurd hnode hpath
    | file inode => rfl

/-- The file that is opened is empty, and found under its path. -/
theorem exec_create (hpath : ¬ fs.IsDir path) (hdir : fs.IsDir path.dropLast) :
    ∃ file fs', exec sys (.create path) fs = (.ok file, fs') ∧
      fs'.names.lookup path = some (.file file) ∧ fs'.data file = [] ∧
      fs'.held = Function.update fs.held path (some []) ∧ ∀ p, fs'.IsDir p ↔ fs.IsDir p := by
  simp only [exec]
  cases hnode : fs.names.lookup path with
  | none =>
    refine ⟨fs.next, fs.create path [], if_pos hdir, Table.lookup_create _ _, ?_,
      Table.held_create _ _, fun p => Table.isDir_create hpath _⟩
    simp [Table.create]
  | some node =>
    cases node with
    | dir => exact absurd hnode hpath
    | file inode =>
      refine ⟨inode, fs.write inode [], rfl, hnode, ?_, Table.held_write hnode _, fun p => Iff.rfl⟩
      simp [Table.write]

theorem exec_rename (hsource : fs.names.lookup source = some (.file inode))
    (htarget : ¬ fs.IsDir target) (hdir : fs.IsDir target.dropLast) :
    exec sys (.rename source target) fs = (.ok (), fs.move source target inode hsource) := by
  simp only [exec]
  split
  next inode' h =>
    obtain rfl : inode' = inode := by simpa using h.symm.trans hsource
    rw [if_neg htarget, if_pos hdir]
  next h => simp [hsource] at h
  next h => simp [hsource] at h

end Tierstore.Disk
