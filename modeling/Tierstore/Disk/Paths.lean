import Mathlib.Data.List.TakeWhile
import Tierstore.Mmap.Names

/-! The paths of the file-per-key tier: the entry of a key is its hex name joined to the root,
its temporary file has the entry's path with the extension replaced. -/
namespace Tierstore.Disk
open Mmap

inductive Component where
  | rootDir
  | curDir
  | parentDir
  | normal (name : FileName)
  deriving DecidableEq, Repr

abbrev Path := List Component

namespace Path

/-- `Path::join` with a name without separators that is no dot name. The empty name adds a
separator at the end and no component. -/
def join (path : Path) (name : FileName) : Path :=
  if name = [] then path else path ++ [.normal name]

def fileName (path : Path) : Option FileName :=
  match path.getLast? with
  | some (.normal name) => some name
  | _ => none

/-- `Path::file_stem`: the part before the last dot, if it is not empty. -/
def fileStem (name : FileName) : FileName :=
  let before := ((name.reverse.dropWhile (· ≠ '.')).drop 1).reverse
  if before = [] then name else before

def withExtension (path : Path) (extension : List Char) : Path :=
  match fileName path with
  | none => path
  | some name => path.dropLast ++ [.normal (fileStem name ++ '.' :: extension)]

def ChildOf (path root : Path) : Prop := ∃ name, path = root ++ [.normal name]

end Path

def hexName (key : String) : FileName := hexEncode key.toUTF8.data.toList

def pathFor (root : Path) (key : String) : Path := root.join (hexName key)

def tempFor (root : Path) (key : String) : Path := (pathFor root key).withExtension "tmp".toList

def keyOf (name : FileName) : Option String :=
  (hexDecode name).bind fun bytes => String.fromUTF8? ⟨bytes.toArray⟩

variable {root : Path} {key other : String}

theorem hexEncode_eq_nil {bytes : List UInt8} : hexEncode bytes = [] ↔ bytes = [] := by
  cases bytes with
  | nil => simp [hexEncode]
  | cons byte bytes => simp [hexEncode, hexByte]

theorem keyOf_hexName (key : String) : keyOf (hexName key) = some key := by
  rw [keyOf, hexName, hexDecode_hexEncode, Option.bind_some, fromUTF8_toUTF8]

theorem hexName_injective : Function.Injective hexName := by
  intro key other h
  have hkey := keyOf_hexName key
  rw [h, keyOf_hexName] at hkey
  exact (Option.some.inj hkey).symm

theorem hexName_ne_nil (hkey : key ≠ "") : hexName key ≠ [] := by
  intro h
  exact hkey (hexName_injective (h.trans (hexEncode_eq_nil.2 rfl).symm))

theorem digitChar_ne_dot : ∀ n < 16, Nat.digitChar n ≠ '.' := by decide

/-- A hex name contains no dot. -/
theorem dot_notMem_hexEncode (bytes : List UInt8) : '.' ∉ hexEncode bytes := by
  intro h
  obtain ⟨byte, -, hdot⟩ := List.mem_flatMap.1 h
  have hlt := byte.toNat_lt
  simp only [hexByte, List.mem_cons, List.not_mem_nil, or_false] at hdot
  obtain hdot | hdot := hdot
  · exact digitChar_ne_dot _ (by omega) hdot.symm
  · exact digitChar_ne_dot _ (by omega) hdot.symm

theorem fileStem_hexEncode (bytes : List UInt8) :
    Path.fileStem (hexEncode bytes) = hexEncode bytes := by
  have hnone : (hexEncode bytes).reverse.dropWhile (· ≠ '.') = [] := by
    refine List.dropWhile_eq_nil_iff.2 fun c hc => ?_
    have hne : c ≠ '.' := by
      rintro rfl
      exact dot_notMem_hexEncode bytes (List.mem_reverse.1 hc)
    simpa using hne
  rw [Path.fileStem, hnone]
  rfl

/-! ## The paths of a key -/

/-- The entry path of the empty key is the root itself. -/
theorem pathFor_of_ne (hkey : key ≠ "") :
    pathFor root key = root ++ [.normal (hexName key)] :=
  if_neg (hexName_ne_nil hkey)

theorem tempFor_of_ne (hkey : key ≠ "") : tempFor root key =
    root ++ [.normal (hexName key ++ extension)] := by
  rw [tempFor, pathFor_of_ne hkey]
  simp [Path.withExtension, Path.fileName, hexName, fileStem_hexEncode, extension]

theorem pathFor_childOf (hkey : key ≠ "") : (pathFor root key).ChildOf root :=
  ⟨_, pathFor_of_ne hkey⟩

theorem tempFor_childOf (hkey : key ≠ "") : (tempFor root key).ChildOf root :=
  ⟨_, tempFor_of_ne hkey⟩

theorem child_injective : Function.Injective fun name => root ++ [Component.normal name] := by
  intro name name' h
  simpa using h

theorem pathFor_inj (hkey : key ≠ "") (hother : other ≠ "") :
    pathFor root key = pathFor root other ↔ key = other := by
  constructor
  · rw [pathFor_of_ne hkey, pathFor_of_ne hother]
    exact fun h => hexName_injective (child_injective h)
  · exact fun h => h ▸ rfl

theorem tempFor_inj (hkey : key ≠ "") (hother : other ≠ "") :
    tempFor root key = tempFor root other ↔ key = other := by
  constructor
  · rw [tempFor_of_ne hkey, tempFor_of_ne hother]
    exact fun h => hexName_injective (List.append_cancel_right (child_injective h))
  · exact fun h => h ▸ rfl

theorem pathFor_ne_tempFor (hkey : key ≠ "") (hother : other ≠ "") :
    pathFor root key ≠ tempFor root other := by
  rw [pathFor_of_ne hkey, tempFor_of_ne hother]
  intro h
  have hdot : '.' ∈ hexName key := by
    rw [child_injective h]
    simp [extension]
  exact dot_notMem_hexEncode _ hdot

end Tierstore.Disk
