import Mathlib.Data.List.Basic
import Mathlib.Logic.Function.Basic

/-! File names: the entry file of a key is named by the hex digits of its bytes, its temporary
file by these and an extension. Only names of entry files decode to a key. -/
namespace Tierstore.Mmap

/-- The keys that name files: with an empty key the path of the entry is the directory itself. -/
abbrev Key := { key : String // key ≠ "" }

abbrev FileName := List Char

/-- `{byte:02x}` -/
def hexByte (byte : UInt8) : List Char :=
  [Nat.digitChar (byte.toNat / 16), Nat.digitChar (byte.toNat % 16)]

def hexEncode (bytes : List UInt8) : FileName := bytes.flatMap hexByte

def toDigit (c : Char) : Option Nat :=
  if '0' ≤ c ∧ c ≤ '9' then some (c.toNat - 48)
  else if 'a' ≤ c ∧ c ≤ 'f' then some (c.toNat - 87)
  else if 'A' ≤ c ∧ c ≤ 'F' then some (c.toNat - 55)
  else none

/-- `u8::from_str_radix` on two characters; it takes a plus sign. -/
def fromStrRadix (high low : Char) : Option UInt8 :=
  if high = '+' then (toDigit low).map UInt8.ofNat
  else (toDigit high).bind fun h => (toDigit low).map fun l => UInt8.ofNat (16 * h + l)

def hexDecode : FileName → Option (List UInt8)
  | [] => some []
  | [_] => none
  | high :: low :: rest =>
    (fromStrRadix high low).bind fun byte => (hexDecode rest).map (byte :: ·)

def extension : List Char := ['.', 't', 'm', 'p']

def entryName (key : Key) : FileName := hexEncode key.1.toUTF8.data.toList

/-- `with_extension("tmp")`; a hex name has no extension of its own. -/
def tempName (key : Key) : FileName := entryName key ++ extension

def keyOf (name : FileName) : Option Key :=
  (hexDecode name).bind fun bytes =>
    (String.fromUTF8? ⟨bytes.toArray⟩).bind fun key =>
      if h : key ≠ "" then some ⟨key, h⟩ else none

theorem fromStrRadix_hexByte (byte : UInt8) :
    fromStrRadix (Nat.digitChar (byte.toNat / 16)) (Nat.digitChar (byte.toNat % 16)) =
      some byte := by
  have hall : ∀ n : Fin 256, fromStrRadix (Nat.digitChar (n.val / 16))
      (Nat.digitChar (n.val % 16)) =
      some (UInt8.ofNat n.val) := by
    decide +kernel
  have hbyte := hall ⟨byte.toNat, byte.toNat_lt⟩
  rwa [UInt8.ofNat_toNat] at hbyte

theorem hexDecode_append (bytes : List UInt8) (rest : FileName) :
    hexDecode (hexEncode bytes ++ rest) = (hexDecode rest).map (bytes ++ ·) := by
  induction bytes with
  | nil => simp [hexEncode]
  | cons byte bytes ih =>
    have hcons : hexEncode (byte :: bytes) ++ rest =
        Nat.digitChar (byte.toNat / 16) :: Nat.digitChar (byte.toNat % 16) ::
          (hexEncode bytes ++ rest) := rfl
    rw [hcons, hexDecode, fromStrRadix_hexByte, Option.bind_some, ih, Option.map_map]
    rfl

theorem hexDecode_hexEncode (bytes : List UInt8) : hexDecode (hexEncode bytes) = some bytes := by
  have hdecode := hexDecode_append bytes []
  rwa [List.append_nil, hexDecode, Option.map_some, List.append_nil] at hdecode

theorem fromUTF8_toUTF8 (key : String) :
    String.fromUTF8? ⟨key.toUTF8.data.toList.toArray⟩ = some key := by
  have hvalid : (ByteArray.mk key.toUTF8.data.toList.toArray).IsValidUTF8 := by
    rw [Array.toArray_toList]
    exact key.isValidUTF8
  rw [String.fromUTF8?, dif_pos hvalid]
  rfl

theorem keyOf_entryName (key : Key) : keyOf (entryName key) = some key := by
  rw [keyOf, entryName, hexDecode_hexEncode, Option.bind_some, fromUTF8_toUTF8, Option.bind_some,
    dif_pos key.2]

/-- A temporary file is no entry. -/
theorem keyOf_tempName (key : Key) : keyOf (tempName key) = none := by
  have hext : hexDecode extension = none := by decide
  rw [keyOf, tempName, entryName, hexDecode_append, hext]
  rfl

theorem entryName_injective : Function.Injective entryName := by
  intro key other h
  have hkey := keyOf_entryName key
  rw [h, keyOf_entryName] at hkey
  exact (Option.some.inj hkey).symm

theorem entryName_ne_tempName (key other : Key) : entryName key ≠ tempName other := by
  intro h
  have hkey := keyOf_entryName key
  rw [h, keyOf_tempName] at hkey
  cases hkey

end Tierstore.Mmap
