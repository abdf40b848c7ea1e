import Mathlib.Data.List.AList
import Tierstore.Core.Contract
import Tierstore.Lib.Buffers
import Tierstore.Lib.Runs

/-! The fixed-capacity tier over a mapped file: slots of one size, each with one record, and an
index that is rebuilt from the records when the file is opened. -/
namespace Tierstore.SlotMmap
open Buffers

abbrev Bytes := List UInt8

/-- What a call comes to; nothing where an index or a slice is out of bounds and it panics. -/
abbrev Checked (A : Type) := Option A

/-- `used(1) | key_len(2, LE) | val_len(4, LE)` -/
def header : Nat := 7

def u16Max : Nat := 2 ^ 16 - 1

def u32Max : Nat := 2 ^ 32 - 1

inductive ErrorKind where
  | invalidInput
  | other
  deriving DecidableEq, Repr

structure IoError where
  kind : ErrorKind
  text : String
  deriving DecidableEq, Repr

def keyTooLong : IoError := ⟨.invalidInput, "key too long"⟩

def valueTooLong : IoError := ⟨.invalidInput, "value too long"⟩

def zeroSlots : IoError := ⟨.other, "mmap tier has zero slots"⟩

def outOfSync : IoError := ⟨.other, "index and order out of sync"⟩

def oversized (needed slotSize : Nat) : IoError :=
  ⟨.invalidInput, s!"entry needs {needed} bytes, slot holds {slotSize}"⟩

def asBytes (key : String) : Bytes := key.toUTF8.data.toList

/-! ## Records -/

def valueRange (mmap : Bytes) (slotSize slot : Nat) : Checked (Option (Nat × Nat)) := do
  let base := slot * slotSize
  match ← slice mmap base (base + header) with
  | [used, k₀, k₁, v₀, v₁, v₂, v₃] =>
    if used ≠ 1 then pure none
    else
      let keyLen := fromLeBytes [k₀, k₁]
      let valLen := fromLeBytes [v₀, v₁, v₂, v₃]
      let start := base + header + keyLen
      -- A corrupt slot is a free one.
      if start + valLen > base + slotSize then pure none else pure (some (start, valLen))
  | _ => none

def readSlot (mmap : Bytes) (slotSize slot : Nat) : Checked (Option (String × Bytes)) := do
  match ← valueRange mmap slotSize slot with
  | none => pure none
  | some (start, len) =>
    let keyBytes ← slice mmap (slot * slotSize + header) start
    match String.fromUTF8? ⟨keyBytes.toArray⟩ with
    | none => pure none
    | some key =>
      let value ← slice mmap start (start + len)
      pure (some (key, value))

/-- `free` is a stack: the slot pushed last comes first. -/
structure Inner where
  mmap : Bytes
  slotSize : Nat
  index : AList fun _ : String => Nat
  order : List String
  free : List Nat

namespace Inner

def writeSlot (inner : Inner) (slot : Nat) (key : String) (value : Bytes) :
    Checked (Except IoError Inner) :=
  let keyBytes := asBytes key
  if keyBytes.length > u16Max then pure (.error keyTooLong)
  else if value.length > u32Max then pure (.error valueTooLong)
  else do
    let base := slot * inner.slotSize
    let mmap ← overwrite inner.mmap base [1]
    let mmap ← overwrite mmap (base + 1) (toLeBytes 2 keyBytes.length)
    let mmap ← overwrite mmap (base + 3) (toLeBytes 4 value.length)
    let keyStart := base + header
    let mmap ← overwrite mmap keyStart keyBytes
    let valStart := keyStart + keyBytes.length
    let mmap ← overwrite mmap valStart value
    pure (.ok { inner with mmap })

def needed (key : String) (value : Bytes) : Nat := header + (asBytes key).length + value.length

def fits (inner : Inner) (key : String) (value : Bytes) : Except IoError Unit :=
  if needed key value > inner.slotSize then .error (oversized (needed key value) inner.slotSize)
  else .ok ()

def fetch (inner : Inner) (key : String) : Checked (Option Bytes) :=
  match inner.index.lookup key with
  | none => pure none
  | some slot => do
    let entry ← readSlot inner.mmap inner.slotSize slot
    pure (entry.map Prod.snd)

/-- `get_ref`, and the bytes that the view dereferences to while the lock is held. -/
def getRef (inner : Inner) (key : String) : Checked (Option Bytes) :=
  match inner.index.lookup key with
  | none => pure none
  | some slot => do
    match ← valueRange inner.mmap inner.slotSize slot with
    | none => pure none
    | some (start, len) =>
      let view ← slice inner.mmap start (start + len)
      pure (some view)

/-- The slot for a new entry: a free one, or that of the oldest entry, which is displaced. -/
def claim (inner : Inner) : Checked (Except IoError (Nat × Displaced String Bytes) × Inner) :=
  match inner.free with
  | slot :: free => pure (.ok (slot, []), { inner with free })
  | [] =>
    match inner.order with
    | [] => pure (.error zeroSlots, inner)
    | oldest :: order =>
      match inner.index.lookup oldest with
      | none => pure (.error outOfSync, { inner with order })
      | some slot => do
        let entry ← readSlot inner.mmap inner.slotSize slot
        pure (.ok (slot, entry.toList), { inner with order, index := inner.index.erase oldest })

def insert (inner : Inner) (key : String) (value : Bytes) :
    Checked (Except IoError (Displaced String Bytes) × Inner) :=
  match inner.fits key value with
  | .error e => pure (.error e, inner)
  | .ok _ =>
    match inner.index.lookup key with
    | some slot => do
      match ← inner.writeSlot slot key value with
      | .error e => pure (.error e, inner)
      | .ok inner => pure (.ok [], inner)
    | none => do
      match ← inner.claim with
      | (.error e, inner) => pure (.error e, inner)
      | (.ok (slot, displaced), inner) =>
        match ← inner.writeSlot slot key value with
        | .error e => pure (.error e, inner)
        | .ok inner =>
          pure (.ok displaced,
            { inner with index := inner.index.insert key slot, order := inner.order ++ [key] })

def remove (inner : Inner) (key : String) : Checked (Bool × Inner) :=
  match inner.index.lookup key with
  | none => pure (false, inner)
  | some slot => do
    let mmap ← overwrite inner.mmap (slot * inner.slotSize) [0]
    pure (true, { inner with
      mmap
      index := inner.index.erase key
      free := slot :: inner.free
      order := inner.order.filter (· ≠ key) })

end Inner

/-! ## Opening -/

/-- `File::set_len`: what is cut off is gone, what is added is zero. -/
def setLen (file : Bytes) (len : Nat) : Bytes :=
  file.take len ++ List.replicate (len - file.length) 0

def scanSlot (inner : Inner) (slot : Nat) : Checked Inner := do
  match ← readSlot inner.mmap inner.slotSize slot with
  | some (key, _) =>
    pure { inner with index := inner.index.insert key slot, order := inner.order ++ [key] }
  | none => pure { inner with free := slot :: inner.free }

def openFile (file : Bytes) (slots slotSize : Nat) : Checked Inner :=
  if slotSize > header then
    let len := slots * slotSize
    let mmap := if file.length ≠ len then setLen file len else file
    (List.range slots).foldlM scanSlot { mmap, slotSize, index := ∅, order := [], free := [] }
  else none

/-! ## Calls -/

inductive Call where
  | get (key : String)
  | getRef (key : String)
  | exists (key : String)
  | put (key : String) (value : Bytes)
  | delete (key : String)

abbrev Call.Output : Call → Type
  | .get _ => Option Bytes
  | .getRef _ => Option Bytes
  | .exists _ => Bool
  | .put _ _ => Except IoError (Displaced String Bytes)
  | .delete _ => Bool

def Inner.perform (inner : Inner) : (c : Call) → Checked (c.Output × Inner)
  | .get key => (inner.fetch key).map (·, inner)
  | .getRef key => (inner.getRef key).map (·, inner)
  | .exists key => some ((inner.index.lookup key).isSome, inner)
  | .put key value => inner.insert key value
  | .delete key => inner.remove key

/-- The state after a call; nothing once a call has panicked. -/
def step (state : Checked Inner) (c : Call) : Checked Inner :=
  state.bind fun inner => (inner.perform c).map Prod.snd

end Tierstore.SlotMmap
