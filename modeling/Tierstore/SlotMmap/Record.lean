import Tierstore.Mmap.Names
import Tierstore.SlotMmap.Tier

/-! A slot's record: what is written is what is read back, whatever the slot held before, and no
other slot is touched. Reading stays within the slot, on any bytes. -/
namespace Tierstore.SlotMmap
open Buffers
variable {mmap out src value : Bytes} {slotSize slots slot other : Nat} {key : String}

/-- All slots lie within the mapping. -/
theorem slot_end_le (hslot : slot < slots) : slot * slotSize + slotSize ≤ slots * slotSize := by
  rw [← Nat.succ_mul]
  exact Nat.mul_le_mul_right slotSize hslot

/-- Different slots do not overlap. -/
theorem slots_apart (h : other ≠ slot) :
    other * slotSize + slotSize ≤ slot * slotSize ∨
      slot * slotSize + slotSize ≤ other * slotSize := by
  obtain hlt | hgt := Nat.lt_or_gt_of_ne h
  · exact .inl (slot_end_le hlt)
  · exact .inr (slot_end_le hgt)

/-! ## Reading -/

/-- A range that is read off a header is within its slot. -/
theorem valueRange_within {start len : Nat}
    (h : valueRange mmap slotSize slot = some (some (start, len))) :
    slot * slotSize + header ≤ start ∧ start + len ≤ slot * slotSize + slotSize := by
  simp only [valueRange, Option.bind_eq_bind, Option.bind_eq_some_iff] at h
  obtain ⟨bytes, -, h⟩ := h
  split at h
  next used k₀ k₁ v₀ v₁ v₂ v₃ =>
    split at h
    next => simp at h
    next =>
      split at h
      next => simp at h
      next hfit =>
        simp only [Option.pure_def, Option.some.injEq, Prod.mk.injEq] at h
        omega
  next => cases h

theorem valueRange_isSome (hroomy : header ≤ slotSize)
    (hend : slot * slotSize + slotSize ≤ mmap.length) :
    ∃ range, valueRange mmap slotSize slot = some range := by
  have hslice : ∃ bytes, slice mmap (slot * slotSize) (slot * slotSize + header) = some bytes :=
    ⟨_, slice_of_le (by omega) (by omega)⟩
  obtain ⟨bytes, hbytes⟩ := hslice
  have hlength := length_slice hbytes
  simp only [valueRange, hbytes, Option.bind_eq_bind, Option.bind_some]
  split
  next =>
    split
    next => exact ⟨none, rfl⟩
    next =>
      split
      next => exact ⟨none, rfl⟩
      next => exact ⟨_, rfl⟩
  next hno =>
    rw [header, Nat.add_sub_cancel_left] at hlength
    match bytes, hlength with
    | [used, k₀, k₁, v₀, v₁, v₂, v₃], _ => exact absurd rfl (hno used k₀ k₁ v₀ v₁ v₂ v₃)

/-- Reading a slot of the mapping does not panic, whatever its bytes are. -/
theorem readSlot_isSome (hroomy : header ≤ slotSize)
    (hend : slot * slotSize + slotSize ≤ mmap.length) :
    ∃ entry, readSlot mmap slotSize slot = some entry := by
  obtain ⟨range, hrange⟩ := valueRange_isSome hroomy hend
  simp only [readSlot, hrange, Option.bind_eq_bind, Option.bind_some]
  cases range with
  | none => exact ⟨none, rfl⟩
  | some range =>
    obtain ⟨start, len⟩ := range
    obtain ⟨hstart, hstop⟩ := valueRange_within hrange
    simp only
    rw [slice_of_le hstart (by omega), Option.bind_some]
    cases String.fromUTF8? ⟨((mmap.drop (slot * slotSize + header)).take
        (start - (slot * slotSize + header))).toArray⟩ with
    | none => exact ⟨none, rfl⟩
    | some key =>
      rw [slice_of_le (Nat.le_add_right start len) (by omega)]
      exact ⟨_, rfl⟩

/-- Only the slot's own bytes are read. -/
theorem readSlot_congr (hroomy : header ≤ slotSize)
    (h : ∀ start stop, slot * slotSize ≤ start → stop ≤ slot * slotSize + slotSize →
      slice out start stop = slice mmap start stop) :
    readSlot out slotSize slot = readSlot mmap slotSize slot := by
  have hrange : valueRange out slotSize slot = valueRange mmap slotSize slot := by
    rw [valueRange, valueRange, h _ _ (Nat.le_refl _) (by omega)]
  rw [readSlot, readSlot, hrange]
  cases hcase : valueRange mmap slotSize slot with
  | none => rfl
  | some range =>
    cases range with
    | none => rfl
    | some range =>
      obtain ⟨start, len⟩ := range
      obtain ⟨hstart, hstop⟩ := valueRange_within hcase
      simp only [Option.bind_eq_bind, Option.bind_some]
      rw [h _ _ (by omega) (by omega), h _ _ (by omega) hstop]

/-- A write within one slot leaves the others as they read. -/
theorem readSlot_other (hroomy : header ≤ slotSize) (hne : other ≠ slot)
    (hout : overwrite mmap (slot * slotSize) src = some out) (hsrc : src.length ≤ slotSize) :
    readSlot out slotSize other = readSlot mmap slotSize other := by
  refine readSlot_congr hroomy fun start stop hstart hstop => slice_overwrite_of_apart hout ?_
  have hapart : other * slotSize + slotSize ≤ slot * slotSize ∨
      slot * slotSize + slotSize ≤ other * slotSize := slots_apart hne
  obtain hbefore | hafter := hapart
  · exact .inl (by omega)
  · exact .inr (by omega)

/-- A slot that is not flagged as used holds nothing. -/
theorem readSlot_unused {used : UInt8} {rest : Bytes} (hused : used ≠ 1)
    (h : slice mmap (slot * slotSize) (slot * slotSize + header) = some (used :: rest)) :
    readSlot mmap slotSize slot = some none := by
  have hlength := length_slice h
  rw [header, Nat.add_sub_cancel_left, List.length_cons] at hlength
  match rest, hlength with
  | [k₀, k₁, v₀, v₁, v₂, v₃], _ =>
    rw [readSlot, valueRange, h]
    simp [hused]

/-! ## Writing -/

def Encodable (key : String) (value : Bytes) : Prop :=
  (asBytes key).length ≤ u16Max ∧ value.length ≤ u32Max

instance (key : String) (value : Bytes) : Decidable (Encodable key value) :=
  inferInstanceAs (Decidable (_ ∧ _))

def recordHeader (key : String) (value : Bytes) : Bytes :=
  1 :: (toLeBytes 2 (asBytes key).length ++ toLeBytes 4 value.length)

def record (key : String) (value : Bytes) : Bytes := recordHeader key value ++ asBytes key ++ value

theorem length_recordHeader (key : String) (value : Bytes) :
    (recordHeader key value).length = header := by
  simp [recordHeader, header]

theorem length_record (key : String) (value : Bytes) :
    (record key value).length = Inner.needed key value := by
  rw [record, List.length_append, List.length_append, length_recordHeader, Inner.needed]

/-- The five writes of `write_slot` are one. -/
theorem Inner.writeSlot_of_encodable (inner : Inner) (slot : Nat) (h : Encodable key value) :
    inner.writeSlot slot key value =
      (overwrite inner.mmap (slot * inner.slotSize) (record key value)).map
        fun mmap => .ok { inner with mmap } := by
  have hsplit : record key value = [1] ++ (toLeBytes 2 (asBytes key).length ++
      (toLeBytes 4 value.length ++ (asBytes key ++ value))) := by
    simp [record, recordHeader]
  rw [Inner.writeSlot, if_neg (Nat.not_lt.2 h.1), if_neg (Nat.not_lt.2 h.2), hsplit,
    overwrite_append, Option.map_bind]
  simp only [Option.bind_eq_bind, header]
  refine Option.bind_congr fun first _ => ?_
  rw [Function.comp_apply, List.length_singleton, overwrite_append, Option.map_bind]
  refine Option.bind_congr fun second _ => ?_
  rw [Function.comp_apply, length_toLeBytes, Nat.add_assoc (slot * inner.slotSize) 1 2,
    overwrite_append, Option.map_bind]
  refine Option.bind_congr fun third _ => ?_
  rw [Function.comp_apply, length_toLeBytes, Nat.add_assoc (slot * inner.slotSize) 3 4,
    overwrite_append, Option.map_bind]
  refine Option.bind_congr fun fourth _ => ?_
  rw [Function.comp_apply]
  cases overwrite fourth (slot * inner.slotSize + 7 + (asBytes key).length) value <;> rfl

/-- Lengths that the header cannot state are refused before anything is written. -/
theorem Inner.writeSlot_of_not_encodable (inner : Inner) (slot : Nat) (h : ¬ Encodable key value) :
    ∃ e, inner.writeSlot slot key value = some (.error e) := by
  rw [Inner.writeSlot]
  by_cases hkey : (asBytes key).length > u16Max
  · exact ⟨keyTooLong, if_pos hkey⟩
  · have hvalue : value.length > u32Max := by
      rw [Encodable] at h
      omega
    exact ⟨valueTooLong, by rw [if_neg hkey, if_pos hvalue]; rfl⟩

theorem slice_header (key : String) (value : Bytes) :
    slice (record key value) 0 header = some (recordHeader key value) := by
  have hlength := length_record key value
  rw [Inner.needed] at hlength
  rw [slice_of_le (Nat.zero_le _) (by omega), List.drop_zero, Nat.sub_zero, record,
    List.append_assoc, List.take_left' (length_recordHeader key value)]

theorem slice_key (key : String) (value : Bytes) :
    slice (record key value) header (header + (asBytes key).length) = some (asBytes key) := by
  have hlength := length_record key value
  rw [Inner.needed] at hlength
  rw [slice_of_le (by omega) (by omega), record, List.append_assoc,
    List.drop_left' (length_recordHeader key value), Nat.add_sub_cancel_left,
    List.take_left' rfl]

theorem slice_value (key : String) (value : Bytes) :
    slice (record key value) (header + (asBytes key).length)
      (header + (asBytes key).length + value.length) = some value := by
  have hlength := length_record key value
  rw [Inner.needed] at hlength
  have hdrop : (recordHeader key value ++ asBytes key).length = header + (asBytes key).length := by
    rw [List.length_append, length_recordHeader]
  rw [slice_of_le (by omega) (by omega), record, List.drop_left' hdrop, Nat.add_sub_cancel_left,
    List.take_length]

/-- The entry is read back as it was written. -/
theorem readSlot_record (h : Encodable key value) (hfits : Inner.needed key value ≤ slotSize)
    (hout : overwrite mmap (slot * slotSize) (record key value) = some out) :
    readSlot out slotSize slot = some (some (key, value)) := by
  have hlength := length_record key value
  have hneeded : Inner.needed key value = header + (asBytes key).length + value.length := rfl
  have hheader : slice out (slot * slotSize) (slot * slotSize + header) =
      some (recordHeader key value) :=
    (slice_overwrite hout (by omega)).trans (slice_header key value)
  have hkey := (slice_overwrite hout (by omega)).trans (slice_key key value)
  have hvalue := (slice_overwrite hout (by omega)).trans (slice_value key value)
  have hkeyLen : fromLeBytes (toLeBytes 2 (asBytes key).length) = (asBytes key).length :=
    fromLeBytes_toLeBytes (Nat.lt_succ_of_le h.1)
  have hvalLen : fromLeBytes (toLeBytes 4 value.length) = value.length :=
    fromLeBytes_toLeBytes (Nat.lt_succ_of_le h.2)
  have hrange : valueRange out slotSize slot =
      some (some (slot * slotSize + header + (asBytes key).length, value.length)) := by
    rw [valueRange, hheader]
    simp only [recordHeader, toLeBytes, List.cons_append, List.nil_append, Option.bind_eq_bind,
      Option.bind_some] at hkeyLen hvalLen ⊢
    rw [hkeyLen, hvalLen, if_neg (by simp), if_neg (by omega)]
    rfl
  simp only [← Nat.add_assoc] at hkey hvalue
  rw [readSlot, hrange]
  simp only [Option.bind_eq_bind, Option.bind_some]
  rw [hkey, hvalue, Option.bind_some, asBytes, Mmap.fromUTF8_toUTF8]
  rfl

/-- A slot whose flag is cleared holds nothing. -/
theorem readSlot_cleared (hroomy : header ≤ slotSize)
    (hend : slot * slotSize + slotSize ≤ mmap.length)
    (hout : overwrite mmap (slot * slotSize) [0] = some out) :
    readSlot out slotSize slot = some none := by
  have hlength := length_overwrite hout
  have hfirst : slice out (slot * slotSize + 0) (slot * slotSize + 1) = slice [0] 0 1 :=
    slice_overwrite hout (Nat.le_refl 1)
  change slice out (slot * slotSize) (slot * slotSize + 1) = some [0] at hfirst
  rw [slice_of_le (by omega) (by rw [header] at hroomy; omega), Nat.add_sub_cancel_left,
    Option.some.injEq] at hfirst
  have hheader : slice out (slot * slotSize) (slot * slotSize + header) =
      some ((out.drop (slot * slotSize)).take (slot * slotSize + header - slot * slotSize)) :=
    slice_of_le (by omega) (by omega)
  cases hdrop : out.drop (slot * slotSize) with
  | nil =>
    rw [hdrop] at hfirst
    cases hfirst
  | cons used rest =>
    rw [hdrop, List.take_succ_cons, List.take_zero, List.cons.injEq] at hfirst
    rw [hdrop, Nat.add_sub_cancel_left, header, List.take_succ_cons, hfirst.1] at hheader
    exact readSlot_unused (by decide) hheader

end Tierstore.SlotMmap
