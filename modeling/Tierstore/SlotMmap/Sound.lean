import Tierstore.SlotMmap.Record

/-! What every call keeps: each slot is either free or has exactly one key, the queue has each key
once, and the records in the mapping say what the index says. -/
namespace Tierstore.SlotMmap
open Buffers

/-- Each slot is in exactly one of the index and the free list, and the queue lists each indexed
key exactly once. -/
structure Partitioned (slots : Nat) (inner : Inner) : Prop where
  free_nodup : inner.free.Nodup
  order_nodup : inner.order.Nodup
  mem_order : ∀ key, key ∈ inner.order ↔ ∃ slot, inner.index.lookup key = some slot
  one_key : ∀ key other slot, inner.index.lookup key = some slot →
    inner.index.lookup other = some slot → key = other
  apart : ∀ key slot, inner.index.lookup key = some slot → slot ∉ inner.free
  covered : ∀ slot, slot < slots ↔
    slot ∈ inner.free ∨ ∃ key, inner.index.lookup key = some slot

/-- An indexed slot has the record of its key, a free slot has none. -/
structure Recorded (inner : Inner) : Prop where
  held : ∀ key slot, inner.index.lookup key = some slot →
    ∃ value, readSlot inner.mmap inner.slotSize slot = some (some (key, value))
  vacant : ∀ slot ∈ inner.free, readSlot inner.mmap inner.slotSize slot = some none

structure Sound (slots : Nat) (inner : Inner) : Prop where
  length : inner.mmap.length = slots * inner.slotSize
  roomy : header ≤ inner.slotSize
  partition : Partitioned slots inner
  recorded : Recorded inner

/-! ## The index, the queue and the free list -/
section Index
variable {index : AList fun _ : String => Nat} {key other : String} {slot slot' : Nat}

theorem lookup_erase_some : (index.erase key).lookup other = some slot ↔
    other ≠ key ∧ index.lookup other = some slot := by
  by_cases h : other = key
  · subst h
    simp
  · rw [AList.lookup_erase_ne h]
    exact (and_iff_right h).symm

theorem lookup_insert_some : (index.insert key slot).lookup other = some slot' ↔
    (other = key ∧ slot = slot') ∨ (other ≠ key ∧ index.lookup other = some slot') := by
  by_cases h : other = key
  · subst h
    simp
  · rw [AList.lookup_insert_ne h]
    simp [h]

end Index

namespace Partitioned
variable {slots slot : Nat} {inner : Inner} {key : String}

theorem lt (h : Partitioned slots inner) (hkey : inner.index.lookup key = some slot) :
    slot < slots := (h.covered slot).2 (.inr ⟨key, hkey⟩)

/-- A slot more, which is free. -/
theorem grow (h : Partitioned slots inner) :
    Partitioned (slots + 1) { inner with free := slots :: inner.free } where
  free_nodup := List.nodup_cons.2
    ⟨fun hmem => absurd ((h.covered slots).2 (.inl hmem)) (Nat.lt_irrefl _), h.free_nodup⟩
  order_nodup := h.order_nodup
  mem_order := h.mem_order
  one_key := h.one_key
  apart := fun key slot hkey hmem => by
    obtain rfl | hmem := List.mem_cons.1 hmem
    · exact absurd (h.lt hkey) (Nat.lt_irrefl _)
    · exact h.apart key slot hkey hmem
  covered := fun slot => by
    rw [List.mem_cons, or_assoc, ← h.covered slot]
    omega

/-- A key leaves its slot. -/
theorem leave (h : Partitioned slots inner) (hkey : inner.index.lookup key = some slot) :
    Partitioned slots { inner with
      index := inner.index.erase key
      order := inner.order.filter (· ≠ key)
      free := slot :: inner.free } where
  free_nodup := List.nodup_cons.2 ⟨h.apart key slot hkey, h.free_nodup⟩
  order_nodup := h.order_nodup.filter _
  mem_order := fun other => by
    simp only [List.mem_filter, h.mem_order, decide_eq_true_eq, lookup_erase_some,
      exists_and_left, and_comm]
  one_key := fun other other' slot' hother hother' =>
    h.one_key other other' slot' (lookup_erase_some.1 hother).2 (lookup_erase_some.1 hother').2
  apart := fun other slot' hother hmem => by
    obtain ⟨hne, hold⟩ := lookup_erase_some.1 hother
    obtain rfl | hmem := List.mem_cons.1 hmem
    · exact hne (h.one_key other key slot' hold hkey)
    · exact h.apart other slot' hold hmem
  covered := fun slot' => by
    simp only [h.covered slot', List.mem_cons, lookup_erase_some]
    constructor
    · intro hslot
      obtain hmem | ⟨other, hother⟩ := hslot
      · exact .inl (.inr hmem)
      · by_cases hne : other = key
        · rw [hne, hkey] at hother
          exact .inl (.inl (Option.some.inj hother).symm)
        · exact .inr ⟨other, hne, hother⟩
    · intro hslot
      obtain (rfl | hmem) | ⟨other, -, hother⟩ := hslot
      · exact .inr ⟨key, hkey⟩
      · exact .inl hmem
      · exact .inr ⟨other, hother⟩

/-- A new key takes a free slot. -/
theorem enter (h : Partitioned slots { inner with free := slot :: inner.free })
    (hkey : inner.index.lookup key = none) :
    Partitioned slots { inner with
      index := inner.index.insert key slot
      order := inner.order ++ [key] } := by
  have hfree := List.nodup_cons.1 h.free_nodup
  have hslot : ∀ other, inner.index.lookup other ≠ some slot := fun other hother =>
    h.apart other slot hother List.mem_cons_self
  have hmem : ∀ other, other ∈ inner.order ↔ ∃ slot, inner.index.lookup other = some slot :=
    h.mem_order
  have hnew : key ∉ inner.order := fun hin => by
    obtain ⟨slot', hslot'⟩ := (hmem key).1 hin
    exact absurd (hkey.symm.trans hslot') (by simp)
  constructor
  case free_nodup => exact hfree.2
  case order_nodup =>
    refine List.nodup_append.2 ⟨h.order_nodup, List.nodup_singleton key, fun a ha b hb heq => ?_⟩
    rw [heq, List.mem_singleton.1 hb] at ha
    exact hnew ha
  case mem_order =>
    intro other
    simp only [List.mem_append, List.mem_singleton, hmem, lookup_insert_some]
    by_cases hne : other = key
    · simp [hne]
    · simp [hne]
  case one_key =>
    intro other other' slot' hother hother'
    obtain ⟨rfl, rfl⟩ | ⟨-, hold⟩ := lookup_insert_some.1 hother
    · obtain ⟨rfl, -⟩ | ⟨-, hold'⟩ := lookup_insert_some.1 hother'
      · rfl
      · exact absurd hold' (hslot other')
    · obtain ⟨rfl, rfl⟩ | ⟨-, hold'⟩ := lookup_insert_some.1 hother'
      · exact absurd hold (hslot other)
      · exact h.one_key other other' slot' hold hold'
  case apart =>
    intro other slot' hother hin
    obtain ⟨-, rfl⟩ | ⟨-, hother⟩ := lookup_insert_some.1 hother
    · exact hfree.1 hin
    · exact h.apart other slot' hother (List.mem_cons_of_mem slot hin)
  case covered =>
    intro slot'
    have hcovered := h.covered slot'
    simp only [List.mem_cons] at hcovered
    simp only [hcovered, lookup_insert_some]
    constructor
    · intro hin
      obtain (rfl | hin) | ⟨other, hother⟩ := hin
      · exact .inr ⟨key, .inl ⟨rfl, rfl⟩⟩
      · exact .inl hin
      · have hne : other ≠ key := fun heq => by
          rw [heq, hkey] at hother
          cases hother
        exact .inr ⟨other, .inr ⟨hne, hother⟩⟩
    · intro hin
      obtain hin | ⟨other, ⟨-, rfl⟩ | ⟨-, hother⟩⟩ := hin
      · exact .inl (.inr hin)
      · exact .inl (.inl rfl)
      · exact .inr ⟨other, hother⟩

end Partitioned

/-! ## The calls -/
section Calls
variable {slots slot : Nat} {inner : Inner} {key : String} {value : Bytes}

/-- A record goes to its slot and nowhere else. -/
theorem Inner.exists_written (hlength : inner.mmap.length = slots * inner.slotSize)
    (hslot : slot < slots) (henc : Encodable key value)
    (hfits : Inner.needed key value ≤ inner.slotSize) :
    ∃ mmap, inner.writeSlot slot key value = some (.ok { inner with mmap }) ∧
      mmap.length = inner.mmap.length ∧
      readSlot mmap inner.slotSize slot = some (some (key, value)) ∧
      ∀ other, other ≠ slot →
        readSlot mmap inner.slotSize other = readSlot inner.mmap inner.slotSize other := by
  have hend : slot * inner.slotSize + inner.slotSize ≤ slots * inner.slotSize := slot_end_le hslot
  have hroomy : header ≤ inner.slotSize := by
    rw [Inner.needed] at hfits
    omega
  have hrecord := length_record key value
  obtain ⟨mmap, hmmap⟩ : ∃ mmap, overwrite inner.mmap (slot * inner.slotSize)
      (record key value) = some mmap := ⟨_, overwrite_of_le (by omega)⟩
  refine ⟨mmap, ?_, length_overwrite hmmap, readSlot_record henc hfits hmmap, fun other hne =>
    readSlot_other hroomy hne hmmap (by omega)⟩
  rw [Inner.writeSlot_of_encodable inner slot henc, hmmap, Option.map_some]

/-- The slot of an indexed key takes another value. -/
theorem Sound.replace (h : Sound slots inner) (hkey : inner.index.lookup key = some slot)
    (henc : Encodable key value) (hfits : Inner.needed key value ≤ inner.slotSize) :
    ∃ mmap, inner.writeSlot slot key value = some (.ok { inner with mmap }) ∧
      Sound slots { inner with mmap } := by
  have hslot := h.partition.lt hkey
  obtain ⟨mmap, hwrite, hlength, hread, hothers⟩ :=
    Inner.exists_written h.length hslot henc hfits
  refine ⟨mmap, hwrite, hlength.trans h.length, h.roomy, ?_, ?_, ?_⟩
  · exact ⟨h.partition.free_nodup, h.partition.order_nodup, h.partition.mem_order,
      h.partition.one_key, h.partition.apart, h.partition.covered⟩
  · intro other slot' hother
    by_cases hne : slot' = slot
    · subst hne
      rw [h.partition.one_key other key slot' hother hkey]
      exact ⟨value, hread⟩
    · obtain ⟨held, hheld⟩ := h.recorded.held other slot' hother
      exact ⟨held, (hothers slot' hne).trans hheld⟩
  · intro slot' hfree
    have hne : slot' ≠ slot := fun heq => h.partition.apart key slot hkey (heq ▸ hfree)
    exact (hothers slot' hne).trans (h.recorded.vacant slot' hfree)

/-- A slot is set aside for a new entry: it would be free if it were given back. -/
structure Claimed (slots slot : Nat) (inner : Inner) : Prop where
  length : inner.mmap.length = slots * inner.slotSize
  roomy : header ≤ inner.slotSize
  partition : Partitioned slots { inner with free := slot :: inner.free }
  recorded : Recorded inner

/-- Where there are slots, one is found, and it costs a free slot or the oldest entry. -/
theorem Sound.claim (h : Sound slots inner) (hslots : 0 < slots) :
    ∃ slot displaced after, inner.claim = some (.ok (slot, displaced), after) ∧
      Claimed slots slot after ∧ after.slotSize = inner.slotSize ∧
      (∀ key, inner.index.lookup key = none → after.index.lookup key = none) ∧
      (after.free ≠ inner.free ∨ after.order ≠ inner.order) := by
  rw [Inner.claim]
  cases hfree : inner.free with
  | cons slot free =>
    refine ⟨slot, [], { inner with free }, rfl, ⟨h.length, h.roomy, ?_, ?_⟩, rfl,
      fun _ hkey => hkey, ?_⟩
    · simp only [← hfree]
      exact h.partition
    · exact ⟨h.recorded.held, fun slot' hslot' =>
        h.recorded.vacant slot' (hfree ▸ List.mem_cons_of_mem slot hslot')⟩
    · exact .inl (List.cons_ne_self slot free).symm
  | nil =>
    cases horder : inner.order with
    | nil =>
      -- No slot is free and none has a key, so there is none.
      obtain hin | ⟨key, hkey⟩ := (h.partition.covered 0).1 hslots
      · rw [hfree] at hin
        cases hin
      · have hin := (h.partition.mem_order key).2 ⟨0, hkey⟩
        rw [horder] at hin
        cases hin
    | cons oldest order =>
      obtain ⟨slot, hslot⟩ := (h.partition.mem_order oldest).1 (by simp [horder])
      obtain ⟨value, hread⟩ := h.recorded.held oldest slot hslot
      simp only [hslot, hread]
      refine ⟨slot, [(oldest, value)], _, rfl, ⟨h.length, h.roomy, ?_, ?_⟩, rfl,
        fun key hkey => ?_, .inr (List.cons_ne_self oldest order).symm⟩
      · have hnodup := h.partition.order_nodup
        rw [horder] at hnodup
        have hrest : inner.order.filter (· ≠ oldest) = order := by
          rw [horder, List.filter_cons_of_neg (by simp)]
          refine List.filter_eq_self.2 fun other hother => ?_
          have hne : other ≠ oldest := fun heq => (List.nodup_cons.1 hnodup).1 (heq ▸ hother)
          simpa using hne
        have hleft := h.partition.leave hslot
        rw [hrest, hfree] at hleft
        exact hleft
      · exact ⟨fun other slot' hother =>
          h.recorded.held other slot' (lookup_erase_some.1 hother).2,
          fun _ hin => absurd hin List.not_mem_nil⟩
      · cases herase : (inner.index.erase oldest).lookup key with
        | none => rfl
        | some slot' =>
          have hold := (lookup_erase_some.1 herase).2
          rw [hkey] at hold
          cases hold

/-- The entry takes the slot that was set aside. -/
theorem Claimed.enter (h : Claimed slots slot inner) (hkey : inner.index.lookup key = none)
    (henc : Encodable key value) (hfits : Inner.needed key value ≤ inner.slotSize) :
    ∃ mmap, inner.writeSlot slot key value = some (.ok { inner with mmap }) ∧
      Sound slots { inner with
        mmap
        index := inner.index.insert key slot
        order := inner.order ++ [key] } := by
  have hslot : slot < slots := (h.partition.covered slot).2 (.inl List.mem_cons_self)
  have hfree := List.nodup_cons.1 h.partition.free_nodup
  obtain ⟨mmap, hwrite, hlength, hread, hothers⟩ :=
    Inner.exists_written h.length hslot henc hfits
  have hpartition := h.partition.enter hkey
  refine ⟨mmap, hwrite, hlength.trans h.length, h.roomy, ?_, ?_, ?_⟩
  · exact ⟨hpartition.free_nodup, hpartition.order_nodup, hpartition.mem_order,
      hpartition.one_key, hpartition.apart, hpartition.covered⟩
  · intro other slot' hother
    obtain ⟨rfl, rfl⟩ | ⟨-, hold⟩ := lookup_insert_some.1 hother
    · exact ⟨value, hread⟩
    · have hne : slot' ≠ slot := fun heq =>
        h.partition.apart other slot' hold (heq ▸ List.mem_cons_self)
      obtain ⟨held, hheld⟩ := h.recorded.held other slot' hold
      exact ⟨held, (hothers slot' hne).trans hheld⟩
  · intro slot' hin
    have hne : slot' ≠ slot := fun heq => hfree.1 (heq ▸ hin)
    exact (hothers slot' hne).trans (h.recorded.vacant slot' hin)

/-- A deleted entry's slot is free again. -/
theorem Sound.remove (h : Sound slots inner) (key : String) :
    ∃ existed after, inner.remove key = some (existed, after) ∧ Sound slots after ∧
      after.slotSize = inner.slotSize := by
  rw [Inner.remove]
  cases hkey : inner.index.lookup key with
  | none => exact ⟨false, inner, rfl, h, rfl⟩
  | some slot =>
    have hslot := h.partition.lt hkey
    have hend : slot * inner.slotSize + inner.slotSize ≤ slots * inner.slotSize := slot_end_le hslot
    have hroomy := h.roomy
    have hlength := h.length
    have hone : 1 ≤ inner.slotSize := by
      rw [header] at hroomy
      omega
    obtain ⟨mmap, hmmap⟩ : ∃ mmap, overwrite inner.mmap (slot * inner.slotSize) [0] = some mmap :=
      ⟨_, overwrite_of_le (by rw [List.length_singleton]; omega)⟩
    have hpartition := h.partition.leave hkey
    have hothers : ∀ other, other ≠ slot →
        readSlot mmap inner.slotSize other = readSlot inner.mmap inner.slotSize other :=
      fun other hne => readSlot_other hroomy hne hmmap hone
    simp only [hmmap]
    refine ⟨true, _, rfl, ⟨(length_overwrite hmmap).trans hlength, hroomy, ?_, ?_, ?_⟩, rfl⟩
    · exact ⟨hpartition.free_nodup, hpartition.order_nodup, hpartition.mem_order,
        hpartition.one_key, hpartition.apart, hpartition.covered⟩
    · intro other slot' hother
      obtain ⟨hne, hold⟩ := lookup_erase_some.1 hother
      have hapart : slot' ≠ slot := fun heq =>
        hne (h.partition.one_key other key slot (heq ▸ hold) hkey)
      obtain ⟨held, hheld⟩ := h.recorded.held other slot' hold
      exact ⟨held, (hothers slot' hapart).trans hheld⟩
    · intro slot' hin
      obtain rfl | hin := List.mem_cons.1 hin
      · exact readSlot_cleared hroomy (hlength.symm ▸ hend) hmmap
      · have hapart : slot' ≠ slot := fun heq => h.partition.apart key slot hkey (heq ▸ hin)
        exact (hothers slot' hapart).trans (h.recorded.vacant slot' hin)

theorem Sound.no_slots (h : Sound 0 inner) : inner.free = [] ∧ inner.order = [] := by
  constructor
  · refine List.eq_nil_iff_forall_not_mem.2 fun slot hslot => ?_
    exact absurd ((h.partition.covered slot).2 (.inl hslot)) (Nat.not_lt_zero slot)
  · refine List.eq_nil_iff_forall_not_mem.2 fun key hkey => ?_
    obtain ⟨slot, hslot⟩ := (h.partition.mem_order key).1 hkey
    exact absurd (h.partition.lt hslot) (Nat.not_lt_zero slot)

theorem Inner.fits_iff : inner.fits key value = .ok () ↔
    Inner.needed key value ≤ inner.slotSize := by
  rw [Inner.fits]
  split
  next h => simp [Nat.not_le.2 h]
  next h => simp [Nat.not_lt.1 h]

/-- The size check lets the entry through, the slot writer refuses it, and before it does a slot
is found for the new key. -/
def Inner.Overlooks (slots : Nat) (inner : Inner) (key : String) (value : Bytes) : Prop :=
  inner.fits key value = .ok () ∧ inner.index.lookup key = none ∧ 0 < slots ∧
    ¬ Encodable key value

/-- A put that is not overlooked keeps the tier sound, and changes nothing if it is rejected. -/
theorem Sound.insert (h : Sound slots inner) (hput : ¬ inner.Overlooks slots key value) :
    ∃ answer after, inner.insert key value = some (answer, after) ∧ Sound slots after ∧
      after.slotSize = inner.slotSize ∧ ∀ e, answer = .error e → after = inner := by
  rw [Inner.insert]
  cases hfits : inner.fits key value with
  | error e => exact ⟨.error e, inner, rfl, h, rfl, fun _ _ => rfl⟩
  | ok _ =>
    have hneeded := Inner.fits_iff.1 hfits
    cases hkey : inner.index.lookup key with
    | some slot =>
      by_cases henc : Encodable key value
      · obtain ⟨mmap, hwrite, hsound⟩ := h.replace hkey henc hneeded
        simp only [hwrite]
        exact ⟨.ok [], _, rfl, hsound, rfl, fun e he => by cases he⟩
      · obtain ⟨e, hwrite⟩ := Inner.writeSlot_of_not_encodable inner slot henc
        simp only [hwrite]
        exact ⟨.error e, inner, rfl, h, rfl, fun _ _ => rfl⟩
    | none =>
      obtain rfl | hslots := Nat.eq_zero_or_pos slots
      · have hclaim : inner.claim = some (.error zeroSlots, inner) := by
          rw [Inner.claim, h.no_slots.1, h.no_slots.2]
          rfl
        simp only [hclaim]
        exact ⟨.error zeroSlots, inner, rfl, h, rfl, fun _ _ => rfl⟩
      · have henc : Encodable key value := by
          by_contra henc
          exact hput ⟨hfits, hkey, hslots, henc⟩
        obtain ⟨slot, displaced, claimed, hclaim, hclaimed, hsize, hnone, -⟩ := h.claim hslots
        obtain ⟨mmap, hwrite, hsound⟩ := hclaimed.enter (hnone key hkey) henc (hsize ▸ hneeded)
        simp only [hclaim, Option.bind_eq_bind, Option.bind_some, hwrite]
        exact ⟨.ok displaced, _, rfl, hsound, hsize, fun e he => by cases he⟩

/-- A put that is overlooked fails after it has taken a free slot or the oldest entry. -/
theorem Sound.insert_overlooked (h : Sound slots inner) (hput : inner.Overlooks slots key value) :
    ∃ e after, inner.insert key value = some (.error e, after) ∧
      (after.free ≠ inner.free ∨ after.order ≠ inner.order) := by
  obtain ⟨hfits, hkey, hslots, henc⟩ := hput
  obtain ⟨slot, displaced, claimed, hclaim, -, -, -, hcost⟩ := h.claim hslots
  obtain ⟨e, hwrite⟩ := Inner.writeSlot_of_not_encodable claimed slot henc
  refine ⟨e, claimed, ?_, hcost⟩
  rw [Inner.insert, hfits, hkey]
  simp only [hclaim, Option.bind_eq_bind, Option.bind_some, hwrite]
  rfl

end Calls

end Tierstore.SlotMmap
