import Tierstore.SlotMmap.Sound

/-! Opening a file scans its slots. Whatever the bytes are, the scan and every later call stay
within the mapping; a file with no key in two slots opens to a sound index of its records. -/
namespace Tierstore.SlotMmap
open Buffers
variable {slots slotSize slot : Nat} {file mmap : Bytes} {inner : Inner} {key : String}

theorem openFile_of_length (hsize : header < slotSize) (hlength : file.length = slots * slotSize) :
    openFile file slots slotSize = (List.range slots).foldlM scanSlot
      { mmap := file, slotSize, index := ∅, order := [], free := [] } := by
  rw [openFile, if_pos hsize]
  simp only [hlength, ne_eq, not_true_eq_false, if_false]

/-! ## Any bytes -/

/-- Whatever slot the index or the free list names lies in the mapping. -/
structure InRange (slots : Nat) (inner : Inner) : Prop where
  length : inner.mmap.length = slots * inner.slotSize
  roomy : header < inner.slotSize
  index_lt : ∀ key slot, inner.index.lookup key = some slot → slot < slots
  free_lt : ∀ slot ∈ inner.free, slot < slots

namespace InRange

theorem end_le (h : InRange slots inner) (hslot : slot < slots) :
    slot * inner.slotSize + inner.slotSize ≤ inner.mmap.length :=
  h.length.symm ▸ slot_end_le hslot

theorem readSlot (h : InRange slots inner) (hslot : slot < slots) :
    ∃ entry, readSlot inner.mmap inner.slotSize slot = some entry :=
  readSlot_isSome (Nat.le_of_lt h.roomy) (h.end_le hslot)

theorem erase (h : InRange slots inner) (key : String) (order : List String) :
    InRange slots { inner with order, index := inner.index.erase key } where
  length := h.length
  roomy := h.roomy
  index_lt := fun other slot hother => h.index_lt other slot (lookup_erase_some.1 hother).2
  free_lt := h.free_lt

theorem insert (h : InRange slots inner) (hslot : slot < slots) (key : String)
    (order : List String) :
    InRange slots { inner with index := inner.index.insert key slot, order } where
  length := h.length
  roomy := h.roomy
  index_lt := fun other slot' hother => by
    obtain ⟨-, rfl⟩ | ⟨-, hold⟩ := lookup_insert_some.1 hother
    · exact hslot
    · exact h.index_lt other slot' hold
  free_lt := h.free_lt

theorem scanSlot (h : InRange slots inner) (hslot : slot < slots) :
    ∃ out, scanSlot inner slot = some out ∧ InRange slots out := by
  obtain ⟨entry, hentry⟩ := h.readSlot hslot
  rw [SlotMmap.scanSlot, hentry]
  cases entry with
  | some entry => exact ⟨_, rfl, h.insert hslot entry.1 _⟩
  | none =>
    refine ⟨_, rfl, h.length, h.roomy, h.index_lt, fun slot' hmem => ?_⟩
    obtain rfl | hmem := List.mem_cons.1 hmem
    · exact hslot
    · exact h.free_lt slot' hmem

theorem scan (h : InRange slots inner) (todo : List Nat) (htodo : ∀ slot ∈ todo, slot < slots) :
    ∃ out, todo.foldlM SlotMmap.scanSlot inner = some out ∧ InRange slots out := by
  induction todo generalizing inner with
  | nil => exact ⟨inner, rfl, h⟩
  | cons slot todo ih =>
    obtain ⟨next, hnext, hrange⟩ := h.scanSlot (htodo slot List.mem_cons_self)
    rw [List.foldlM_cons, hnext]
    exact ih hrange fun slot' hmem => htodo slot' (List.mem_cons_of_mem slot hmem)

theorem writeSlot (h : InRange slots inner) (hslot : slot < slots) {value : Bytes}
    (hfits : Inner.needed key value ≤ inner.slotSize) :
    (∃ e, inner.writeSlot slot key value = some (.error e)) ∨
      ∃ mmap, inner.writeSlot slot key value = some (.ok { inner with mmap }) ∧
        InRange slots { inner with mmap } := by
  by_cases henc : Encodable key value
  · obtain ⟨mmap, hwrite, hlength, -, -⟩ := Inner.exists_written h.length hslot henc hfits
    exact .inr ⟨mmap, hwrite, hlength.trans h.length, h.roomy, h.index_lt, h.free_lt⟩
  · exact .inl (Inner.writeSlot_of_not_encodable inner slot henc)

theorem claim (h : InRange slots inner) :
    (∃ e after, inner.claim = some (.error e, after) ∧ InRange slots after) ∨
      ∃ slot displaced after, inner.claim = some (.ok (slot, displaced), after) ∧ slot < slots ∧
        InRange slots after ∧ after.slotSize = inner.slotSize := by
  rw [Inner.claim]
  cases hfree : inner.free with
  | cons slot free =>
    have hslot := h.free_lt slot (hfree ▸ List.mem_cons_self)
    exact .inr ⟨slot, [], _, rfl, hslot, ⟨h.length, h.roomy, h.index_lt, fun slot' hmem =>
      h.free_lt slot' (hfree ▸ List.mem_cons_of_mem slot hmem)⟩, rfl⟩
  | nil =>
    cases inner.order with
    | nil => exact .inl ⟨zeroSlots, inner, rfl, h⟩
    | cons oldest order =>
      simp only
      cases hslot : inner.index.lookup oldest with
      | none =>
        exact .inl ⟨outOfSync, _, rfl, h.length, h.roomy, h.index_lt,
          fun _ hmem => absurd hmem List.not_mem_nil⟩
      | some slot =>
        have hlt := h.index_lt oldest slot hslot
        obtain ⟨entry, hentry⟩ := h.readSlot hlt
        have herase := h.erase oldest order
        rw [hfree] at herase
        simp only [hentry]
        exact .inr ⟨slot, entry.toList, _, rfl, hlt, herase, rfl⟩

theorem put (h : InRange slots inner) (key : String) (value : Bytes) :
    ∃ answer after, inner.insert key value = some (answer, after) ∧ InRange slots after := by
  rw [Inner.insert]
  cases hfits : inner.fits key value with
  | error e => exact ⟨.error e, inner, rfl, h⟩
  | ok _ =>
    have hneeded := Inner.fits_iff.1 hfits
    cases hkey : inner.index.lookup key with
    | some slot =>
      obtain ⟨e, hwrite⟩ | ⟨mmap, hwrite, hnext⟩ := h.writeSlot (h.index_lt key slot hkey) hneeded
      · simp only [hwrite]
        exact ⟨.error e, inner, rfl, h⟩
      · simp only [hwrite]
        exact ⟨.ok [], _, rfl, hnext⟩
    | none =>
      obtain ⟨e, after, hclaim, hafter⟩ | ⟨slot, displaced, after, hclaim, hslot, hafter, hsize⟩ :=
        h.claim
      · simp only [hclaim]
        exact ⟨.error e, after, rfl, hafter⟩
      · simp only [hclaim, Option.bind_eq_bind, Option.bind_some]
        obtain ⟨e, hwrite⟩ | ⟨mmap, hwrite, hnext⟩ := hafter.writeSlot hslot (hsize ▸ hneeded)
        · simp only [hwrite]
          exact ⟨.error e, after, rfl, hafter⟩
        · simp only [hwrite]
          exact ⟨.ok displaced, _, rfl, hnext.insert hslot key _⟩

theorem delete (h : InRange slots inner) (key : String) :
    ∃ existed after, inner.remove key = some (existed, after) ∧ InRange slots after := by
  rw [Inner.remove]
  cases hkey : inner.index.lookup key with
  | none => exact ⟨false, inner, rfl, h⟩
  | some slot =>
    have hslot := h.index_lt key slot hkey
    have hend := h.end_le hslot
    have hroomy := h.roomy
    obtain ⟨mmap, hmmap⟩ : ∃ mmap, overwrite inner.mmap (slot * inner.slotSize) [0] = some mmap :=
      ⟨_, overwrite_of_le (by rw [List.length_singleton]; omega)⟩
    have herase := h.erase key (inner.order.filter (· ≠ key))
    simp only [hmmap]
    refine ⟨true, _, rfl, (length_overwrite hmmap).trans h.length, h.roomy, herase.index_lt,
      fun slot' hmem => ?_⟩
    obtain rfl | hmem := List.mem_cons.1 hmem
    · exact hslot
    · exact h.free_lt slot' hmem

theorem fetch (h : InRange slots inner) (key : String) :
    ∃ found, inner.fetch key = some found := by
  rw [Inner.fetch]
  cases hkey : inner.index.lookup key with
  | none => exact ⟨none, rfl⟩
  | some slot =>
    obtain ⟨entry, hentry⟩ := h.readSlot (h.index_lt key slot hkey)
    simp only [hentry]
    exact ⟨_, rfl⟩

theorem getRef (h : InRange slots inner) (key : String) :
    ∃ found, inner.getRef key = some found := by
  rw [Inner.getRef]
  cases hkey : inner.index.lookup key with
  | none => exact ⟨none, rfl⟩
  | some slot =>
    have hend := h.end_le (h.index_lt key slot hkey)
    obtain ⟨range, hrange⟩ := valueRange_isSome (Nat.le_of_lt h.roomy) hend
    simp only [hrange, Option.bind_eq_bind, Option.bind_some]
    cases range with
    | none => exact ⟨none, rfl⟩
    | some range =>
      have hwithin := valueRange_within hrange
      simp only
      rw [slice_of_le (Nat.le_add_right _ _) (by omega)]
      exact ⟨_, rfl⟩

/-- No call panics, and what it leaves is in range again. -/
theorem perform (h : InRange slots inner) (c : Call) :
    ∃ answer after, inner.perform c = some (answer, after) ∧ InRange slots after := by
  cases c with
  | get key =>
    obtain ⟨found, hfound⟩ := h.fetch key
    exact ⟨found, inner, by rw [Inner.perform, hfound, Option.map_some], h⟩
  | getRef key =>
    obtain ⟨found, hfound⟩ := h.getRef key
    exact ⟨found, inner, by rw [Inner.perform, hfound, Option.map_some], h⟩
  | «exists» key => exact ⟨_, inner, rfl, h⟩
  | put key value => exact h.put key value
  | delete key => exact h.delete key

end InRange

theorem openFile_inRange (hsize : header < slotSize) (hlength : file.length = slots * slotSize) :
    ∃ inner, openFile file slots slotSize = some inner ∧ InRange slots inner := by
  rw [openFile_of_length hsize hlength]
  refine InRange.scan ⟨hlength, hsize, fun key slot hkey => ?_, fun slot hmem => ?_⟩ _
    fun slot => List.mem_range.1
  · simp at hkey
  · cases hmem

/-! ## Files with no key in two slots -/

def Distinct (slots slotSize : Nat) (mmap : Bytes) : Prop :=
  ∀ slot, slot < slots → ∀ other, other < slots → ∀ key value value',
    readSlot mmap slotSize slot = some (some (key, value)) →
    readSlot mmap slotSize other = some (some (key, value')) → slot = other

/-- The index after the first slots is that of these slots. -/
theorem scan_partitioned (hsize : header < slotSize) (hlength : mmap.length = slots * slotSize)
    (hdistinct : Distinct slots slotSize mmap) (n : Nat) (hn : n ≤ slots) :
    ∃ inner, (List.range n).foldlM scanSlot
        { mmap, slotSize, index := ∅, order := [], free := [] } = some inner ∧
      inner.mmap = mmap ∧ inner.slotSize = slotSize ∧ Partitioned n inner ∧ Recorded inner := by
  induction n with
  | zero =>
    refine ⟨_, rfl, rfl, rfl, ⟨List.nodup_nil, List.nodup_nil, ?_, ?_, ?_, ?_⟩, ⟨?_, ?_⟩⟩ <;>
      simp
  | succ n ih =>
    obtain ⟨inner, hscan, rfl, rfl, hpartition, hrecorded⟩ := ih (Nat.le_of_succ_le hn)
    have hend : n * inner.slotSize + inner.slotSize ≤ slots * inner.slotSize := slot_end_le hn
    obtain ⟨entry, hentry⟩ : ∃ entry, readSlot inner.mmap inner.slotSize n = some entry :=
      readSlot_isSome (Nat.le_of_lt hsize) (by omega)
    rw [List.range_succ, List.foldlM_append, hscan]
    simp only [List.foldlM_cons, List.foldlM_nil, scanSlot, hentry, Option.bind_eq_bind,
      Option.bind_some]
    cases entry with
    | none =>
      refine ⟨_, rfl, rfl, rfl, hpartition.grow, hrecorded.held, fun slot hmem => ?_⟩
      obtain rfl | hmem := List.mem_cons.1 hmem
      · exact hentry
      · exact hrecorded.vacant slot hmem
    | some entry =>
      obtain ⟨key, value⟩ := entry
      have hnew : inner.index.lookup key = none := by
        cases hkey : inner.index.lookup key with
        | none => rfl
        | some slot =>
          obtain ⟨held, hheld⟩ := hrecorded.held key slot hkey
          have hlt := hpartition.lt hkey
          have heq := hdistinct slot (by omega) n hn key held value hheld hentry
          omega
      refine ⟨_, rfl, rfl, rfl, hpartition.grow.enter hnew, fun other slot hother => ?_,
        hrecorded.vacant⟩
      obtain ⟨rfl, rfl⟩ | ⟨-, hold⟩ := lookup_insert_some.1 hother
      · exact ⟨value, hentry⟩
      · exact hrecorded.held other slot hold

theorem openFile_sound (hsize : header < slotSize) (hlength : mmap.length = slots * slotSize)
    (hdistinct : Distinct slots slotSize mmap) :
    ∃ inner, openFile mmap slots slotSize = some inner ∧ inner.mmap = mmap ∧
      inner.slotSize = slotSize ∧ Sound slots inner := by
  obtain ⟨inner, hscan, rfl, rfl, hpartition, hrecorded⟩ :=
    scan_partitioned hsize hlength hdistinct slots (Nat.le_refl slots)
  rw [openFile_of_length hsize hlength, hscan]
  exact ⟨inner, rfl, rfl, rfl, hlength, Nat.le_of_lt hsize, hpartition, hrecorded⟩

/-- In a sound tier the records determine the index. -/
theorem Sound.lookup_iff (h : Sound slots inner) (key : String) (slot : Nat) :
    inner.index.lookup key = some slot ↔
      slot < slots ∧
        ∃ value, readSlot inner.mmap inner.slotSize slot = some (some (key, value)) := by
  constructor
  · intro hkey
    exact ⟨h.partition.lt hkey, h.recorded.held key slot hkey⟩
  · intro ⟨hslot, value, hread⟩
    obtain hfree | ⟨other, hother⟩ := (h.partition.covered slot).1 hslot
    · rw [h.recorded.vacant slot hfree] at hread
      cases hread
    · obtain ⟨held, hheld⟩ := h.recorded.held other slot hother
      simp only [hread, Option.some.injEq, Prod.mk.injEq] at hheld
      exact hheld.1 ▸ hother

/-- No key is in two of its slots. -/
theorem Sound.distinct (h : Sound slots inner) : Distinct slots inner.slotSize inner.mmap := by
  intro slot hslot other hother key value value' hread hread'
  have hkey := (h.lookup_iff key slot).2 ⟨hslot, value, hread⟩
  have hkey' := (h.lookup_iff key other).2 ⟨hother, value', hread'⟩
  exact Option.some.inj (hkey.symm.trans hkey')

/-! ## A new file -/

theorem readSlot_zeros (hsize : header < slotSize) (hslot : slot < slots) :
    readSlot (List.replicate (slots * slotSize) 0) slotSize slot = some none := by
  have hend : slot * slotSize + slotSize ≤ slots * slotSize := slot_end_le hslot
  have hunused : (0 : UInt8) ≠ 1 := by decide
  have hheader : slice (List.replicate (slots * slotSize) 0) (slot * slotSize)
      (slot * slotSize + header) = some ((0 : UInt8) :: List.replicate 6 0) := by
    rw [slice_of_le (by omega) (by rw [List.length_replicate]; omega), Nat.add_sub_cancel_left,
      List.drop_replicate, List.take_replicate, Nat.min_eq_left (by omega)]
    rfl
  exact readSlot_unused hunused hheader

theorem openFile_replicate (hsize : header < slotSize) (slots n : Nat) :
    openFile (List.replicate n 0) slots slotSize =
      openFile (List.replicate (slots * slotSize) 0) slots slotSize := by
  rw [openFile_of_length hsize List.length_replicate, openFile, if_pos hsize]
  by_cases hn : n = slots * slotSize
  · simp [hn]
  · have hset : setLen (List.replicate n 0) (slots * slotSize) =
        List.replicate (slots * slotSize) 0 := by
      rw [setLen, List.take_replicate, List.length_replicate, List.replicate_append_replicate]
      congr 1
      omega
    simp only [List.length_replicate, ne_eq, hn, not_false_eq_true, if_true, hset]

/-- A file of zeros, of whatever length, opens to an empty tier. -/
theorem openFile_zeros (hsize : header < slotSize) (slots n : Nat) :
    ∃ inner, openFile (List.replicate n 0) slots slotSize = some inner ∧
      inner.slotSize = slotSize ∧ Sound slots inner ∧
      ∀ key, inner.index.lookup key = none := by
  have hdistinct : Distinct slots slotSize (List.replicate (slots * slotSize) 0) := by
    intro slot hslot other _ key value value' hread
    rw [readSlot_zeros hsize hslot] at hread
    cases hread
  obtain ⟨inner, hopen, hmmap, hslotSize, hsound⟩ :=
    openFile_sound hsize List.length_replicate hdistinct
  refine ⟨inner, (openFile_replicate hsize slots n).trans hopen, hslotSize, hsound, fun key => ?_⟩
  cases hkey : inner.index.lookup key with
  | none => rfl
  | some slot =>
    obtain ⟨value, hheld⟩ := hsound.recorded.held key slot hkey
    rw [hmmap, hslotSize, readSlot_zeros hsize (hsound.partition.lt hkey)] at hheld
    cases hheld

end Tierstore.SlotMmap
