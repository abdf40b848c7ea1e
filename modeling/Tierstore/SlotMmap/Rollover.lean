import Tierstore.MemoryOrder
import Tierstore.SlotMmap.Restart

/-! The rollover contract: a file of slots is a memory tier bounded by the number of its slots,
which displaces its oldest entry, and refuses what does not fit in a slot. -/
namespace Tierstore.SlotMmap
open Buffers ItemShelf
variable {slots slot slotSize : Nat} {inner after : Inner} {key : String} {value : Bytes}

/-! ## What each call leaves to fetch -/

theorem fetch_congr (hindex : after.index.lookup key = inner.index.lookup key)
    (hread : ∀ slot, inner.index.lookup key = some slot →
      readSlot after.mmap after.slotSize slot = readSlot inner.mmap inner.slotSize slot) :
    after.fetch key = inner.fetch key := by
  rw [Inner.fetch, Inner.fetch, hindex]
  cases hkey : inner.index.lookup key with
  | none => rfl
  | some slot =>
    simp only [hread slot hkey]

theorem fetch_of_read (hkey : inner.index.lookup key = some slot)
    (hread : readSlot inner.mmap inner.slotSize slot = some (some (key, value))) :
    inner.fetch key = some (some value) := by
  rw [Inner.fetch, hkey]
  simp only [hread]
  rfl

theorem fetch_of_none (hkey : inner.index.lookup key = none) : inner.fetch key = some none := by
  rw [Inner.fetch, hkey]
  rfl

/-- The view that `get_ref` lends shows what `get` copies. -/
theorem Sound.getRef_eq (h : Sound slots inner) (key : String) :
    inner.getRef key = inner.fetch key := by
  cases hkey : inner.index.lookup key with
  | none =>
    rw [fetch_of_none hkey, Inner.getRef, hkey]
    rfl
  | some slot =>
    obtain ⟨value, hread, hfetch⟩ := h.fetch hkey
    rw [hfetch, Inner.getRef, hkey]
    simp only [readSlot, Option.bind_eq_bind, Option.bind_eq_some_iff] at hread
    obtain ⟨range, hrange, hread⟩ := hread
    cases range with
    | none => cases hread
    | some range =>
      obtain ⟨start, len⟩ := range
      obtain ⟨keyBytes, -, hread⟩ := Option.bind_eq_some_iff.1 hread
      split at hread
      · cases hread
      · obtain ⟨found, hfound, hread⟩ := Option.bind_eq_some_iff.1 hread
        cases hread
        simp only [hrange, hfound, Option.bind_eq_bind, Option.bind_some]
        rfl

/-- Each slot is free or has its place in the queue. -/
theorem Partitioned.count (h : Partitioned slots inner) :
    inner.order.length + inner.free.length = slots := by
  have hslot : ∀ key ∈ inner.order, ∃ slot, inner.index.lookup key = some slot :=
    fun key hkey => (h.mem_order key).1 hkey
  have htaken : (inner.order.map fun key => (inner.index.lookup key).getD slots).Nodup := by
    refine List.Nodup.map_on (fun key hkey other hother heq => ?_) h.order_nodup
    obtain ⟨slot, hslot₁⟩ := hslot key hkey
    obtain ⟨slot', hslot₂⟩ := hslot other hother
    rw [hslot₁, hslot₂, Option.getD_some, Option.getD_some] at heq
    subst heq
    exact h.one_key key other slot hslot₁ hslot₂
  have hperm : ((inner.order.map fun key => (inner.index.lookup key).getD slots) ++
      inner.free).Perm (List.range slots) := by
    refine (List.perm_ext_iff_of_nodup ?_ List.nodup_range).2 fun slot => ?_
    · refine List.nodup_append.2 ⟨htaken, h.free_nodup, fun a ha b hb heq => ?_⟩
      obtain ⟨key, hkey, rfl⟩ := List.mem_map.1 ha
      obtain ⟨slot, hlookup⟩ := hslot key hkey
      rw [hlookup, Option.getD_some] at heq
      exact h.apart key slot hlookup (heq ▸ hb)
    · rw [List.mem_append, List.mem_range, h.covered slot, or_comm]
      refine or_congr_right ⟨fun hmem => ?_, fun hmem => ?_⟩
      · obtain ⟨key, hkey, rfl⟩ := List.mem_map.1 hmem
        obtain ⟨slot, hlookup⟩ := hslot key hkey
        exact ⟨key, by rw [hlookup, Option.getD_some]⟩
      · obtain ⟨key, hkey⟩ := hmem
        exact List.mem_map.2 ⟨key, (h.mem_order key).2 ⟨slot, hkey⟩, by rw [hkey, Option.getD_some]⟩
  have hlength := hperm.length_eq
  rwa [List.length_append, List.length_map, List.length_range] at hlength

/-- The slot of an indexed key takes another value. -/
theorem Sound.overwritten (h : Sound slots inner) (hkey : inner.index.lookup key = some slot)
    (henc : Encodable key value) (hfits : Inner.needed key value ≤ inner.slotSize) :
    ∃ mmap, inner.writeSlot slot key value = some (.ok { inner with mmap }) ∧
      Sound slots { inner with mmap } ∧ ∀ other, Inner.fetch { inner with mmap } other =
        if other = key then some (some value) else inner.fetch other := by
  obtain ⟨mmap, hwrite, hsound⟩ := h.replace hkey henc hfits
  obtain ⟨mmap', hwrite', -, hread, hothers⟩ :=
    Inner.exists_written h.length (h.partition.lt hkey) henc hfits
  obtain rfl : mmap = mmap' := by
    rw [hwrite] at hwrite'
    injections
  refine ⟨mmap, hwrite, hsound, fun other => ?_⟩
  split
  · next heq =>
    subst heq
    have hkey' : Inner.index { inner with mmap } = inner.index := rfl
    exact fetch_of_read (by rw [hkey', hkey]) hread
  · next hne =>
    refine fetch_congr rfl fun slot' hother => hothers slot' fun heq => ?_
    exact hne (h.partition.one_key other key slot (heq ▸ hother) hkey)

/-- The entry takes the slot that was set aside. -/
theorem Claimed.entered (h : Claimed slots slot inner) (hkey : inner.index.lookup key = none)
    (henc : Encodable key value) (hfits : Inner.needed key value ≤ inner.slotSize) :
    ∃ after, inner.writeSlot slot key value = some (.ok { inner with mmap := after.mmap }) ∧
      after = { inner with
        mmap := after.mmap
        index := inner.index.insert key slot
        order := inner.order ++ [key] } ∧
      Sound slots after ∧ ∀ other, after.fetch other =
        if other = key then some (some value) else inner.fetch other := by
  have hslot : slot < slots := (h.partition.covered slot).2 (.inl List.mem_cons_self)
  obtain ⟨mmap, hwrite, hsound⟩ := h.enter hkey henc hfits
  obtain ⟨mmap', hwrite', -, hread, hothers⟩ := Inner.exists_written h.length hslot henc hfits
  obtain rfl : mmap = mmap' := by
    rw [hwrite] at hwrite'
    injections
  refine ⟨_, hwrite, rfl, hsound, fun other => ?_⟩
  split
  · next heq =>
    subst heq
    exact fetch_of_read (AList.lookup_insert _) hread
  · next hne =>
    refine fetch_congr (AList.lookup_insert_ne hne) fun slot' hother => hothers slot' fun heq => ?_
    subst heq
    exact h.partition.apart other slot' hother List.mem_cons_self

/-- A new entry goes to the end of the queue, in the slot that is found for it. -/
theorem Sound.insert_claimed (h : Sound slots inner) (hslots : 0 < slots) {claimed : Inner}
    {displaced : Displaced String Bytes}
    (hclaim : inner.claim = some (.ok (slot, displaced), claimed))
    (hkey : inner.index.lookup key = none) (henc : Encodable key value)
    (hfits : Inner.needed key value ≤ inner.slotSize) :
    ∃ after, inner.insert key value = some (.ok displaced, after) ∧ Sound slots after ∧
      after.slotSize = inner.slotSize ∧ after.order = claimed.order ++ [key] ∧
      ∀ other, after.fetch other =
        if other = key then some (some value) else claimed.fetch other := by
  obtain ⟨slot', displaced', claimed', hclaim', hclaimed, hsize, hnone, -⟩ := h.claim hslots
  rw [hclaim] at hclaim'
  cases hclaim'
  obtain ⟨after, hwrite, hafter, hsound, hfetch⟩ :=
    hclaimed.entered (hnone key hkey) henc (hsize ▸ hfits)
  refine ⟨after, ?_, hsound, ?_, ?_, hfetch⟩
  · rw [Inner.insert, Inner.fits_iff.2 hfits, hkey]
    simp only [hclaim, Option.bind_eq_bind, Option.bind_some, hwrite]
    rw [hafter]
    rfl
  · rw [hafter]
    exact hsize
  · rw [hafter]

/-- It takes a free slot while there is one. -/
theorem Sound.insert_free (h : Sound slots inner) {free : List Nat}
    (hfree : inner.free = slot :: free) (hkey : inner.index.lookup key = none)
    (henc : Encodable key value) (hfits : Inner.needed key value ≤ inner.slotSize) :
    ∃ after, inner.insert key value = some (.ok [], after) ∧ Sound slots after ∧
      after.slotSize = inner.slotSize ∧ after.order = inner.order ++ [key] ∧
      ∀ other, after.fetch other =
        if other = key then some (some value) else inner.fetch other := by
  have hclaim : inner.claim = some (.ok (slot, []), { inner with free }) := by
    rw [Inner.claim, hfree]
    rfl
  have hslot : slot < slots := (h.partition.covered slot).2 (.inl (hfree ▸ List.mem_cons_self))
  obtain ⟨after, hinsert, hsound, hsize, hqueue, hfetch⟩ :=
    h.insert_claimed (Nat.zero_lt_of_lt hslot) hclaim hkey henc hfits
  exact ⟨after, hinsert, hsound, hsize, hqueue, hfetch⟩

/-- It takes the slot of the oldest entry when there is none. -/
theorem Sound.insert_full (h : Sound slots inner) (hfree : inner.free = []) {oldest : String}
    {order : List String} (horder : inner.order = oldest :: order)
    (hkey : inner.index.lookup key = none) (henc : Encodable key value)
    (hfits : Inner.needed key value ≤ inner.slotSize) :
    ∃ gone after, inner.fetch oldest = some (some gone) ∧
      inner.insert key value = some (.ok [(oldest, gone)], after) ∧ Sound slots after ∧
      after.slotSize = inner.slotSize ∧ after.order = order ++ [key] ∧
      ∀ other, after.fetch other = if other = key then some (some value)
        else if other = oldest then some none else inner.fetch other := by
  obtain ⟨slot, hslot⟩ := (h.partition.mem_order oldest).1 (by simp [horder])
  obtain ⟨gone, hread, hgone⟩ := h.fetch hslot
  have hclaim : inner.claim = some (.ok (slot, [(oldest, gone)]),
      { inner with order, index := inner.index.erase oldest }) := by
    rw [Inner.claim, hfree, horder]
    simp only [hslot, hread]
    rfl
  obtain ⟨after, hinsert, hsound, hsize, hqueue, hfetch⟩ :=
    h.insert_claimed (Nat.zero_lt_of_lt (h.partition.lt hslot)) hclaim hkey henc hfits
  refine ⟨gone, after, hgone, hinsert, hsound, hsize, hqueue, fun other => ?_⟩
  rw [hfetch other]
  split
  · rfl
  · split
    · next heq =>
      subst heq
      exact fetch_of_none (AList.lookup_erase _ _)
    · next hne => exact fetch_congr (AList.lookup_erase_ne hne) fun _ _ => rfl

theorem Sound.removed (h : Sound slots inner) (hkey : inner.index.lookup key = some slot) :
    ∃ after, inner.remove key = some (true, after) ∧ Sound slots after ∧
      after.slotSize = inner.slotSize ∧ after.order = inner.order.filter (· ≠ key) ∧
      ∀ other, after.fetch other = if other = key then some none else inner.fetch other := by
  obtain ⟨existed, after, hremove, hsound, hsize⟩ := h.remove key
  have hroomy := h.roomy
  rw [header] at hroomy
  rw [Inner.remove, hkey] at hremove
  obtain ⟨mmap, hmmap, hremove⟩ := Option.bind_eq_some_iff.1 hremove
  cases hremove
  refine ⟨_, ?_, hsound, hsize, rfl, fun other => ?_⟩
  · rw [Inner.remove, hkey]
    simp only [hmmap]
    rfl
  · split
    · next heq =>
      subst heq
      exact fetch_of_none (AList.lookup_erase _ _)
    · next hne =>
      refine fetch_congr (AList.lookup_erase_ne hne) fun slot' hother => ?_
      refine readSlot_other h.roomy (fun heq => ?_) hmmap ?_
      · exact hne (h.partition.one_key other key slot (heq ▸ hother) hkey)
      · rw [List.length_singleton]
        omega

/-! ## The list -/

/-- The tier serves the list, oldest first. Nothing on it has a price. -/
structure Lists (slots : Nat) (inner : Inner) (shelf : ItemShelf String Bytes) : Prop where
  sound : Sound slots inner
  order : inner.order = shelf.keys
  served : ∀ key, inner.fetch key = some ((shelf.find key).map Item.value)
  free : ∀ item ∈ shelf, item.price = 0

def unwrap {α : Type} : Except Infallible α → α
  | .ok a => a
  | .error e => e.elim

def Call.ordered : Call → OrderedCall String Bytes
  | .get key => .tier (.get key)
  | .getRef key => .getRef key
  | .exists key => .tier (.exists_ key)
  | .put key value => .tier (.put key value)
  | .delete key => .tier (.delete key)

def Call.reply : (c : Call) → c.ordered.Output → c.Output
  | .get _, found => found
  | .getRef _, found => found.join
  | .exists _, found => found
  | .put _ _, displaced => .ok displaced
  | .delete _, existed => existed

def Call.refusal (slotSize : Nat) : (c : Call) → Option c.Output
  | .put key value =>
    if Inner.needed key value > slotSize then
      some (.error (oversized (Inner.needed key value) slotSize))
    else none
  | _ => none

def Call.serve {T : Type}
    (perform : T → (c : OrderedCall String Bytes) → Except Infallible c.Output × T) (slotSize : Nat)
    (tier : T) (c : Call) : c.Output × T :=
  match c.refusal slotSize with
  | some answer => (answer, tier)
  | none =>
    let out := perform tier c.ordered
    (c.reply (unwrap out.1), out.2)

def Call.Stated (slotSize : Nat) : Call → Prop
  | .put key value => Inner.needed key value ≤ slotSize → Encodable key value
  | _ => True

instance (slotSize : Nat) (c : Call) : Decidable (c.Stated slotSize) := by
  cases c <;> unfold Call.Stated <;> infer_instance

def listOf (slots : ℕ+) (shelf : ItemShelf String Bytes) : OrderedTier String Bytes :=
  (MemoryTier.bounded slots).reference shelf

namespace Lists
variable {slots : ℕ+} {shelf : ItemShelf String Bytes}

theorem nodup (h : Lists slots inner shelf) : shelf.keys.Nodup :=
  h.order ▸ h.sound.partition.order_nodup

theorem count (h : Lists slots inner shelf) : shelf.length + inner.free.length = slots := by
  rw [← length_keys, ← h.order]
  exact h.sound.partition.count

theorem lookup_none (h : Lists slots inner shelf) :
    inner.index.lookup key = none ↔ shelf.find key = none := by
  rw [find_eq_none, ← h.order, h.sound.partition.mem_order key, Option.eq_none_iff_forall_ne_some]
  exact not_exists.symm

theorem lookup_isSome (h : Lists slots inner shelf) :
    (inner.index.lookup key).isSome = (shelf.find key).isSome := by
  rw [Bool.eq_iff_iff, Option.isSome_iff_ne_none, Option.isSome_iff_ne_none]
  exact not_congr h.lookup_none

theorem fits_listOf (shelf : ItemShelf String Bytes) :
    Ordered.fits (listOf slots []).limits shelf = decide (shelf.length ≤ slots) := by
  simp [Ordered.fits, listOf, MemoryTier.reference, MemoryTier.limits, MemoryTier.bounded,
    MemoryTier.unbounded]

/-- An entry that is already there keeps its place. -/
theorem replace (h : Lists slots inner shelf) {old : Item String Bytes}
    (hfind : shelf.find key = some old) (henc : Encodable key value)
    (hfits : Inner.needed key value ≤ inner.slotSize) :
    ∃ after shelf', inner.insert key value = some (.ok [], after) ∧
      Ordered.write (listOf slots shelf).limits .fifo shelf ⟨key, value, 0⟩ = ([], shelf') ∧
      Lists slots after shelf' ∧ after.slotSize = inner.slotSize := by
  obtain ⟨slot, hslot⟩ : ∃ slot, inner.index.lookup key = some slot := by
    rw [← Option.isSome_iff_exists, h.lookup_isSome, hfind]
    rfl
  obtain ⟨mmap, hwrite, hsound, hfetch⟩ := h.sound.overwritten hslot henc hfits
  have hplace : Ordered.place .fifo shelf ⟨key, value, 0⟩ = shelf.replace ⟨key, value, 0⟩ :=
    Ordered.place_fifo hfind
  have hlength : (shelf.replace ⟨key, value, 0⟩).length = shelf.length := by
    rw [← length_keys, keys_replace, length_keys]
  refine ⟨_, shelf.replace ⟨key, value, 0⟩, ?_, ?_, ⟨hsound, ?_, fun other => ?_, ?_⟩, rfl⟩
  · rw [Inner.insert, Inner.fits_iff.2 hfits, hslot]
    simp only [hwrite]
    rfl
  · have hle : Ordered.fits (listOf slots shelf).limits (shelf.replace ⟨key, value, 0⟩) = true := by
      have hcount := h.count
      exact (fits_listOf _).trans (decide_eq_true (by omega))
    rw [Ordered.write, hplace, shed_of_fits _ _ hle]
    rfl
  · rw [keys_replace]
    exact h.order
  · rw [hfetch other, find_replace]
    by_cases hother : other = key
    · subst hother
      simp [hfind]
    · simp [hother, h.served other]
  · intro item hitem
    obtain ⟨old, hold, rfl⟩ := List.mem_map.1 hitem
    split
    · rfl
    · exact h.free old hold

/-- A new entry fills a free slot, or rolls the oldest one over. -/
theorem append (h : Lists slots inner shelf) (hfind : shelf.find key = none)
    (henc : Encodable key value) (hfits : Inner.needed key value ≤ inner.slotSize) :
    ∃ displaced after shelf', inner.insert key value = some (.ok displaced, after) ∧
      Ordered.write (listOf slots shelf).limits .fifo shelf ⟨key, value, 0⟩ = (displaced, shelf') ∧
      Lists slots after shelf' ∧ after.slotSize = inner.slotSize := by
  have hkey := h.lookup_none.2 hfind
  have hcount := h.count
  have hnot : key ∉ shelf.keys := find_eq_none.1 hfind
  have hplace : Ordered.place .fifo shelf ⟨key, value, 0⟩ = shelf ++ [⟨key, value, 0⟩] := by
    rw [Ordered.place_toEnd (Or.inl hfind), toEnd, without_of_notMem hnot]
  have hserved (shelf : ItemShelf String Bytes) (other : String) :
      (find (shelf ++ [⟨key, value, 0⟩]) other).map Item.value =
        if other = key then ((shelf.find key).map Item.value).or (some value)
        else (shelf.find other).map Item.value := by
    rw [find_append, find_cons]
    by_cases hother : other = key
    · subst hother
      cases shelf.find other <;> simp
    · cases shelf.find other <;> simp [hother, Ne.symm hother, find]
  have hfree_append {shelf : ItemShelf String Bytes} (hshelf : ∀ item ∈ shelf, item.price = 0) :
      ∀ item ∈ shelf ++ [⟨key, value, 0⟩], item.price = 0 := by
    intro item hitem
    obtain hold | hnew := List.mem_append.1 hitem
    · exact hshelf item hold
    · rw [List.mem_singleton.1 hnew]
  cases hfree : inner.free with
  | cons slot free =>
    obtain ⟨after, hinsert, hsound, hsize, horder, hfetch⟩ :=
      h.sound.insert_free hfree hkey henc hfits
    rw [hfree, List.length_cons] at hcount
    refine ⟨[], after, shelf ++ [⟨key, value, 0⟩], hinsert, ?_,
      ⟨hsound, ?_, fun other => ?_, hfree_append h.free⟩, hsize⟩
    · have hle : Ordered.fits (listOf slots shelf).limits (shelf ++ [⟨key, value, 0⟩]) = true := by
        refine (fits_listOf _).trans (decide_eq_true ?_)
        rw [List.length_append, List.length_singleton]
        omega
      rw [Ordered.write, hplace, shed_of_fits _ _ hle]
      rfl
    · rw [horder, h.order, keys_append]
      rfl
    · rw [hfetch other, hserved, hfind, h.served other]
      split <;> rfl
  | nil =>
    rw [hfree, List.length_nil] at hcount
    cases shelf with
    | nil => exact absurd hcount (Nat.ne_of_lt slots.pos)
    | cons oldest rest =>
      obtain ⟨gone, after, hgone, hinsert, hsound, hsize, horder, hfetch⟩ :=
        h.sound.insert_full hfree h.order hkey henc hfits
      rw [h.served, find_cons, if_pos rfl] at hgone
      have hvalue : oldest.value = gone := by simpa using hgone
      rw [keys_cons, List.mem_cons, not_or] at hnot
      refine ⟨_, after, rest ++ [⟨key, value, 0⟩], hinsert, ?_,
        ⟨hsound, ?_, fun other => ?_, hfree_append fun item hitem => h.free item (by simp [hitem])⟩,
        hsize⟩
      · have hover : Ordered.fits (listOf slots (oldest :: rest)).limits
            (oldest :: (rest ++ [⟨key, value, 0⟩])) = false := by
          refine (fits_listOf _).trans (decide_eq_false ?_)
          rw [List.length_cons, List.length_append, List.length_singleton]
          rw [List.length_cons] at hcount
          omega
        have hle : Ordered.fits (listOf slots (oldest :: rest)).limits
            (rest ++ [⟨key, value, 0⟩]) = true := by
          refine (fits_listOf _).trans (decide_eq_true ?_)
          rw [List.length_append, List.length_singleton]
          rw [List.length_cons] at hcount
          omega
        rw [Ordered.write, hplace, List.cons_append, shed_first _ hover hle, ← hvalue]
        rfl
      · rw [horder, keys_append]
        rfl
      · have hnodup := h.nodup
        rw [keys_cons, List.nodup_cons] at hnodup
        rw [hfetch other, hserved, find_eq_none.2 hnot.2]
        by_cases hother : other = key
        · rw [if_pos hother, if_pos hother]
          rfl
        · rw [if_neg hother, if_neg hother, h.served other, find_cons]
          by_cases hold : other = oldest.key
          · rw [if_pos hold, hold, find_eq_none.2 hnodup.1]
            rfl
          · rw [if_neg hold, if_neg (Ne.symm hold)]

/-- One call is answered as the list answers it. -/
theorem perform (h : Lists slots inner shelf) {c : Call} (hc : c.Stated inner.slotSize) :
    ∃ after shelf', inner.perform c =
        some ((c.serve OrderedTier.perform inner.slotSize (listOf slots shelf)).1, after) ∧
      (c.serve OrderedTier.perform inner.slotSize (listOf slots shelf)).2 = listOf slots shelf' ∧
      Lists slots after shelf' ∧ after.slotSize = inner.slotSize := by
  cases c with
  | get key =>
    refine ⟨inner, shelf, ?_, rfl, h, rfl⟩
    rw [Inner.perform, h.served key]
    rfl
  | getRef key =>
    refine ⟨inner, shelf, ?_, rfl, h, rfl⟩
    rw [Inner.perform, h.sound.getRef_eq, h.served key]
    cases hfind : shelf.find key with
    | none => simp [Call.serve, Call.refusal, Call.reply, Call.ordered, unwrap,
        OrderedTier.perform, Ordered.read, listOf, MemoryTier.reference, hfind]
    | some item => simp [Call.serve, Call.refusal, Call.reply, Call.ordered, unwrap,
        OrderedTier.perform, Ordered.read, listOf, MemoryTier.reference, hfind]
  | «exists» key =>
    refine ⟨inner, shelf, ?_, rfl, h, rfl⟩
    rw [Inner.perform, h.lookup_isSome]
    rfl
  | put key value =>
    by_cases hfits : Inner.needed key value ≤ inner.slotSize
    · have hput : ∃ displaced after shelf', inner.insert key value = some (.ok displaced, after) ∧
          Ordered.write (listOf slots shelf).limits .fifo shelf ⟨key, value, 0⟩ =
            (displaced, shelf') ∧ Lists slots after shelf' ∧ after.slotSize = inner.slotSize := by
        cases hfind : shelf.find key with
        | none => exact h.append hfind (hc hfits) hfits
        | some old => exact ⟨[], h.replace hfind (hc hfits) hfits⟩
      obtain ⟨displaced, after, shelf', hinsert, hwrite, hafter, hsize⟩ := hput
      have hserve : Call.serve OrderedTier.perform inner.slotSize (listOf slots shelf)
          (.put key value) = (.ok displaced, listOf slots shelf') := by
        rw [Call.serve, Call.refusal, if_neg (Nat.not_lt.2 hfits)]
        change (Except.ok (Ordered.write (listOf slots shelf).limits .fifo shelf
          ⟨key, value, 0⟩).1, listOf slots (Ordered.write (listOf slots shelf).limits .fifo shelf
          ⟨key, value, 0⟩).2) = _
        rw [hwrite]
      refine ⟨after, shelf', ?_, ?_, hafter, hsize⟩
      · rw [Inner.perform, hinsert, hserve]
      · rw [hserve]
    · have hover : Inner.needed key value > inner.slotSize := Nat.lt_of_not_le hfits
      refine ⟨inner, shelf, ?_, ?_, h, rfl⟩
      · rw [Inner.perform, Inner.insert, Inner.fits, if_pos hover, Call.serve, Call.refusal,
          if_pos hover]
        rfl
      · rw [Call.serve, Call.refusal, if_pos hover]
  | delete key =>
    cases hkey : inner.index.lookup key with
    | none =>
      have hfind := h.lookup_none.1 hkey
      have hsame : shelf.without key = shelf := without_of_notMem (find_eq_none.1 hfind)
      refine ⟨inner, shelf, ?_, ?_, h, rfl⟩
      · rw [Inner.perform, Inner.remove, hkey]
        change some (false, inner) = some ((shelf.find key).isSome, inner)
        rw [hfind]
        rfl
      · exact congrArg (listOf slots) hsame
    | some slot =>
      obtain ⟨after, hremove, hsound, hsize, horder, hfetch⟩ := h.sound.removed hkey
      refine ⟨after, shelf.without key, ?_, ?_, ⟨hsound, ?_, fun other => ?_, ?_⟩, hsize⟩
      · have hsome : (inner.index.lookup key).isSome = (shelf.find key).isSome := h.lookup_isSome
        rw [hkey] at hsome
        rw [Inner.perform, hremove]
        change some (true, after) = some ((shelf.find key).isSome, after)
        rw [← hsome]
        rfl
      · rfl
      · rw [horder, h.order, keys_without]
      · rw [hfetch other, find_without]
        split
        · rfl
        · exact h.served other
      · exact fun item hitem => h.free item (List.mem_of_mem_filter hitem)

end Lists

/-! ## The memory tier -/

structure Rolls (slots : ℕ+) (tier : MemoryTier String Bytes) (shelf : ItemShelf String Bytes) :
    Prop where
  maxEntries : tier.maxEntries = some slots
  bytes : tier.bytes = none
  eviction : tier.eviction = .fifo
  shelved : tier.inner.Shelved shelf

namespace Rolls
variable {slots : ℕ+} {tier : MemoryTier String Bytes} {shelf : ItemShelf String Bytes}

theorem reference (h : Rolls slots tier shelf) : tier.reference = listOf slots := by
  obtain ⟨maxEntries, bytes, eviction, inner⟩ := tier
  obtain ⟨rfl, rfl, rfl, -⟩ := h
  rfl

theorem perform (h : Rolls slots tier shelf) (hprices : ∀ item ∈ shelf, item.price = 0)
    (hstamps : tier.inner.nextStamp.toNat + 1 < 2 ^ 64) (slotSize : Nat) (c : Call) :
    ∃ shelf', (c.serve MemoryTier.perform slotSize tier).1 =
        (c.serve OrderedTier.perform slotSize (listOf slots shelf)).1 ∧
      (c.serve OrderedTier.perform slotSize (listOf slots shelf)).2 = listOf slots shelf' ∧
      Rolls slots (c.serve MemoryTier.perform slotSize tier).2 shelf' ∧
      (c.serve MemoryTier.perform slotSize tier).2.inner.nextStamp.toNat ≤
        tier.inner.nextStamp.toNat + 1 := by
  rw [Call.serve, Call.serve]
  cases c.refusal slotSize with
  | some answer => exact ⟨shelf, rfl, rfl, h, Nat.le_succ _⟩
  | none =>
    have hmoves : c.ordered.moves ≤ 1 := by
      cases c <;> simp [Call.ordered, OrderedCall.moves]
    have hnow : tier.Stamped c.ordered := by
      unfold MemoryTier.Stamped
      omega
    have htotal : shelf.total = 0 := by
      refine List.sum_eq_zero fun price hprice => ?_
      obtain ⟨item, hitem, rfl⟩ := List.mem_map.1 hprice
      exact hprices item hitem
    have haffords : (tier.reference shelf).Affords c.ordered := by
      rw [h.reference]
      cases c with
      | put key value =>
        refine ⟨?_, trivial⟩
        change shelf.total + 0 ≤ usizeMax
        rw [htotal]
        exact Nat.zero_le _
      | get key => trivial
      | getRef key => trivial
      | «exists» key => trivial
      | delete key => trivial
    obtain ⟨shelf', hout, hnext, hshelved, hdrawn⟩ :=
      MemoryTier.perform_refines h.shelved hnow haffords
    have hsame : Rolls slots (tier.perform c.ordered).2 shelf' := by
      cases c <;> exact ⟨h.maxEntries, h.bytes, h.eviction, hshelved⟩
    rw [h.reference] at hout hnext
    rw [hsame.reference] at hnext
    refine ⟨shelf', ?_, hnext, hsame, by dsimp only; omega⟩
    dsimp only
    rw [hout]

end Rolls

/-! ## Histories -/

def Inner.answers : Inner → List Call → Checked (List ((c : Call) × c.Output))
  | _, [] => pure []
  | inner, c :: rest => do
    let out ← inner.perform c
    let more ← answers out.2 rest
    pure (⟨c, out.1⟩ :: more)

theorem answers_eq {slots : ℕ+} {shelf : ItemShelf String Bytes} {tier : MemoryTier String Bytes}
    (h : Lists slots inner shelf) (htier : Rolls slots tier shelf) {calls : List Call}
    (hstamps : tier.inner.nextStamp.toNat + calls.length < 2 ^ 64)
    (hcalls : ∀ c ∈ calls, c.Stated inner.slotSize) :
    inner.answers calls =
      some (Runs.log (Call.serve MemoryTier.perform inner.slotSize) tier calls) := by
  induction calls generalizing inner tier shelf with
  | nil => rfl
  | cons c calls ih =>
    rw [List.length_cons] at hstamps
    obtain ⟨after, shelf', hperform, hnext, hafter, hsize⟩ := h.perform (hcalls c (by simp))
    obtain ⟨shelf'', hout, hnext', htier', hdrawn⟩ :=
      htier.perform h.free (by omega) inner.slotSize c
    obtain rfl : shelf' = shelf'' := by
      rw [hnext] at hnext'
      exact congrArg OrderedTier.shelf hnext'
    have hrest := ih hafter htier' (by omega) fun c' hc' =>
      hsize ▸ hcalls c' (List.mem_cons_of_mem c hc')
    rw [hsize] at hrest
    rw [Inner.answers, hperform, Runs.log, hout]
    simp only [Option.bind_eq_bind, Option.bind_some, hrest]
    rfl

/-- From a new file on: whatever is put, read and deleted, a tier of slots answers what a memory
tier with as many entries does, evictions included, except that it refuses the entries that
do not fit in a slot. -/
theorem slots_roll_over (slots : ℕ+) (hsize : header < slotSize) (n : Nat) {calls : List Call}
    (hcalls : ∀ c ∈ calls, c.Stated slotSize) (hcount : calls.length < 2 ^ 64) :
    ((openFile (List.replicate n 0) slots slotSize).bind fun inner => inner.answers calls) =
      some (Runs.log (Call.serve MemoryTier.perform slotSize) (.bounded slots) calls) := by
  obtain ⟨inner, hopen, rfl, hsound, hempty⟩ := openFile_zeros hsize slots n
  have hnil : inner.order = [] := by
    refine List.eq_nil_iff_forall_not_mem.2 fun key hkey => ?_
    obtain ⟨slot, hslot⟩ := (hsound.partition.mem_order key).1 hkey
    rw [hempty key] at hslot
    cases hslot
  have hlists : Lists slots inner [] :=
    ⟨hsound, hnil, fun key => fetch_of_none (hempty key), fun _ hitem => by cases hitem⟩
  have hrolls : Rolls slots (.bounded slots) [] := ⟨rfl, rfl, rfl, Tierstore.Inner.shelved_new⟩
  have hzero : (MemoryTier.bounded slots : MemoryTier String Bytes).inner.nextStamp.toNat = 0 := rfl
  rw [hopen, Option.bind_some]
  exact answers_eq hlists hrolls (by rwa [hzero, Nat.zero_add]) hcalls

/-- Two slots: the third entry rolls the first one over, and a fourth is too long. -/
theorem slots_roll_over_two :
    ((openFile (List.replicate 0 0) 2 10).bind fun inner =>
        inner.answers [.put "a" [1], .put "b" [2], .put "a" [3], .put "c" [4], .put "d" [5, 6, 7],
          .get "a"]) =
      some [⟨.put "a" [1], .ok []⟩, ⟨.put "b" [2], .ok []⟩, ⟨.put "a" [3], .ok []⟩,
        ⟨.put "c" [4], .ok [("a", [3])]⟩, ⟨.put "d" [5, 6, 7], .error (oversized 11 10)⟩,
        ⟨.get "a", none⟩] :=
  slots_roll_over ⟨2, Nat.two_pos⟩ (by decide) 0 (by decide) (by decide)

end Tierstore.SlotMmap
