import Mathlib.Data.List.Induction
import Tierstore.Memory

/-! The in-memory side of the mmap disk tier: retained mappings, accounted sizes, and the
eviction queue of stamped tickets. -/
namespace Tierstore.Mmap
open Overlay

abbrev Bytes := List UInt8

structure Inner (K : Type) where
  maps : AList fun _ : K => Bytes
  sizes : AList fun _ : K => Nat
  order : List (K × UInt64)
  stamps : AList fun _ : K => UInt64
  total : Nat
  nextStamp : UInt64
  evictions : Nat
  evictedBytes : Nat

namespace Inner
variable {K : Type}

def new : Inner K :=
  { maps := ∅, sizes := ∅, order := [], stamps := ∅, total := 0, nextStamp := 0
    evictions := 0, evictedBytes := 0 }

variable [DecidableEq K]

/-- A ticket is live iff its stamp is the one recorded for its key. -/
def live (inner : Inner K) (ticket : K × UInt64) : Bool :=
  inner.stamps.lookup ticket.1 == some ticket.2

def rebuildTickets (inner : Inner K) : Inner K :=
  let live := (inner.order.filter inner.live).map Prod.fst
  let tickets := live.zipIdx.map fun entry => (entry.1, UInt64.ofNat entry.2 + 1)
  let stamps := tickets.foldl (fun stamps ticket => stamps.insert ticket.1 ticket.2) ∅
  { inner with order := tickets, stamps, nextStamp := UInt64.ofNat stamps.keys.length }

def freshStamp (inner : Inner K) : UInt64 × Inner K :=
  let next := inner.nextStamp + 1
  if next = 0 then
    let inner := { inner with nextStamp := next }.rebuildTickets
    let next := UInt64.ofNat inner.stamps.keys.length + 1
    (next, { inner with nextStamp := next })
  else (next, { inner with nextStamp := next })

def compactTickets (inner : Inner K) : Inner K :=
  if inner.order.length > max (min (inner.sizes.keys.length * 2) usizeMax) 16 then
    { inner with order := inner.order.filter inner.live }
  else inner

def insertTicket (inner : Inner K) (key : K) : Inner K :=
  let (stamp, inner) := inner.freshStamp
  { inner with
    stamps := inner.stamps.insert key stamp
    order := inner.order ++ [(key, stamp)] }.compactTickets

def touch (inner : Inner K) (key : K) : Inner K :=
  if key ∈ inner.sizes then inner.insertTicket key else inner

def removeAccounting (inner : Inner K) (key : K) : Option Nat × Inner K :=
  let inner := { inner with maps := inner.maps.erase key, stamps := inner.stamps.erase key }
  match inner.sizes.lookup key with
  | none => (none, inner)
  | some size =>
    (some size, { inner with sizes := inner.sizes.erase key, total := inner.total - size })

def popTickets : List (K × UInt64) → Inner K → Option K × Inner K
  | [], inner => (none, { inner with order := [] })
  | ticket :: rest, inner =>
    if inner.live ticket then (some ticket.1, { inner with order := rest })
    else popTickets rest inner

def popOldest (inner : Inner K) : Option K × Inner K := popTickets inner.order inner

/-! ## The lock sections -/

/-- The first lock section of `get`. -/
def probe (inner : Inner K) (eviction : Eviction) (key : K) : Option Bytes × Inner K :=
  let cached := inner.maps.lookup key
  (cached, if cached.isSome ∧ eviction = .lru then inner.touch key else inner)

/-- The second lock section of `get`. -/
def retain (inner : Inner K) (eviction : Eviction) (key : K) (bytes : Bytes) : Inner K :=
  if key ∈ inner.sizes then
    let inner := { inner with maps := inner.maps.insert key bytes }
    if eviction = .lru then inner.touch key else inner
  else inner

def replace (inner : Inner K) (key : K) (len : Nat) (mapped : Option Bytes) : Inner K :=
  { inner with
    maps := match mapped with
      | some bytes => inner.maps.insert key bytes
      | none => inner.maps
    sizes := inner.sizes.insert key len
    total := inner.total - (inner.sizes.lookup key).getD 0 }

/-- What the lock section of `put` does before it evicts. -/
def record (inner : Inner K) (eviction : Eviction) (key : K) (len : Nat)
    (mapped : Option Bytes) : Inner K :=
  let replaced := (inner.sizes.lookup key).isSome
  let inner := inner.replace key len mapped
  let inner := if !replaced ∨ eviction = .lru then inner.insertTicket key else inner
  { inner with total := saturatingAdd inner.total len }

def evict (inner : Inner K) (oldest : K) : Inner K :=
  let inner := { inner with maps := inner.maps.erase oldest }
  match inner.removeAccounting oldest with
  | (some size, inner) =>
    { inner with
      evictions := saturatingAdd inner.evictions 1
      evictedBytes := saturatingAdd inner.evictedBytes size }
  | (none, inner) => inner

/-- The lock section of `delete`. -/
def forget (inner : Inner K) (key : K) : Inner K := (inner.removeAccounting key).2.compactTickets

/-- What `clear` does to the tables; the stamps and the eviction counters go on. -/
def clear (inner : Inner K) : Inner K :=
  { inner with maps := ∅, sizes := ∅, order := [], stamps := ∅, total := 0 }

def victims (budget : Nat) : Nat → Inner K → List K
  | 0, _ => []
  | fuel + 1, inner =>
    if inner.total > budget then
      match inner.popOldest with
      | (none, _) => []
      | (some oldest, inner) => oldest :: victims budget fuel (inner.evict oldest)
    else []

def scanEntry (inner : Inner K) (entry : K × Nat) : Inner K :=
  { inner with
    total := saturatingAdd inner.total entry.2
    sizes := inner.sizes.insert entry.1 entry.2 }.insertTicket entry.1

def scan (found : List (K × Nat)) : Inner K := found.foldl scanEntry new

/-! ## What the sections change -/

@[simp] theorem freshStamp_maps (inner : Inner K) : inner.freshStamp.2.maps = inner.maps := by
  unfold freshStamp
  dsimp only
  split <;> rfl

@[simp] theorem freshStamp_sizes (inner : Inner K) : inner.freshStamp.2.sizes = inner.sizes := by
  unfold freshStamp
  dsimp only
  split <;> rfl

@[simp] theorem compactTickets_maps (inner : Inner K) :
    inner.compactTickets.maps = inner.maps := by
  unfold compactTickets
  split <;> rfl

@[simp] theorem compactTickets_sizes (inner : Inner K) :
    inner.compactTickets.sizes = inner.sizes := by
  unfold compactTickets
  split <;> rfl

@[simp] theorem compactTickets_stamps (inner : Inner K) :
    inner.compactTickets.stamps = inner.stamps := by
  unfold compactTickets
  split <;> rfl

@[simp] theorem insertTicket_maps (inner : Inner K) (key : K) :
    (inner.insertTicket key).maps = inner.maps := by simp [insertTicket]

@[simp] theorem insertTicket_sizes (inner : Inner K) (key : K) :
    (inner.insertTicket key).sizes = inner.sizes := by simp [insertTicket]

@[simp] theorem touch_maps (inner : Inner K) (key : K) :
    (inner.touch key).maps = inner.maps := by
  unfold touch
  split <;> simp

@[simp] theorem touch_sizes (inner : Inner K) (key : K) :
    (inner.touch key).sizes = inner.sizes := by
  unfold touch
  split <;> simp

def Tracked (inner : Inner K) : Prop := ∀ key ∈ inner.stamps, key ∈ inner.sizes

theorem mem_foldl_insert {tickets : List (K × UInt64)} {stamps : AList fun _ : K => UInt64}
    {key : K}
    (h : key ∈ tickets.foldl (fun stamps ticket => stamps.insert ticket.1 ticket.2) stamps) :
    key ∈ stamps ∨ key ∈ tickets.map Prod.fst := by
  induction tickets generalizing stamps with
  | nil => exact Or.inl h
  | cons ticket rest ih =>
    obtain hstamps | hrest := ih h
    · obtain rfl | hold := (AList.mem_insert _).1 hstamps
      · exact Or.inr (by simp)
      · exact Or.inl hold
    · exact Or.inr (List.mem_cons_of_mem _ hrest)

theorem rebuildTickets_stamps {inner : Inner K} {key : K}
    (h : key ∈ inner.rebuildTickets.stamps) : key ∈ inner.stamps := by
  obtain hempty | hmem := mem_foldl_insert h
  · exact absurd hempty (AList.notMem_empty key)
  · obtain ⟨ticket, hticket, rfl⟩ := List.mem_map.1 hmem
    obtain ⟨⟨x, index⟩, hentry, rfl⟩ := List.mem_map.1 hticket
    obtain ⟨live, hlive, rfl⟩ := List.mem_map.1 (List.fst_mem_of_mem_zipIdx hentry)
    have hstamp : inner.stamps.lookup live.1 = some live.2 := by
      simpa [Inner.live] using (List.mem_filter.1 hlive).2
    exact AList.lookup_isSome.1 (by simp [hstamp])

theorem freshStamp_stamps {inner : Inner K} {key : K} (h : key ∈ inner.freshStamp.2.stamps) :
    key ∈ inner.stamps := by
  unfold freshStamp at h
  dsimp only at h
  split at h
  · exact rebuildTickets_stamps h
  · exact h

theorem Tracked.insertTicket {inner : Inner K} (h : inner.Tracked) {key : K}
    (hkey : key ∈ inner.sizes) : (inner.insertTicket key).Tracked := by
  intro x hx
  rw [insertTicket_sizes]
  simp only [Inner.insertTicket, compactTickets_stamps] at hx
  obtain rfl | hold := (AList.mem_insert _).1 hx
  · exact hkey
  · exact h x (freshStamp_stamps hold)

theorem Tracked.touch {inner : Inner K} (h : inner.Tracked) (key : K) :
    (inner.touch key).Tracked := by
  unfold Inner.touch
  split
  · next hkey => exact h.insertTicket hkey
  · exact h

theorem removeAccounting_maps (inner : Inner K) (key : K) :
    (inner.removeAccounting key).2.maps = inner.maps.erase key := by
  unfold removeAccounting
  dsimp only
  split <;> rfl

theorem removeAccounting_stamps (inner : Inner K) (key : K) :
    (inner.removeAccounting key).2.stamps = inner.stamps.erase key := by
  unfold removeAccounting
  dsimp only
  split <;> rfl

theorem removeAccounting_sizes (inner : Inner K) (key x : K) :
    (inner.removeAccounting key).2.sizes.lookup x =
      if x = key then none else inner.sizes.lookup x := by
  unfold removeAccounting
  dsimp only
  split
  · next hnone =>
    by_cases hx : x = key
    · rw [if_pos hx, hx, hnone]
    · rw [if_neg hx]
  · by_cases hx : x = key
    · rw [if_pos hx, hx]
      exact AList.lookup_erase key inner.sizes
    · rw [if_neg hx]
      exact AList.lookup_erase_ne hx

theorem Tracked.removeAccounting {inner : Inner K} (h : inner.Tracked) (key : K) :
    (inner.removeAccounting key).2.Tracked := by
  intro x hx
  rw [removeAccounting_stamps] at hx
  obtain ⟨hne, hold⟩ := AList.mem_erase.1 hx
  rw [← AList.lookup_isSome, removeAccounting_sizes, if_neg hne]
  exact AList.lookup_isSome.2 (h x hold)

theorem Tracked.compactTickets {inner : Inner K} (h : inner.Tracked) :
    inner.compactTickets.Tracked := by
  intro x hx
  rw [compactTickets_stamps] at hx
  rw [compactTickets_sizes]
  exact h x hx

theorem popTickets_cases (tickets : List (K × UInt64)) (inner : Inner K) :
    (∃ order, popTickets tickets inner = (none, { inner with order })) ∨
      ∃ key order, key ∈ inner.stamps ∧
        popTickets tickets inner = (some key, { inner with order }) := by
  induction tickets with
  | nil => exact Or.inl ⟨[], rfl⟩
  | cons ticket rest ih =>
    rw [popTickets]
    split
    · next hlive =>
      refine Or.inr ⟨ticket.1, rest, ?_, rfl⟩
      have hstamp : inner.stamps.lookup ticket.1 = some ticket.2 := by simpa [live] using hlive
      exact AList.lookup_isSome.1 (by simp [hstamp])
    · exact ih

/-- The eviction loop takes an accounted key off the queue, or finds the queue empty. -/
theorem popOldest_cases {inner : Inner K} (h : inner.Tracked) :
    (∃ order, inner.popOldest = (none, { inner with order })) ∨
      ∃ key order, key ∈ inner.sizes ∧ inner.popOldest = (some key, { inner with order }) := by
  obtain hnone | ⟨key, order, hkey, heq⟩ := popTickets_cases inner.order inner
  · exact Or.inl hnone
  · exact Or.inr ⟨key, order, h key hkey, heq⟩

section Sections
variable (inner : Inner K) (eviction : Eviction) (key : K)

theorem probe_maps : (inner.probe eviction key).2.maps = inner.maps := by
  unfold probe
  dsimp only
  split <;> simp

theorem probe_sizes : (inner.probe eviction key).2.sizes = inner.sizes := by
  unfold probe
  dsimp only
  split <;> simp

theorem retain_sizes (bytes : Bytes) :
    (inner.retain eviction key bytes).sizes = inner.sizes := by
  unfold retain
  dsimp only
  split
  · split <;> simp
  · rfl

theorem retain_maps (bytes : Bytes) (x : K) :
    (inner.retain eviction key bytes).maps.lookup x =
      if x = key ∧ key ∈ inner.sizes then some bytes else inner.maps.lookup x := by
  have hmaps : (inner.retain eviction key bytes).maps =
      if key ∈ inner.sizes then inner.maps.insert key bytes else inner.maps := by
    unfold retain
    dsimp only
    split
    · split <;> simp
    · rfl
  rw [hmaps]
  by_cases hkey : key ∈ inner.sizes
  · by_cases hx : x = key
    · subst hx
      simp [hkey]
    · simp [hkey, hx]
  · simp [hkey]

theorem record_maps (len : Nat) (mapped : Option Bytes) (x : K) :
    (inner.record eviction key len mapped).maps.lookup x =
      if x = key then mapped.or (inner.maps.lookup x) else inner.maps.lookup x := by
  have hmaps : (inner.record eviction key len mapped).maps =
      (inner.replace key len mapped).maps := by
    unfold record
    dsimp only
    split <;> simp
  rw [hmaps]
  by_cases hx : x = key
  · subst hx
    cases mapped <;> simp [replace]
  · cases mapped <;> simp [replace, hx]

theorem record_sizes (len : Nat) (mapped : Option Bytes) :
    (inner.record eviction key len mapped).sizes = inner.sizes.insert key len := by
  unfold record
  dsimp only
  split <;> simp [replace]

theorem evict_maps (x : K) :
    (inner.evict key).maps.lookup x = if x = key then none else inner.maps.lookup x := by
  have hmaps : (inner.evict key).maps = (inner.maps.erase key).erase key := by
    rw [← removeAccounting_maps { inner with maps := inner.maps.erase key }]
    unfold evict
    dsimp only
    split <;> simp_all
  rw [hmaps]
  by_cases hx : x = key
  · subst hx
    simp
  · simp [hx, AList.lookup_erase_ne hx]

theorem evict_sizes (x : K) :
    (inner.evict key).sizes.lookup x = if x = key then none else inner.sizes.lookup x := by
  have hsizes : (inner.evict key).sizes =
      ({ inner with maps := inner.maps.erase key }.removeAccounting key).2.sizes := by
    unfold evict
    dsimp only
    split <;> simp_all
  rw [hsizes, removeAccounting_sizes]

theorem forget_maps (x : K) :
    (inner.forget key).maps.lookup x = if x = key then none else inner.maps.lookup x := by
  rw [forget, compactTickets_maps, removeAccounting_maps]
  by_cases hx : x = key
  · subst hx
    simp
  · simp [hx, AList.lookup_erase_ne hx]

theorem forget_sizes (x : K) :
    (inner.forget key).sizes.lookup x = if x = key then none else inner.sizes.lookup x := by
  rw [forget, compactTickets_sizes, removeAccounting_sizes]

variable {inner}

theorem Tracked.probe (h : inner.Tracked) : (inner.probe eviction key).2.Tracked := by
  unfold Inner.probe
  dsimp only
  split
  · exact h.touch key
  · exact h

theorem Tracked.retain (h : inner.Tracked) (bytes : Bytes) :
    (inner.retain eviction key bytes).Tracked := by
  unfold Inner.retain
  dsimp only
  have hmap : ({ inner with maps := inner.maps.insert key bytes } : Inner K).Tracked := h
  split
  · split
    · exact hmap.touch key
    · exact hmap
  · exact h

theorem Tracked.record (h : inner.Tracked) (len : Nat) (mapped : Option Bytes) :
    (inner.record eviction key len mapped).Tracked := by
  have hreplace : (inner.replace key len mapped).Tracked := fun x hx =>
    (AList.mem_insert _).2 (Or.inr (h x hx))
  have hticket : ((inner.replace key len mapped).insertTicket key).Tracked :=
    hreplace.insertTicket ((AList.mem_insert _).2 (Or.inl rfl))
  -- The total, which comes last, has no part in the invariant.
  intro x hx
  unfold Inner.record at hx ⊢
  dsimp only at hx ⊢
  split at hx
  · rw [if_pos ‹_›]
    exact hticket x hx
  · rw [if_neg ‹_›]
    exact hreplace x hx

theorem Tracked.evict (h : inner.Tracked) : (inner.evict key).Tracked := by
  have hmaps : ({ inner with maps := inner.maps.erase key } : Inner K).Tracked := h
  have hremove := hmaps.removeAccounting key
  unfold Inner.evict
  dsimp only
  split
  · next heq =>
    rw [heq] at hremove
    exact hremove
  · next heq =>
    rw [heq] at hremove
    exact hremove

theorem Tracked.forget (h : inner.Tracked) : (inner.forget key).Tracked :=
  (h.removeAccounting key).compactTickets

end Sections

theorem scan_concat (found : List (K × Nat)) (entry : K × Nat) :
    scan (found ++ [entry]) = (scan found).scanEntry entry := List.foldl_concat _ _ _ _

theorem scan_maps (found : List (K × Nat)) : (scan found).maps = ∅ := by
  induction found using List.reverseRecOn with
  | nil => rfl
  | append_singleton found entry ih => rw [scan_concat, scanEntry, insertTicket_maps, ih]

theorem scan_tracked (found : List (K × Nat)) : (scan found).Tracked := by
  induction found using List.reverseRecOn with
  | nil => exact fun key hkey => absurd hkey (AList.notMem_empty key)
  | append_singleton found entry ih =>
    rw [scan_concat, scanEntry]
    refine Tracked.insertTicket (fun key hkey => ?_) ((AList.mem_insert _).2 (Or.inl rfl))
    exact (AList.mem_insert _).2 (Or.inr (ih key hkey))

/-- A scan accounts for exactly the files it found. -/
theorem scan_sizes {found : List (K × Nat)} (h : (found.map Prod.fst).Nodup) (key : K)
    (len : Nat) : (scan found).sizes.lookup key = some len ↔ (key, len) ∈ found := by
  induction found using List.reverseRecOn with
  | nil => simp [scan, new]
  | append_singleton found entry ih =>
    rw [List.map_append, List.nodup_append] at h
    obtain ⟨hfound, -, hnew⟩ := h
    rw [scan_concat, scanEntry, insertTicket_sizes, List.mem_append, List.mem_singleton]
    by_cases hkey : key = entry.1
    · subst hkey
      have hnot : (entry.1, len) ∉ found := fun hmem =>
        hnew entry.1 (List.mem_map.2 ⟨_, hmem, rfl⟩) entry.1 (by simp) rfl
      simp [hnot, Prod.ext_iff, eq_comm]
    · rw [AList.lookup_insert_ne hkey, ih hfound]
      simp [Prod.ext_iff, hkey]

end Inner
end Tierstore.Mmap
