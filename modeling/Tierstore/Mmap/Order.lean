import Tierstore.Lib.Tickets
import Tierstore.Mmap.Index
import Tierstore.Ordered

/-! The index of the mmap tier against the ordered list: its tickets keep the order, also when
the stamps wrap and the live tickets are numbered afresh. -/
namespace Tierstore.Mmap
namespace Inner
variable {K : Type} [DecidableEq K]

def stampOf (inner : Inner K) : K → Option UInt64 := fun key => inner.stamps.lookup key

theorem live_eq (inner : Inner K) : inner.live = Tickets.live inner.stampOf := rfl

/-- The live tickets keep `keys` in order, and every stamp was issued. -/
structure Queued (inner : Inner K) (keys : List K) : Prop where
  tickets : Tickets.Orders inner.stampOf inner.order keys
  issued : ∀ ticket ∈ inner.order, ticket.2.toNat ≤ inner.nextStamp.toNat

/-! ## Renumbering -/

def numbered (keys : List K) : List (K × UInt64) :=
  keys.zipIdx.map fun entry => (entry.1, UInt64.ofNat entry.2 + 1)

omit [DecidableEq K] in
theorem map_fst_numbered (keys : List K) : (numbered keys).map Prod.fst = keys := by
  rw [numbered, List.map_map]
  exact List.zipIdx_map_fst 0 keys

omit [DecidableEq K] in
theorem stamp_of_numbered {keys : List K} (hroom : keys.length + 1 < 2 ^ 64)
    {ticket : K × UInt64} (h : ticket ∈ numbered keys) : ticket.2.toNat ≤ keys.length := by
  obtain ⟨entry, hentry, rfl⟩ := List.mem_map.1 h
  have hlt := List.snd_lt_of_mem_zipIdx hentry
  have hsmall : entry.2 < 2 ^ 64 := by omega
  rw [UInt64.toNat_add, UInt64.toNat_one, UInt64.toNat_ofNat', Nat.mod_eq_of_lt hsmall,
    Nat.mod_eq_of_lt (by omega)]
  omega

def stampAll (tickets : List (K × UInt64)) (stamps : AList fun _ : K => UInt64) :
    AList fun _ : K => UInt64 :=
  tickets.foldl (fun stamps ticket => stamps.insert ticket.1 ticket.2) stamps

theorem lookup_stampAll {tickets : List (K × UInt64)} (hnd : (tickets.map Prod.fst).Nodup)
    (stamps : AList fun _ : K => UInt64) :
    (∀ ticket ∈ tickets, (stampAll tickets stamps).lookup ticket.1 = some ticket.2) ∧
      ∀ key ∉ tickets.map Prod.fst, (stampAll tickets stamps).lookup key = stamps.lookup key := by
  induction tickets generalizing stamps with
  | nil => exact ⟨fun _ h => (by cases h), fun _ _ => rfl⟩
  | cons first rest ih =>
    obtain ⟨hnot, hrest⟩ := List.nodup_cons.1 hnd
    obtain ⟨hlive, hother⟩ := ih hrest (stamps.insert first.1 first.2)
    refine ⟨fun ticket hticket => ?_, fun key hkey => ?_⟩
    · obtain rfl | hlater := List.mem_cons.1 hticket
      · exact (hother _ hnot).trans (AList.lookup_insert _)
      · exact hlive ticket hlater
    · rw [List.map_cons, List.mem_cons, not_or] at hkey
      exact (hother key hkey.2).trans (AList.lookup_insert_ne hkey.1)

theorem orders_numbered {keys : List K} (hnd : keys.Nodup) :
    Tickets.Orders (fun key => (stampAll (numbered keys) ∅).lookup key) (numbered keys) keys ∧
      (stampAll (numbered keys) ∅).keys.length = keys.length := by
  have hfst := map_fst_numbered keys
  obtain ⟨hlive, hother⟩ := lookup_stampAll (hfst.symm ▸ hnd) ∅
  have hmem (key : K) : key ∈ keys ↔ ((stampAll (numbered keys) ∅).lookup key).isSome := by
    constructor
    · intro hkey
      rw [← hfst] at hkey
      obtain ⟨ticket, hticket, rfl⟩ := List.mem_map.1 hkey
      rw [hlive ticket hticket]
      rfl
    · intro hsome
      by_contra hkey
      rw [hother key (hfst.symm ▸ hkey), AList.lookup_empty] at hsome
      cases hsome
  refine ⟨⟨?_, hnd, hmem⟩, ?_⟩
  · have hall : (numbered keys).filter
        (Tickets.live fun key => (stampAll (numbered keys) ∅).lookup key) = numbered keys := by
      refine List.filter_eq_self.2 fun ticket hticket => ?_
      exact Tickets.live_iff.2 (hlive ticket hticket)
    rw [Tickets.keys, hall, hfst]
  · refine List.Perm.length_eq ((List.perm_ext_iff_of_nodup (AList.keys_nodup _) hnd).2
      fun key => ?_)
    rw [← AList.mem_keys, ← AList.lookup_isSome, hmem]

section Queued
variable {inner : Inner K} {keys : List K}

theorem rebuildTickets_eq (h : Tickets.Orders inner.stampOf inner.order keys) :
    inner.rebuildTickets =
      { inner with
        order := numbered keys
        stamps := stampAll (numbered keys) ∅
        nextStamp := UInt64.ofNat keys.length } := by
  have hkeys : (inner.order.filter inner.live).map Prod.fst = keys := h.keys
  rw [rebuildTickets, hkeys, ← (orders_numbered h.nodup).2]
  rfl

/-- A fresh stamp is on no ticket, and the order stands. -/
theorem Queued.freshStamp (h : inner.Queued keys) (hroom : keys.length + 1 < 2 ^ 64) :
    inner.freshStamp.2.Queued keys ∧ inner.freshStamp.1 = inner.freshStamp.2.nextStamp ∧
      ∀ key, (key, inner.freshStamp.1) ∉ inner.freshStamp.2.order := by
  by_cases hwrap : inner.nextStamp + 1 = 0
  · obtain ⟨horders, hlen⟩ := orders_numbered h.tickets.nodup
    have hnext : (UInt64.ofNat keys.length + 1).toNat = keys.length + 1 := by
      rw [UInt64.toNat_add, UInt64.toNat_one, UInt64.toNat_ofNat',
        Nat.mod_eq_of_lt (show keys.length < 2 ^ 64 by omega), Nat.mod_eq_of_lt hroom]
    have hzero : Tickets.Orders ({ inner with nextStamp := inner.nextStamp + 1 } : Inner K).stampOf
        inner.order keys := h.tickets
    have hfresh : inner.freshStamp = (UInt64.ofNat keys.length + 1,
        { inner with
          order := numbered keys
          stamps := stampAll (numbered keys) ∅
          nextStamp := UInt64.ofNat keys.length + 1 }) := by
      rw [Inner.freshStamp, if_pos hwrap, rebuildTickets_eq hzero]
      dsimp only
      rw [hlen]
    rw [hfresh]
    refine ⟨⟨horders, fun ticket hticket => ?_⟩, rfl, fun key hmem => ?_⟩
    · have hle := stamp_of_numbered hroom hticket
      change ticket.2.toNat ≤ (UInt64.ofNat keys.length + 1).toNat
      omega
    · have hle : (UInt64.ofNat keys.length + 1).toNat ≤ keys.length := stamp_of_numbered hroom hmem
      omega
  · have hnext : (inner.nextStamp + 1).toNat = inner.nextStamp.toNat + 1 := by
      have hlt := inner.nextStamp.toNat_lt
      have hne : (inner.nextStamp + 1).toNat ≠ 0 := fun h0 => hwrap (UInt64.toNat_inj.1 h0)
      rw [UInt64.toNat_add, UInt64.toNat_one] at hne ⊢
      omega
    have hfresh : inner.freshStamp =
        (inner.nextStamp + 1, { inner with nextStamp := inner.nextStamp + 1 }) := by
      simp [Inner.freshStamp, hwrap]
    rw [hfresh]
    refine ⟨⟨h.tickets, fun ticket hticket => ?_⟩, rfl, fun key hmem => ?_⟩
    · have hle := h.issued ticket hticket
      change ticket.2.toNat ≤ (inner.nextStamp + 1).toNat
      omega
    · have hle : (inner.nextStamp + 1).toNat ≤ inner.nextStamp.toNat := h.issued _ hmem
      omega

theorem Queued.compactTickets (h : inner.Queued keys) : inner.compactTickets.Queued keys := by
  unfold Inner.compactTickets
  split
  · rw [live_eq]
    refine ⟨h.tickets.compact, fun ticket hticket => ?_⟩
    exact h.issued ticket (List.mem_filter.1 hticket).1
  · exact h

theorem stampOf_insert {inner' : Inner K} {key : K} {stamp : UInt64}
    (h : inner'.stamps = inner.stamps.insert key stamp) :
    inner'.stampOf = Function.update inner.stampOf key (some stamp) := by
  funext x
  rw [stampOf, h]
  by_cases hx : x = key
  · subst hx
    simp
  · rw [AList.lookup_insert_ne hx, Function.update_of_ne hx, stampOf]

theorem stampOf_erase {inner' : Inner K} {key : K} (h : inner'.stamps = inner.stamps.erase key) :
    inner'.stampOf = Function.update inner.stampOf key none := by
  funext x
  rw [stampOf, h]
  by_cases hx : x = key
  · subst hx
    simp
  · rw [AList.lookup_erase_ne hx, Function.update_of_ne hx, stampOf]

/-- `insert_ticket`, up to its compaction. -/
def ticketed (inner : Inner K) (key : K) : Inner K :=
  { inner.freshStamp.2 with
    stamps := inner.freshStamp.2.stamps.insert key inner.freshStamp.1
    order := inner.freshStamp.2.order ++ [(key, inner.freshStamp.1)] }

/-- A new ticket puts the key at the end. -/
theorem Queued.ticketed (h : inner.Queued keys) (hroom : keys.length + 1 < 2 ^ 64) (key : K) :
    (inner.ticketed key).Queued ((keys.filter fun x => x ≠ key) ++ [key]) := by
  obtain ⟨hqueued, hstamp, hfresh⟩ := h.freshStamp hroom
  refine ⟨?_, fun ticket hticket => ?_⟩
  · rw [stampOf_insert rfl]
    exact hqueued.tickets.issue (hfresh key)
  · change ticket ∈ inner.freshStamp.2.order ++ [(key, inner.freshStamp.1)] at hticket
    change ticket.2.toNat ≤ inner.freshStamp.2.nextStamp.toNat
    obtain hold | hnew := List.mem_append.1 hticket
    · exact hqueued.issued ticket hold
    · rw [List.mem_singleton.1 hnew, hstamp]

theorem Queued.insertTicket (h : inner.Queued keys) (hroom : keys.length + 1 < 2 ^ 64) (key : K) :
    (inner.insertTicket key).Queued ((keys.filter fun x => x ≠ key) ++ [key]) :=
  (h.ticketed hroom key).compactTickets

theorem removeAccounting_queue (inner : Inner K) (key : K) :
    (inner.removeAccounting key).2.order = inner.order ∧
      (inner.removeAccounting key).2.nextStamp = inner.nextStamp := by
  unfold removeAccounting
  dsimp only
  split <;> exact ⟨rfl, rfl⟩

theorem Queued.removeAccounting (h : inner.Queued keys) (key : K) :
    (inner.removeAccounting key).2.Queued (keys.filter fun x => x ≠ key) := by
  obtain ⟨horder, hnext⟩ := inner.removeAccounting_queue key
  refine ⟨?_, ?_⟩
  · rw [stampOf_erase (inner.removeAccounting_stamps key), horder]
    exact h.tickets.forget key
  · rw [horder, hnext]
    exact h.issued

theorem evict_queue (inner : Inner K) (oldest : K) :
    (inner.evict oldest).order = inner.order ∧
      (inner.evict oldest).nextStamp = inner.nextStamp ∧
      (inner.evict oldest).stamps = inner.stamps.erase oldest := by
  obtain ⟨horder, hnext⟩ :=
    ({ inner with maps := inner.maps.erase oldest } : Inner K).removeAccounting_queue oldest
  have hstamps :=
    ({ inner with maps := inner.maps.erase oldest } : Inner K).removeAccounting_stamps oldest
  unfold evict
  dsimp only
  split <;> simp_all

/-- The oldest live ticket is that of the first key. -/
theorem popTickets_head {tickets : List (K × UInt64)} {first : K}
    (h : Tickets.Orders inner.stampOf tickets (first :: keys)) :
    ∃ stamp order, popTickets tickets inner = (some first, { inner with order }) ∧
      Tickets.Orders inner.stampOf ((first, stamp) :: order) (first :: keys) ∧
      ∀ ticket ∈ order, ticket ∈ tickets := by
  induction tickets with
  | nil => cases h.eq_nil
  | cons ticket rest ih =>
    cases hlive : Tickets.live inner.stampOf ticket with
    | true =>
      obtain ⟨_, hhead⟩ := h.head_live hlive
      cases hhead
      refine ⟨ticket.2, rest, ?_, h, fun t ht => List.mem_cons_of_mem ticket ht⟩
      rw [popTickets, live_eq, if_pos hlive]
    | false =>
      obtain ⟨stamp, order, hpop, horders, hsub⟩ := ih (h.pop_stale hlive)
      refine ⟨stamp, order, ?_, horders, fun t ht => List.mem_cons_of_mem ticket (hsub t ht)⟩
      rw [popTickets, live_eq, hlive, if_neg Bool.false_ne_true, hpop]

/-- The first key is taken off the queue; without its stamp the others are left in order. -/
theorem Queued.popFirst {first : K} (h : inner.Queued (first :: keys)) :
    ∃ order, inner.popOldest = (some first, { inner with order }) ∧
      ∀ inner' : Inner K, inner'.order = order → inner'.nextStamp = inner.nextStamp →
        inner'.stamps = inner.stamps.erase first → inner'.Queued keys := by
  obtain ⟨stamp, order, hpop, horders, hsub⟩ := popTickets_head h.tickets
  refine ⟨order, hpop, fun inner' horder hnext hstamps => ⟨?_, ?_⟩⟩
  · rw [horder, stampOf_erase hstamps]
    have hgone := horders.forget first
    have hstale : Tickets.live (Function.update inner.stampOf first none)
        (first, stamp) = false := by
      simp [Tickets.live]
    have hkeys : (first :: keys).filter (fun x => x ≠ first) = keys := by
      obtain ⟨hnot, -⟩ := List.nodup_cons.1 h.tickets.nodup
      rw [List.filter_cons_of_neg (by simp), List.filter_eq_self]
      intro x hx
      rw [decide_eq_true_iff]
      rintro rfl
      exact hnot hx
    rw [hkeys] at hgone
    exact hgone.pop_stale hstale
  · rw [horder, hnext]
    exact fun ticket hticket => h.issued ticket (hsub ticket hticket)

/-- Evicting the key that is taken off the queue leaves the others in order. -/
theorem Queued.popOldest {first : K} (h : inner.Queued (first :: keys)) :
    ∃ order, inner.popOldest = (some first, { inner with order }) ∧
      (({ inner with order } : Inner K).evict first).Queued keys := by
  obtain ⟨order, hpop, hleft⟩ := h.popFirst
  obtain ⟨horder, hnext, hstamps⟩ := ({ inner with order } : Inner K).evict_queue first
  exact ⟨order, hpop, hleft _ horder hnext hstamps⟩

/-- Without live tickets nothing is taken off, and the stale ones are dropped. -/
theorem popTickets_none {tickets : List (K × UInt64)}
    (h : Tickets.Orders inner.stampOf tickets []) :
    popTickets tickets inner = (none, { inner with order := [] }) := by
  induction tickets with
  | nil => rfl
  | cons ticket rest ih =>
    cases hlive : Tickets.live inner.stampOf ticket with
    | true =>
      obtain ⟨_, hhead⟩ := h.head_live hlive
      cases hhead
    | false =>
      rw [popTickets, live_eq, hlive, if_neg Bool.false_ne_true, ih (h.pop_stale hlive)]

end Queued

/-! ## The shelf -/

@[simp] theorem freshStamp_total (inner : Inner K) : inner.freshStamp.2.total = inner.total := by
  unfold freshStamp
  dsimp only
  split <;> rfl

@[simp] theorem compactTickets_total (inner : Inner K) :
    inner.compactTickets.total = inner.total := by
  unfold compactTickets
  split <;> rfl

@[simp] theorem insertTicket_total (inner : Inner K) (key : K) :
    (inner.insertTicket key).total = inner.total := by simp [insertTicket]

theorem removeAccounting_total (inner : Inner K) (key : K) :
    (inner.removeAccounting key).2.total =
      inner.total - (inner.sizes.lookup key).getD 0 := by
  unfold removeAccounting
  dsimp only
  cases inner.sizes.lookup key <;> rfl

theorem evict_total (inner : Inner K) (oldest : K) :
    (inner.evict oldest).total = inner.total - (inner.sizes.lookup oldest).getD 0 := by
  have htotal :=
    ({ inner with maps := inner.maps.erase oldest } : Inner K).removeAccounting_total oldest
  rw [← htotal]
  unfold evict
  dsimp only
  split <;> simp_all

open ItemShelf

/-- The index accounts for the items of the shelf, queues them in order, and retains only
mappings of their values. -/
structure Shelved (inner : Inner K) (shelf : ItemShelf K Bytes) : Prop where
  queue : inner.Queued shelf.keys
  sizes : ∀ key, inner.sizes.lookup key = (shelf.find key).map Item.price
  maps : ∀ key bytes, inner.maps.lookup key = some bytes →
    (shelf.find key).map Item.value = some bytes
  total : inner.total = shelf.total

section Shelved
variable {inner : Inner K} {shelf : ItemShelf K Bytes}

theorem Shelved.mem_sizes (h : inner.Shelved shelf) (key : K) :
    key ∈ inner.sizes ↔ (shelf.find key).isSome := by
  rw [← AList.lookup_isSome, h.sizes, Option.isSome_map]

theorem Shelved.touch (h : inner.Shelved shelf) (hroom : shelf.length + 1 < 2 ^ 64) {key : K}
    {item : Item K Bytes} (hfind : shelf.find key = some item) :
    (inner.touch key).Shelved (shelf.toEnd item) := by
  have hkey := key_of_find hfind
  subst hkey
  have hmem : item.key ∈ inner.sizes := by simp [h.mem_sizes, hfind]
  have hfound (x : K) : (shelf.toEnd item).find x = shelf.find x := by
    rw [find_toEnd]
    by_cases hx : x = item.key
    · rw [if_pos hx, hx, hfind]
    · rw [if_neg hx]
  have htotal := (without_of_find h.queue.tickets.nodup hfind).1
  rw [← length_keys] at hroom
  rw [Inner.touch, if_pos hmem]
  refine ⟨?_, fun x => ?_, fun x bytes hx => ?_, ?_⟩
  · rw [keys_toEnd]
    exact h.queue.insertTicket hroom item.key
  · rw [insertTicket_sizes, hfound, h.sizes]
  · rw [insertTicket_maps] at hx
    rw [hfound]
    exact h.maps x bytes hx
  · rw [insertTicket_total, h.total, ItemShelf.toEnd, total_append, total_cons, total_nil]
    omega

theorem Shelved.use (h : inner.Shelved shelf) (hroom : shelf.length + 1 < 2 ^ 64)
    (eviction : Eviction) (key : K) :
    (if eviction = .lru then inner.touch key else inner).Shelved
      (Ordered.use eviction shelf key) := by
  cases eviction with
  | fifo => exact h
  | lru =>
    rw [if_pos rfl]
    cases hfind : shelf.find key with
    | none =>
      have hnot : key ∉ inner.sizes := by simp [h.mem_sizes, hfind]
      rw [Inner.touch, if_neg hnot]
      simp only [Ordered.use, hfind]
      exact h
    | some item =>
      simp only [Ordered.use, hfind]
      exact h.touch hroom hfind

/-- A probe that finds a mapping is a use. -/
theorem Shelved.probe (h : inner.Shelved shelf) (hroom : shelf.length + 1 < 2 ^ 64)
    (eviction : Eviction) (key : K) :
    (inner.probe eviction key).2.Shelved
      (if (inner.maps.lookup key).isSome then Ordered.use eviction shelf key else shelf) := by
  have huse := h.use hroom eviction key
  cases hcached : inner.maps.lookup key with
  | none =>
    simp only [Inner.probe, hcached, Option.isSome_none, Bool.false_eq_true, false_and, if_false]
    exact h
  | some bytes =>
    simp only [Inner.probe, hcached, Option.isSome_some, true_and, if_true]
    exact huse

/-- A mapping of the file is retained, which is a use. -/
theorem Shelved.retain (h : inner.Shelved shelf) (hroom : shelf.length + 1 < 2 ^ 64)
    (eviction : Eviction) {key : K} {bytes : Bytes}
    (hvalue : (shelf.find key).map Item.value = some bytes) :
    (inner.retain eviction key bytes).Shelved (Ordered.use eviction shelf key) := by
  have hmem : key ∈ inner.sizes := by
    rw [h.mem_sizes, ← Option.isSome_map (f := Item.value), hvalue]
    rfl
  have hmapped : ({ inner with maps := inner.maps.insert key bytes } : Inner K).Shelved shelf := by
    refine ⟨⟨h.queue.tickets, h.queue.issued⟩, h.sizes, fun x found hx => ?_, h.total⟩
    by_cases hkey : x = key
    · subst hkey
      rw [AList.lookup_insert] at hx
      rw [hvalue, ← hx]
    · rw [AList.lookup_insert_ne hkey] at hx
      exact h.maps x found hx
  rw [Inner.retain, if_pos hmem]
  exact hmapped.use hroom eviction key

theorem Shelved.forget (h : inner.Shelved shelf) (key : K) :
    (inner.forget key).Shelved (shelf.without key) := by
  refine ⟨?_, fun x => ?_, fun x bytes hx => ?_, ?_⟩
  · rw [keys_without]
    exact (h.queue.removeAccounting key).compactTickets
  · rw [forget_sizes, find_without]
    by_cases hx : x = key
    · simp [hx]
    · simp [hx, h.sizes]
  · rw [forget_maps] at hx
    rw [find_without]
    by_cases hkey : x = key
    · simp [hkey] at hx
    · rw [if_neg hkey] at hx ⊢
      exact h.maps x bytes hx
  · rw [Inner.forget, compactTickets_total, removeAccounting_total, h.sizes, h.total]
    cases hfind : shelf.find key with
    | none =>
      rw [without_of_notMem (find_eq_none.1 hfind)]
      rfl
    | some item =>
      have htotal := (without_of_find h.queue.tickets.nodup hfind).1
      change shelf.total - item.price = _
      omega

/-- One turn of the eviction loop takes the first item off. -/
theorem Shelved.popOldest {item : Item K Bytes} (h : inner.Shelved (item :: shelf)) :
    ∃ order, inner.popOldest = (some item.key, { inner with order }) ∧
      (({ inner with order } : Inner K).evict item.key).Shelved shelf := by
  obtain ⟨order, hpop, hqueue⟩ := h.queue.popOldest
  obtain ⟨hnot, -⟩ := List.nodup_cons.1 h.queue.tickets.nodup
  have hnone : shelf.find item.key = none := find_eq_none.2 hnot
  refine ⟨order, hpop, hqueue, fun x => ?_, fun x bytes hx => ?_, ?_⟩
  · rw [evict_sizes]
    by_cases hx : x = item.key
    · rw [if_pos hx, hx, hnone]
      rfl
    · have hsize := h.sizes x
      rw [find_cons, if_neg (Ne.symm hx)] at hsize
      rw [if_neg hx]
      exact hsize
  · rw [evict_maps] at hx
    by_cases hkey : x = item.key
    · rw [if_pos hkey] at hx
      cases hx
    · rw [if_neg hkey] at hx
      have hvalue := h.maps x bytes hx
      rw [find_cons, if_neg (Ne.symm hkey)] at hvalue
      exact hvalue
  · have hsize := h.sizes item.key
    rw [find_cons, if_pos rfl] at hsize
    rw [evict_total]
    change inner.total - (inner.sizes.lookup item.key).getD 0 = _
    rw [hsize, h.total, total_cons]
    change item.price + shelf.total - item.price = _
    omega

/-- The first half of a put's lock section places the item. -/
theorem Shelved.record (h : inner.Shelved shelf) (hroom : shelf.length + 1 < 2 ^ 64)
    (eviction : Eviction) (item : Item K Bytes)
    (hfits : (Ordered.place eviction shelf item).total ≤ usizeMax) :
    (inner.record eviction item.key item.price (some item.value)).Shelved
      (Ordered.place eviction shelf item) := by
  have htotal : inner.total - (inner.sizes.lookup item.key).getD 0 + item.price =
      (Ordered.place eviction shelf item).total := by
    have hplace := Ordered.total_place eviction h.queue.tickets.nodup item
    have hold : ((shelf.find item.key).map Item.price).getD 0 ≤ shelf.total := by
      cases hfind : shelf.find item.key with
      | none => exact Nat.zero_le _
      | some old =>
        have hwithout := (without_of_find h.queue.tickets.nodup hfind).1
        change old.price ≤ shelf.total
        omega
    rw [h.sizes, h.total]
    omega
  have hreplaced : (inner.replace item.key item.price (some item.value)).Queued shelf.keys :=
    ⟨h.queue.tickets, h.queue.issued⟩
  refine ⟨?_, fun x => ?_, fun x bytes hx => ?_, ?_⟩
  · have hqueue : (if !(inner.sizes.lookup item.key).isSome ∨ eviction = .lru then
          (inner.replace item.key item.price (some item.value)).insertTicket item.key
        else inner.replace item.key item.price (some item.value)).Queued
          (Ordered.place eviction shelf item).keys := by
      rw [h.sizes, Option.isSome_map]
      obtain ⟨old, hfind, rfl, hplace⟩ | ⟨hnew, hplace⟩ := Ordered.place_cases eviction shelf item
      · rw [hplace, keys_replace, hfind, if_neg (by simp)]
        exact hreplaced
      · rw [hplace, keys_toEnd, if_pos (by simpa using hnew)]
        exact hreplaced.insertTicket (by rwa [length_keys]) item.key
    exact ⟨hqueue.tickets, hqueue.issued⟩
  · rw [record_sizes, Ordered.find_place]
    by_cases hx : x = item.key
    · subst hx
      simp
    · rw [AList.lookup_insert_ne hx, if_neg hx, h.sizes]
  · rw [record_maps] at hx
    rw [Ordered.find_place]
    by_cases hkey : x = item.key
    · rw [if_pos hkey] at hx ⊢
      exact hx
    · rw [if_neg hkey] at hx ⊢
      exact h.maps x bytes hx
  · have hkept : (inner.record eviction item.key item.price (some item.value)).total =
        saturatingAdd (inner.total - (inner.sizes.lookup item.key).getD 0) item.price := by
      unfold Inner.record
      dsimp only
      split <;> simp [replace]
    rw [hkept, saturatingAdd, htotal, Nat.min_eq_left hfits]

end Shelved

def foundShelf (files : K → Bytes) (found : List (K × Nat)) : ItemShelf K Bytes :=
  found.map fun entry => { key := entry.1, value := files entry.1, price := entry.2 }

omit [DecidableEq K] in
theorem keys_foundShelf (files : K → Bytes) (found : List (K × Nat)) :
    (foundShelf files found).keys = found.map Prod.fst := by
  simp [foundShelf, ItemShelf.keys, Function.comp_def]

/-- Opening puts the entries on the shelf as they were found. -/
theorem shelved_scan (files : K → Bytes) {found : List (K × Nat)}
    (hnd : (found.map Prod.fst).Nodup) (hroom : found.length < 2 ^ 64)
    (hfits : (found.map Prod.snd).sum ≤ usizeMax) :
    (scan found).Shelved (foundShelf files found) := by
  induction found using List.reverseRecOn with
  | nil =>
    have hempty : Tickets.Orders (new : Inner K).stampOf [] [] := .empty _ fun _ => rfl
    refine ⟨⟨hempty, fun _ h => (by cases h)⟩, fun _ => rfl, fun _ _ h => ?_, rfl⟩
    cases h
  | append_singleton found entry ih =>
    rw [List.map_append, List.nodup_append] at hnd
    obtain ⟨hnd, -, hnew⟩ := hnd
    rw [List.length_append, List.length_singleton] at hroom
    rw [List.map_append, List.sum_append, List.map_singleton, List.sum_singleton] at hfits
    have hshelved := ih hnd (by omega) (by omega)
    have hnot : entry.1 ∉ (foundShelf files found).keys := by
      rw [keys_foundShelf]
      exact fun hmem => hnew _ hmem _ (by simp) rfl
    have hend : foundShelf files (found ++ [entry]) = (foundShelf files found).toEnd
        { key := entry.1, value := files entry.1, price := entry.2 } := by
      rw [ItemShelf.toEnd, without_of_notMem hnot]
      simp [foundShelf]
    rw [scan_concat, scanEntry, hend]
    refine ⟨?_, fun x => ?_, fun x bytes hx => ?_, ?_⟩
    · rw [keys_toEnd]
      have hqueued : ({ scan found with
          total := saturatingAdd (scan found).total entry.2
          sizes := (scan found).sizes.insert entry.1 entry.2 } : Inner K).Queued
            (foundShelf files found).keys :=
        ⟨hshelved.queue.tickets, hshelved.queue.issued⟩
      exact hqueued.insertTicket (by rwa [keys_foundShelf, List.length_map]) entry.1
    · rw [insertTicket_sizes, find_toEnd]
      by_cases hx : x = entry.1
      · subst hx
        simp
      · rw [AList.lookup_insert_ne hx, if_neg hx, hshelved.sizes]
    · rw [insertTicket_maps, scan_maps] at hx
      cases hx
    · have hsum : (foundShelf files found).total = (found.map Prod.snd).sum := by
        simp [foundShelf, ItemShelf.total, Function.comp_def]
      rw [insertTicket_total]
      change saturatingAdd (scan found).total entry.2 = _
      rw [hshelved.total, hsum, saturatingAdd, Nat.min_eq_left hfits, ItemShelf.toEnd,
        without_of_notMem hnot, total_append, hsum]
      rfl

end Inner
end Tierstore.Mmap
