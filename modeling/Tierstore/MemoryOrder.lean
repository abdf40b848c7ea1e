import Tierstore.Lib.Tickets
import Tierstore.Ordered

/-! The memory tier against the ordered list: the live tickets keep the order, and neither
stale tickets nor their compaction show. -/
namespace Tierstore
namespace Inner
open ItemShelf
variable {K V : Type} [DecidableEq K]

def stampOf (inner : Inner K V) : K → Option UInt64 :=
  fun key => (inner.map.lookup key).map Entry.stamp

theorem live_eq (inner : Inner K V) : inner.live = Tickets.live inner.stampOf := by
  funext ticket
  rw [live, Tickets.live, stampOf]
  cases inner.map.lookup ticket.1 <;> simp

/-- The map holds the items of the shelf, and the live tickets keep their order. -/
structure Shelved (inner : Inner K V) (shelf : ItemShelf K V) : Prop where
  tickets : Tickets.Orders inner.stampOf inner.order shelf.keys
  entries : ∀ key, (inner.map.lookup key).map (fun entry => (entry.value, entry.weight)) =
    (shelf.find key).map fun item => (item.value, item.price)
  total : inner.totalWeight = shelf.total
  issued : ∀ ticket ∈ inner.order, ticket.2.toNat ≤ inner.nextStamp.toNat
  bounded : shelf.length ≤ inner.nextStamp.toNat

theorem shelved_new : (new : Inner K V).Shelved [] := by
  have hnone (key : K) : (new : Inner K V).stampOf key = none := by simp [new, stampOf]
  refine ⟨.empty _ hnone, fun key => ?_, rfl, fun ticket hticket => ?_, Nat.zero_le _⟩
  · simp [new, find]
  · cases hticket

section Shelved
variable {inner : Inner K V} {shelf : ItemShelf K V}

theorem Shelved.values (h : inner.Shelved shelf) (key : K) :
    (inner.map.lookup key).map Entry.value = (shelf.find key).map Item.value := by
  have hentry := congrArg (Option.map Prod.fst) (h.entries key)
  simpa [Option.map_map, Function.comp_def] using hentry

theorem Shelved.isSome (h : inner.Shelved shelf) (key : K) :
    (inner.map.lookup key).isSome = (shelf.find key).isSome := by
  simpa using congrArg Option.isSome (h.values key)

theorem Shelved.lookup (h : inner.Shelved shelf) {key : K} {entry : Entry V}
    (hentry : inner.map.lookup key = some entry) :
    ∃ item, shelf.find key = some item ∧ item.value = entry.value ∧ item.price = entry.weight := by
  have hitem := h.entries key
  rw [hentry] at hitem
  cases hfind : shelf.find key with
  | none =>
    rw [hfind] at hitem
    cases hitem
  | some item =>
    rw [hfind, Option.map_some, Option.map_some, Option.some.injEq, Prod.mk.injEq] at hitem
    exact ⟨item, rfl, hitem.1.symm, hitem.2.symm⟩

theorem Shelved.len (h : inner.Shelved shelf) : inner.len = shelf.length := by
  have hmem (key : K) : key ∈ inner.map.keys ↔ key ∈ shelf.keys := by
    rw [← AList.mem_keys, ← AList.lookup_isSome, h.isSome, find_isSome]
  have hperm : inner.map.keys.Perm shelf.keys :=
    (List.perm_ext_iff_of_nodup inner.map.keys_nodup h.tickets.nodup).2 hmem
  rw [Inner.len, hperm.length_eq, length_keys]

theorem Shelved.isOver (h : inner.Shelved shelf) (limits : Limits) :
    inner.isOver limits = !Ordered.fits limits shelf := by
  obtain ⟨entries, bytes⟩ := limits
  rw [Inner.isOver, Ordered.fits, h.len, h.total]
  cases entries <;> cases bytes <;> simp [← decide_not]

/-! ## Tickets -/

theorem Shelved.fresh (h : inner.Shelved shelf) (hdraw : inner.nextStamp.toNat + 1 < 2 ^ 64) :
    (inner.nextStamp + 1).toNat = inner.nextStamp.toNat + 1 ∧
      ∀ key, (key, inner.nextStamp + 1) ∉ inner.order := by
  have hnext : (inner.nextStamp + 1).toNat = inner.nextStamp.toNat + 1 := by
    rw [UInt64.toNat_add, UInt64.toNat_one, Nat.mod_eq_of_lt hdraw]
  refine ⟨hnext, fun key hmem => ?_⟩
  have hle : (inner.nextStamp + 1).toNat ≤ inner.nextStamp.toNat := h.issued _ hmem
  omega

theorem stampOf_insert (inner : Inner K V) (key : K) (entry : Entry V) {inner' : Inner K V}
    (hmap : inner'.map = inner.map.insert key entry) :
    inner'.stampOf = Function.update inner.stampOf key (some entry.stamp) := by
  funext x
  rw [stampOf, hmap]
  by_cases hx : x = key
  · subst hx
    simp
  · rw [AList.lookup_insert_ne hx, Function.update_of_ne hx, stampOf]

theorem stampOf_erase (inner : Inner K V) (key : K) {inner' : Inner K V}
    (hmap : inner'.map = inner.map.erase key) :
    inner'.stampOf = Function.update inner.stampOf key none := by
  funext x
  rw [stampOf, hmap]
  by_cases hx : x = key
  · subst hx
    simp
  · rw [AList.lookup_erase_ne hx, Function.update_of_ne hx, stampOf]

/-- A fresh ticket puts the item at the end. -/
theorem Shelved.toEnd (h : inner.Shelved shelf) (hdraw : inner.nextStamp.toNat + 1 < 2 ^ 64)
    (item : Item K V) {total : Nat} (htotal : total = (shelf.toEnd item).total) :
    ({ inner with
        map := inner.map.insert item.key
          { value := item.value, weight := item.price, stamp := inner.nextStamp + 1 }
        order := inner.order ++ [(item.key, inner.nextStamp + 1)]
        totalWeight := total
        nextStamp := inner.nextStamp + 1 } : Inner K V).Shelved (shelf.toEnd item) := by
  obtain ⟨hnext, hfresh⟩ := h.fresh hdraw
  refine ⟨?_, fun x => ?_, htotal, fun ticket hticket => ?_, ?_⟩
  · rw [stampOf_insert inner item.key _ rfl, keys_toEnd]
    exact h.tickets.issue (hfresh item.key)
  · rw [find_toEnd]
    by_cases hx : x = item.key
    · subst hx
      simp
    · rw [AList.lookup_insert_ne hx, if_neg hx]
      exact h.entries x
  · rw [hnext]
    obtain hold | hnew := List.mem_append.1 hticket
    · exact Nat.le_succ_of_le (h.issued ticket hold)
    · rw [List.mem_singleton.1 hnew, hnext]
  · have hlen : (shelf.toEnd item).length ≤ shelf.length + 1 := by
      rw [ItemShelf.toEnd, List.length_append, List.length_singleton]
      exact Nat.succ_le_succ (List.length_filter_le _ _)
    rw [hnext]
    exact hlen.trans (Nat.succ_le_succ h.bounded)

/-- An entry changed under its old ticket keeps its place. -/
theorem Shelved.replace (h : inner.Shelved shelf) (hdraw : inner.nextStamp.toNat + 1 < 2 ^ 64)
    (item : Item K V) {entry : Entry V} (hentry : inner.map.lookup item.key = some entry)
    {total : Nat} (htotal : total = (shelf.replace item).total) :
    ({ inner with
        map := inner.map.insert item.key
          { value := item.value, weight := item.price, stamp := entry.stamp }
        totalWeight := total
        nextStamp := inner.nextStamp + 1 } : Inner K V).Shelved (shelf.replace item) := by
  obtain ⟨hnext, -⟩ := h.fresh hdraw
  refine ⟨?_, fun x => ?_, htotal, fun ticket hticket => ?_, ?_⟩
  · rw [stampOf_insert inner item.key _ rfl, keys_replace]
    have hsame : Function.update inner.stampOf item.key (some entry.stamp) = inner.stampOf := by
      rw [Function.update_eq_self_iff, stampOf, hentry]
      rfl
    rw [hsame]
    exact h.tickets
  · obtain ⟨old, hfind, -⟩ := h.lookup hentry
    rw [find_replace]
    by_cases hx : x = item.key
    · subst hx
      simp [hfind]
    · rw [AList.lookup_insert_ne hx, if_neg fun hboth => hx hboth.1]
      exact h.entries x
  · rw [hnext]
    exact Nat.le_succ_of_le (h.issued ticket hticket)
  · rw [hnext, ItemShelf.replace, List.length_map]
    exact Nat.le_succ_of_le h.bounded

/-- Without its entry a key leaves the shelf; its ticket goes stale. -/
theorem Shelved.take (h : inner.Shelved shelf) {key : K} {entry : Entry V}
    (hentry : inner.map.lookup key = some entry) :
    (inner.take key entry).Shelved (shelf.without key) := by
  obtain ⟨item, hfind, -, hprice⟩ := h.lookup hentry
  obtain ⟨htotal, hlen⟩ := without_of_find h.tickets.nodup hfind
  refine ⟨?_, fun x => ?_, ?_, h.issued, ?_⟩
  · rw [stampOf_erase inner key rfl, keys_without]
    exact h.tickets.forget key
  · rw [Inner.take, find_without]
    by_cases hx : x = key
    · subst hx
      simp
    · rw [AList.lookup_erase_ne hx, if_neg hx]
      exact h.entries x
  · change inner.totalWeight - entry.weight = _
    rw [h.total, ← hprice]
    omega
  · exact le_trans (by omega) h.bounded

theorem Shelved.compact (h : inner.Shelved shelf) : inner.compact.Shelved shelf := by
  unfold Inner.compact
  split
  · rw [live_eq]
    refine ⟨h.tickets.compact, h.entries, h.total, fun ticket hticket => ?_, h.bounded⟩
    exact h.issued ticket (List.mem_filter.1 hticket).1
  · exact h

/-! ## Eviction -/

theorem Shelved.skip {ticket : K × UInt64} {tickets : List (K × UInt64)}
    (h : ({ inner with order := ticket :: tickets } : Inner K V).Shelved shelf)
    (hstale : Tickets.live inner.stampOf ticket = false) :
    ({ inner with order := tickets } : Inner K V).Shelved shelf := by
  refine ⟨h.tickets.pop_stale hstale, h.entries, h.total, fun t ht => ?_, h.bounded⟩
  exact h.issued t (List.mem_cons_of_mem ticket ht)

theorem evictTickets_done {limits : Limits} (h : inner.isOver limits = false)
    (ticket : K × UInt64) (tickets : List (K × UInt64)) :
    evictTickets limits (ticket :: tickets) inner =
      ([], { inner with order := ticket :: tickets }) := by
  simp [evictTickets, h]

theorem evictTickets_stale {limits : Limits} (h : inner.isOver limits = true)
    {ticket : K × UInt64} (hstale : Tickets.live inner.stampOf ticket = false)
    (tickets : List (K × UInt64)) :
    evictTickets limits (ticket :: tickets) inner = evictTickets limits tickets inner := by
  rw [← live_eq, live] at hstale
  rw [evictTickets, h]
  cases hentry : inner.map.lookup ticket.1 with
  | none => rfl
  | some entry =>
    have hstamp : entry.stamp ≠ ticket.2 := by simpa [hentry] using hstale
    simp [hstamp]

theorem evictTickets_live {limits : Limits} (h : inner.isOver limits = true)
    {ticket : K × UInt64} {entry : Entry V} (hentry : inner.map.lookup ticket.1 = some entry)
    (hstamp : entry.stamp = ticket.2) (tickets : List (K × UInt64)) :
    evictTickets limits (ticket :: tickets) inner =
      let out := evictTickets limits tickets (inner.take ticket.1 entry)
      ((ticket.1, entry.value) :: out.1, out.2) := by
  simp [evictTickets, h, hentry, hstamp]

/-- One turn of the eviction loop: it stops, drops a stale ticket, or displaces the oldest
entry. -/
theorem evictTickets_cases (limits : Limits) (ticket : K × UInt64)
    (tickets : List (K × UInt64)) (inner : Inner K V) :
    (inner.isOver limits = false ∧ evictTickets limits (ticket :: tickets) inner =
        ([], { inner with order := ticket :: tickets })) ∨
      (inner.isOver limits = true ∧ Tickets.live inner.stampOf ticket = false ∧
        evictTickets limits (ticket :: tickets) inner = evictTickets limits tickets inner) ∨
      (inner.isOver limits = true ∧ Tickets.live inner.stampOf ticket = true ∧
        ∃ entry, inner.map.lookup ticket.1 = some entry ∧ entry.stamp = ticket.2 ∧
          evictTickets limits (ticket :: tickets) inner =
            let out := evictTickets limits tickets (inner.take ticket.1 entry)
            ((ticket.1, entry.value) :: out.1, out.2)) := by
  cases hover : inner.isOver limits with
  | false => exact Or.inl ⟨rfl, evictTickets_done hover ticket tickets⟩
  | true =>
    refine Or.inr ?_
    cases hlive : Tickets.live inner.stampOf ticket with
    | false => exact Or.inl ⟨rfl, rfl, evictTickets_stale hover hlive tickets⟩
    | true =>
      obtain ⟨entry, hentry, hstamp⟩ : ∃ entry, inner.map.lookup ticket.1 = some entry ∧
          entry.stamp = ticket.2 := Option.map_eq_some_iff.1 (Tickets.live_iff.1 hlive)
      exact Or.inr ⟨rfl, rfl, entry, hentry, hstamp,
        evictTickets_live hover hentry hstamp tickets⟩

/-- Eviction in ticket order displaces the shortest prefix that has to go. -/
theorem evictTickets_shed (limits : Limits) (tickets : List (K × UInt64))
    (h : ({ inner with order := tickets } : Inner K V).Shelved shelf) :
    (evictTickets limits tickets inner).1 =
        Ordered.displaced (shed (Ordered.fits limits) shelf).1 ∧
      (evictTickets limits tickets inner).2.Shelved (shed (Ordered.fits limits) shelf).2 ∧
      (evictTickets limits tickets inner).2.nextStamp = inner.nextStamp := by
  induction tickets generalizing inner shelf with
  | nil =>
    have hnil : shelf = [] := List.map_eq_nil_iff.1 h.tickets.eq_nil
    subst hnil
    exact ⟨rfl, h, rfl⟩
  | cons ticket tickets ih =>
    have hfits : inner.isOver limits = !Ordered.fits limits shelf := h.isOver limits
    obtain ⟨hover, hrun⟩ | ⟨hover, hlive, hrun⟩ | ⟨hover, hlive, entry, hentry, hstamp, hrun⟩ :=
      evictTickets_cases limits ticket tickets inner
    · rw [hover, eq_comm, Bool.not_eq_false'] at hfits
      have hshed : shed (Ordered.fits limits) shelf = ([], shelf) := by
        cases shelf with
        | nil => rfl
        | cons item rest => rw [shed, if_pos hfits]
      rw [hrun, hshed]
      exact ⟨rfl, h, rfl⟩
    · rw [hrun]
      exact ih (h.skip hlive)
    · rw [hover, eq_comm, Bool.not_eq_true'] at hfits
      obtain ⟨keys, hkeys⟩ := h.tickets.head_live hlive
      cases shelf with
      | nil => cases hkeys
      | cons item rest =>
        obtain ⟨hkey, -⟩ := List.cons.inj hkeys
        obtain ⟨found, hfound, hvalue, -⟩ := h.lookup hentry
        rw [find_cons, if_pos hkey] at hfound
        cases hfound
        have hnot : ticket.1 ∉ ItemShelf.keys rest := by
          rw [← hkey]
          exact (List.nodup_cons.1 h.tickets.nodup).1
        have htaken := h.take hentry
        rw [without_cons, if_pos hkey, without_of_notMem hnot] at htaken
        have hgone : Tickets.live (inner.take ticket.1 entry).stampOf ticket = false := by
          rw [stampOf_erase inner ticket.1 rfl]
          simp [Tickets.live]
        obtain ⟨hout, hshelved, hnext⟩ := ih (htaken.skip hgone)
        rw [hrun, shed, if_neg (by simp [hfits])]
        refine ⟨?_, hshelved, hnext⟩
        dsimp only
        rw [hout, ← hvalue, ← hkey]
        rfl

theorem Shelved.evictOver (h : inner.Shelved shelf) (limits : Limits) :
    (inner.evictOver limits).1 = Ordered.displaced (shed (Ordered.fits limits) shelf).1 ∧
      (inner.evictOver limits).2.Shelved (shed (Ordered.fits limits) shelf).2 ∧
      (inner.evictOver limits).2.nextStamp = inner.nextStamp :=
  evictTickets_shed limits inner.order h

/-! ## The calls -/

structure Matches {α : Type} (inner : Inner K V) (n : Nat) (out : α × Inner K V)
    (ref : α × ItemShelf K V) : Prop where
  answer : out.1 = ref.1
  shelved : out.2.Shelved ref.2
  drawn : out.2.nextStamp.toNat ≤ inner.nextStamp.toNat + n

@[simp] theorem compact_nextStamp (inner : Inner K V) :
    inner.compact.nextStamp = inner.nextStamp := by
  unfold Inner.compact
  split <;> rfl

theorem Shelved.place (h : inner.Shelved shelf) (hdraw : inner.nextStamp.toNat + 1 < 2 ^ 64)
    (eviction : Eviction) (item : Item K V) (hfits : shelf.total + item.price ≤ usizeMax) :
    (inner.place item.key item.value item.price eviction).Shelved
        (Ordered.place eviction shelf item) ∧
      (inner.place item.key item.value item.price eviction).nextStamp = inner.nextStamp + 1 := by
  have hadd : saturatingAdd inner.totalWeight item.price = shelf.total + item.price := by
    rw [saturatingAdd, h.total, Nat.min_eq_left hfits]
  have hend : (shelf.toEnd item).total = (shelf.without item.key).total + item.price := by
    simp [ItemShelf.toEnd]
  cases hentry : inner.map.lookup item.key with
  | none =>
    have hfind : shelf.find item.key = none := by
      have hsome := h.isSome item.key
      rw [hentry] at hsome
      exact Option.not_isSome_iff_eq_none.1 (by simp [← hsome])
    have htotal : shelf.total + item.price = (shelf.toEnd item).total := by
      rw [hend, without_of_notMem (find_eq_none.1 hfind)]
    have hplace : Ordered.place eviction shelf item = shelf.toEnd item := by
      simp only [Ordered.place, hfind]
    simp only [Inner.place, freshStamp, hentry, hadd, hplace]
    exact ⟨h.toEnd hdraw item htotal, trivial⟩
  | some entry =>
    obtain ⟨old, hfind, -, hprice⟩ := h.lookup hentry
    have hwithout := (without_of_find h.tickets.nodup hfind).1
    have hreplace := total_replace h.tickets.nodup hfind
    simp only [Inner.place, freshStamp, hentry, hadd, Ordered.place, hfind]
    cases eviction with
    | fifo => exact ⟨h.replace hdraw item hentry (by omega), rfl⟩
    | lru => exact ⟨h.toEnd hdraw item (by omega), rfl⟩

theorem Shelved.insert (h : inner.Shelved shelf) (hdraw : inner.nextStamp.toNat + 1 < 2 ^ 64)
    (limits : Limits) (eviction : Eviction) (item : Item K V)
    (hfits : shelf.total + item.price ≤ usizeMax) :
    inner.Matches 1 (inner.insert item.key item.value item.price limits eviction)
      (Ordered.write limits eviction shelf item) := by
  obtain ⟨hplace, hnext⟩ := h.place hdraw eviction item hfits
  obtain ⟨hout, hshelved, hkept⟩ := hplace.compact.evictOver limits
  refine ⟨hout, hshelved, ?_⟩
  rw [Inner.insert, hkept, compact_nextStamp, hnext, (h.fresh hdraw).1]

theorem Shelved.insertBatch (limits : Limits) (eviction : Eviction) (items : List (Item K V))
    (h : inner.Shelved shelf) (hdraw : inner.nextStamp.toNat + items.length < 2 ^ 64)
    (hfits : Ordered.Affords limits eviction shelf items) :
    inner.Matches items.length
      (Inner.insertBatch limits eviction inner (items.map fun i => (i.key, i.value, i.price)))
      (Ordered.writeBatch limits eviction shelf items) := by
  induction items generalizing inner shelf with
  | nil => exact ⟨rfl, h, Nat.le_refl _⟩
  | cons item rest ih =>
    rw [List.length_cons] at hdraw
    obtain ⟨hout, hshelved, hdrawn⟩ := h.insert (by omega) limits eviction item hfits.1
    obtain ⟨hmore, hend, hall⟩ := ih hshelved (by omega) hfits.2
    refine ⟨?_, hend, ?_⟩
    · rw [List.map_cons, Inner.insertBatch, Ordered.writeBatch]
      exact congrArg₂ _ hout hmore
    · rw [List.length_cons]
      exact hall.trans (by omega)

theorem Shelved.touch (h : inner.Shelved shelf) (hdraw : inner.nextStamp.toNat + 1 < 2 ^ 64)
    {key : K} {item : Item K V} (hfind : shelf.find key = some item) :
    (inner.touch key).Shelved (shelf.toEnd item) ∧
      (inner.touch key).nextStamp = inner.nextStamp + 1 := by
  obtain ⟨entry, hentry⟩ : ∃ entry, inner.map.lookup key = some entry := by
    rw [← Option.isSome_iff_exists, h.isSome, hfind]
    rfl
  obtain ⟨found, hfound, hvalue, hprice⟩ := h.lookup hentry
  rw [hfind] at hfound
  cases hfound
  have hkey := key_of_find hfind
  subst hkey
  have hwithout := (without_of_find h.tickets.nodup hfind).1
  have hend : inner.totalWeight = (shelf.toEnd item).total := by
    rw [h.total]
    simp [ItemShelf.toEnd, hwithout]
  have hshelved := h.toEnd hdraw item hend
  rw [hvalue, hprice] at hshelved
  simp only [Inner.touch, freshStamp, hentry]
  exact ⟨hshelved.compact, by simp⟩

theorem Shelved.fetch (h : inner.Shelved shelf) (hdraw : inner.nextStamp.toNat + 1 < 2 ^ 64)
    (eviction : Eviction) (key : K) :
    inner.Matches 1 (inner.fetch key eviction) (Ordered.read eviction shelf key) := by
  have hanswer : (inner.fetch key eviction).1 = (shelf.find key).map Item.value := by
    rw [fetch_value, Inner.values, h.values]
  have hmem : key ∈ inner.map ↔ (shelf.find key).isSome := by
    rw [← AList.lookup_isSome, h.isSome]
  suffices hboth : (inner.fetch key eviction).2.Shelved (Ordered.use eviction shelf key) ∧
      (inner.fetch key eviction).2.nextStamp.toNat ≤ inner.nextStamp.toNat + 1 from
    ⟨hanswer, hboth.1, hboth.2⟩
  rw [fetch_state]
  cases eviction with
  | fifo =>
    rw [if_neg (by simp)]
    exact ⟨h, Nat.le_add_right _ _⟩
  | lru =>
    cases hfind : shelf.find key with
    | none =>
      rw [if_neg (by simp [hmem, hfind])]
      simp only [Ordered.use, hfind]
      exact ⟨h, Nat.le_add_right _ _⟩
    | some item =>
      obtain ⟨hshelved, hnext⟩ := h.touch hdraw hfind
      rw [if_pos (by simp [hmem, hfind]), hnext, (h.fresh hdraw).1]
      simp only [Ordered.use, hfind]
      exact ⟨hshelved, Nat.le_refl _⟩

theorem Shelved.fetchBatch (eviction : Eviction) (keys : List K) (h : inner.Shelved shelf)
    (hdraw : inner.nextStamp.toNat + keys.length < 2 ^ 64) :
    inner.Matches keys.length (Inner.fetchBatch eviction inner keys)
      (Ordered.readBatch eviction shelf keys) := by
  induction keys generalizing inner shelf with
  | nil => exact ⟨rfl, h, Nat.le_refl _⟩
  | cons key rest ih =>
    rw [List.length_cons] at hdraw
    obtain ⟨hout, hshelved, hdrawn⟩ := h.fetch (by omega) eviction key
    obtain ⟨hmore, hend, hall⟩ := ih hshelved (by omega)
    refine ⟨?_, hend, ?_⟩
    · rw [Inner.fetchBatch, Ordered.readBatch]
      exact congrArg₂ _ hout hmore
    · rw [List.length_cons]
      exact hall.trans (by omega)

/-- A view is of the entry that a plain read returns, and it dereferences. -/
theorem getRef_eq (inner : Inner K V) (key : K) (eviction : Eviction) :
    inner.getRef key eviction =
      ((inner.fetch key eviction).1.map some, (inner.fetch key eviction).2) := by
  have hanswer := fetch_value inner key eviction
  by_cases hkey : key ∈ inner.map
  · have hstate : (inner.fetch key eviction).2 =
        if eviction = .lru then inner.touch key else inner := by simp [Inner.fetch, hkey]
    have hview : inner.getRef key eviction =
        (some (inner.fetch key eviction).1, (inner.fetch key eviction).2) := by
      rw [getRef, if_pos hkey, ← hstate]
      rfl
    obtain ⟨entry, hentry⟩ := Option.isSome_iff_exists.1 (AList.lookup_isSome.2 hkey)
    rw [hview, hanswer, Inner.values, hentry]
    rfl
  · have hnone : inner.map.lookup key = none := AList.lookup_eq_none.2 hkey
    have hstate : (inner.fetch key eviction).2 = inner := by simp [Inner.fetch, hkey]
    rw [getRef, if_neg hkey, hanswer, hstate, Inner.values, hnone]
    rfl

theorem Shelved.remove (h : inner.Shelved shelf) (key : K) :
    inner.Matches 0 (inner.remove key) (Ordered.remove shelf key) := by
  rw [Inner.remove, Ordered.remove]
  cases hentry : inner.map.lookup key with
  | none =>
    have hfind : shelf.find key = none := by
      have hsome := h.isSome key
      rw [hentry] at hsome
      exact Option.not_isSome_iff_eq_none.1 (by simp [← hsome])
    rw [hfind, without_of_notMem (find_eq_none.1 hfind)]
    exact ⟨rfl, h, Nat.le_refl _⟩
  | some entry =>
    obtain ⟨item, hfind, -⟩ := h.lookup hentry
    rw [hfind]
    exact ⟨rfl, h.take hentry, Nat.le_refl _⟩

theorem Shelved.removeBatch (keys : List K) (h : inner.Shelved shelf) :
    inner.Matches 0 (inner.removeBatch keys) (Ordered.removeBatch shelf keys) := by
  induction keys generalizing inner shelf with
  | nil => exact ⟨rfl, h, Nat.le_refl _⟩
  | cons key rest ih =>
    obtain ⟨hout, hshelved, hdrawn⟩ := h.remove key
    obtain ⟨hmore, hend, hall⟩ := ih hshelved
    refine ⟨?_, hend, hall.trans hdrawn⟩
    rw [Inner.removeBatch, Ordered.removeBatch]
    exact congrArg₂ _ hout hmore

theorem Shelved.page (h : inner.Shelved shelf) (cursor : Option Nat) (limit : Nat) :
    inner.page cursor limit = Ordered.page shelf cursor limit := by
  have hkeys : (inner.order.filter inner.live).map Prod.fst = shelf.keys := by
    rw [live_eq]
    exact h.tickets.keys
  have hlen : shelf.length ≤ usizeMax := by
    have hstamp := inner.nextStamp.toNat_lt
    have hbounded := h.bounded
    rw [usizeMax]
    omega
  simp only [Inner.page, Ordered.page, hkeys, length_keys]
  generalize cursor.getD 0 + ((shelf.keys.drop (cursor.getD 0)).take limit).length = next
  by_cases hnext : next ≤ usizeMax
  · rw [Nat.min_eq_left hnext]
  · have hmin : min next usizeMax = usizeMax := by omega
    rw [hmin, if_neg (by omega), if_neg (by omega)]

end Shelved
end Inner

namespace MemoryTier
variable {K V : Type} [DecidableEq K]

def perform (tier : MemoryTier K V) :
    (c : OrderedCall K V) → Except Infallible c.Output × MemoryTier K V
  | .tier call => Tier.call tier call
  | .getRef key =>
    let out := tier.inner.getRef key tier.eviction
    (.ok out.1, { tier with inner := out.2 })
  | .list cursor limit => (.ok (tier.inner.page cursor limit), tier)

def reference (tier : MemoryTier K V) (shelf : ItemShelf K V) : OrderedTier K V :=
  { limits := tier.limits, eviction := tier.eviction, weigh := tier.weightOf, shelf }

def Stamped (tier : MemoryTier K V) (c : OrderedCall K V) : Prop :=
  tier.inner.nextStamp.toNat + c.moves < 2 ^ 64

instance decideStamped (tier : MemoryTier K V) (c : OrderedCall K V) :
    Decidable (tier.Stamped c) := Nat.decLt _ _

/-- One call answers as the ordered list does, and keeps to it. -/
theorem perform_refines {tier : MemoryTier K V} {shelf : ItemShelf K V}
    (h : tier.inner.Shelved shelf) {c : OrderedCall K V} (hstamps : tier.Stamped c)
    (hfits : (tier.reference shelf).Affords c) :
    ∃ shelf', (tier.perform c).1 = ((tier.reference shelf).perform c).1 ∧
      ((tier.reference shelf).perform c).2 = (tier.perform c).2.reference shelf' ∧
      (tier.perform c).2.inner.Shelved shelf' ∧
      (tier.perform c).2.inner.nextStamp.toNat ≤ tier.inner.nextStamp.toNat + c.moves := by
  cases c with
  | tier call =>
    cases call with
    | get key =>
      obtain ⟨hout, hshelved, hdrawn⟩ := h.fetch hstamps tier.eviction key
      exact ⟨_, congrArg Except.ok hout, rfl, hshelved, hdrawn⟩
    | exists_ key =>
      have hmem : decide (key ∈ tier.inner.map) = (shelf.find key).isSome := by
        rw [← h.isSome, Bool.eq_iff_iff, decide_eq_true_iff, AList.lookup_isSome]
      exact ⟨_, congrArg Except.ok hmem, rfl, h, Nat.le_refl _⟩
    | getMany keys =>
      obtain ⟨hout, hshelved, hdrawn⟩ := h.fetchBatch tier.eviction keys hstamps
      exact ⟨_, congrArg Except.ok hout, rfl, hshelved, hdrawn⟩
    | put key value =>
      obtain ⟨hout, hshelved, hdrawn⟩ :=
        h.insert hstamps tier.limits tier.eviction
          ((tier.reference shelf).item (key, value)) hfits.1
      exact ⟨_, congrArg Except.ok hout, rfl, hshelved, hdrawn⟩
    | delete key =>
      obtain ⟨hout, hshelved, hdrawn⟩ := h.remove key
      exact ⟨_, congrArg Except.ok hout, rfl, hshelved, hdrawn⟩
    | putMany entries =>
      have hbatch := h.insertBatch tier.limits tier.eviction
        (entries.map (tier.reference shelf).item) (by rw [List.length_map]; exact hstamps) hfits
      rw [List.map_map, List.length_map] at hbatch
      obtain ⟨hout, hshelved, hdrawn⟩ := hbatch
      exact ⟨_, congrArg Except.ok hout, rfl, hshelved, hdrawn⟩
    | deleteMany keys =>
      obtain ⟨hout, hshelved, hdrawn⟩ := h.removeBatch keys
      exact ⟨_, congrArg Except.ok hout, rfl, hshelved, hdrawn⟩
  | getRef key =>
    obtain ⟨hout, hshelved, hdrawn⟩ := h.fetch hstamps tier.eviction key
    simp only [perform, Inner.getRef_eq]
    exact ⟨_, congrArg (fun found => Except.ok (found.map some)) hout, rfl, hshelved, hdrawn⟩
  | list cursor limit =>
    exact ⟨_, congrArg Except.ok (h.page cursor limit), rfl, h, Nat.le_refl _⟩

/-- A history whose calls have stamps left answers as the ordered list does. -/
theorem runs_refine {tier : MemoryTier K V} {shelf : ItemShelf K V} (h : tier.inner.Shelved shelf)
    {calls : List (OrderedCall K V)}
    (hstamps : tier.inner.nextStamp.toNat + (calls.map OrderedCall.moves).sum < 2 ^ 64)
    (hfits : Runs.Along OrderedTier.next OrderedTier.Affords (tier.reference shelf) calls) :
    ∃ shelf', Runs.log perform tier calls =
        Runs.log OrderedTier.perform (tier.reference shelf) calls ∧
      Runs.after OrderedTier.perform (tier.reference shelf) calls =
        (Runs.after perform tier calls).reference shelf' ∧
      (Runs.after perform tier calls).inner.Shelved shelf' := by
  induction calls generalizing tier shelf with
  | nil => exact ⟨shelf, rfl, rfl, h⟩
  | cons c calls ih =>
    rw [List.map_cons, List.sum_cons] at hstamps
    have hnow : tier.Stamped c := by
      unfold Stamped
      omega
    obtain ⟨shelf₁, hout, href, hshelved, hdrawn⟩ := perform_refines h hnow hfits.1
    have hlater := hfits.2
    rw [OrderedTier.next, href] at hlater
    obtain ⟨shelf', hlog, hafter, hend⟩ := ih hshelved (by omega) hlater
    refine ⟨shelf', ?_, ?_, hend⟩
    · rw [Runs.log, Runs.log, hout, href, hlog]
    · rw [Runs.after_cons, Runs.after_cons, href, hafter]

def empty (maxEntries : Option ℕ+) (bytes : Option (ByteBudget K V)) (eviction : Eviction) :
    MemoryTier K V := { maxEntries, bytes, eviction, inner := .new }

/-- Whatever the bounds and the ordering, the tier answers every history as the ordered list
does, as long as its stamps last and its prices add up. After it the tier holds what the list
holds, within the bounds; a put that ends it takes the shortest front that has to go and hands
exactly that back. -/
theorem memory_refines_list (maxEntries : Option ℕ+) (bytes : Option (ByteBudget K V))
    (eviction : Eviction) (calls : List (OrderedCall K V))
    (hcount : (calls.map OrderedCall.moves).sum < 2 ^ 64)
    (hfits : Runs.Along OrderedTier.next OrderedTier.Affords
      ((empty maxEntries bytes eviction).reference []) calls) :
    let tier := empty maxEntries bytes eviction
    let final := Runs.after perform tier calls
    let shelf := (Runs.after OrderedTier.perform (tier.reference []) calls).shelf
    Runs.log perform tier calls = Runs.log OrderedTier.perform (tier.reference []) calls ∧
      (∀ key, final.inner.values key = (shelf.find key).map Item.value) ∧
      final.len = shelf.length ∧ final.weight = shelf.total ∧ shelf.keys.Nodup ∧
      final.inner.isOver tier.limits = false ∧
      ∀ before key value, calls = before ++ [.tier (.put key value)] →
        let old := Runs.after OrderedTier.perform (tier.reference []) before
        ∃ gone, (Tier.put (Runs.after perform tier before) key value).1 =
            .ok (Ordered.displaced gone) ∧
          gone ++ shelf = Ordered.place eviction old.shelf (old.item (key, value)) ∧
          ∀ front back, gone ++ shelf = front ++ back → Ordered.fits tier.limits back = true →
            gone.length ≤ front.length := by
  intro tier final shelf
  have hnew : tier.inner.Shelved [] := Inner.shelved_new
  have hzero : tier.inner.nextStamp.toNat = 0 := rfl
  obtain ⟨shelf', hlog, hafter, hshelved⟩ := runs_refine hnew (by rwa [hzero, Nat.zero_add]) hfits
  have hshelf : shelf' = shelf := (congrArg OrderedTier.shelf hafter).symm
  rw [hshelf] at hshelved
  have hempty : Ordered.Neat (tier.reference []).limits ([] : ItemShelf K V) :=
    ⟨List.nodup_nil, Ordered.fits_nil _⟩
  have hneat : Ordered.Neat tier.limits shelf := (tier.reference []).after_neat hempty calls
  refine ⟨hlog, hshelved.values, hshelved.len, hshelved.total, hshelved.tickets.nodup, ?_, ?_⟩
  · rw [hshelved.isOver, hneat.fits]
    rfl
  · rintro before key value rfl old
    rw [List.map_append, List.sum_append] at hcount
    obtain ⟨hbefore, -⟩ := Runs.along_append.1 hfits
    obtain ⟨_, hfirst, -⟩ := runs_refine hnew (by omega) hbefore
    rw [Runs.log_append, Runs.log_append, hfirst] at hlog
    have hlast := List.append_cancel_left hlog
    simp only [Runs.log, List.cons.injEq, Sigma.mk.injEq, heq_eq_eq, true_and, and_true] at hlast
    have hold : old = { tier.reference [] with shelf := old.shelf } :=
      (tier.reference []).after_eq before
    have hlimits : old.limits = tier.limits := congrArg OrderedTier.limits hold
    have heviction : old.eviction = eviction := congrArg OrderedTier.eviction hold
    have hshelf : shelf = (old.perform (.tier (.put key value))).2.shelf :=
      congrArg OrderedTier.shelf (Runs.after_append _ _ before _)
    obtain ⟨gone, hgone, happend, hshortest⟩ := old.put_spec key value
    rw [← hshelf, heviction] at happend
    rw [← hshelf, hlimits] at hshortest
    exact ⟨gone, hlast.trans hgone, happend, hshortest⟩

end MemoryTier

/-! ## Histories -/

def reorderings : List (OrderedCall Nat Nat) :=
  [.tier (.put 1 10), .tier (.put 2 20), .getRef 1, .tier (.delete 2), .tier (.put 2 21),
    .tier (.getMany [1, 3]), .tier (.put 4 40)]

theorem memory_refines_list_reorderings :
    let tier := MemoryTier.empty (some 2) none .lru
    Runs.log MemoryTier.perform tier reorderings =
        Runs.log OrderedTier.perform (tier.reference []) reorderings ∧
      ((Runs.after MemoryTier.perform tier reorderings).inner.page none 2).keys = [1, 4] := by
  intro tier
  have h := MemoryTier.memory_refines_list (some 2) none .lru reorderings (by decide +kernel)
    (by decide +kernel)
  exact ⟨h.1, by decide +kernel⟩

namespace OrderWrap

def twoEntries : MemoryTier Nat Nat := .empty (some ⟨2, Nat.two_pos⟩) none .fifo

def behindStale (drawn : UInt64) : Inner Nat Nat :=
  { map := AList.insert 2 { value := 20, weight := 0, stamp := 2 } ∅
    order := [(1, 1), (2, 2)]
    totalWeight := 0
    nextStamp := drawn }

def refill (m : Nat) : OrderedCall Nat Nat := .tier (.putMany (List.replicate m (2, 20)))

theorem insertBatch_behindStale (m : Nat) (drawn : UInt64) :
    Inner.insertBatch twoEntries.limits .fifo (behindStale drawn) (List.replicate m (2, 20, 0)) =
      ([], behindStale (drawn + UInt64.ofNat m)) := by
  induction m generalizing drawn with
  | zero => simp [Inner.insertBatch]
  | succ m ih =>
    have hone : (behindStale drawn).insert 2 20 0 twoEntries.limits .fifo =
        ([], behindStale (drawn + 1)) := rfl
    have hsum : drawn + 1 + UInt64.ofNat m = drawn + UInt64.ofNat (m + 1) := by
      rw [UInt64.ofNat_add, UInt64.add_assoc, UInt64.add_comm 1]
      rfl
    rw [List.replicate_succ, Inner.insertBatch, hone, ← hsum]
    dsimp only
    rw [ih]
    rfl

theorem refill_behindStale (m : Nat) (drawn : UInt64) :
    { twoEntries with inner := behindStale drawn }.perform (refill m) =
      (.ok [], { twoEntries with inner := behindStale (drawn + UInt64.ofNat m) }) := by
  have hperform (inner : Inner Nat Nat) : { twoEntries with inner }.perform (refill m) =
      (.ok (Inner.insertBatch twoEntries.limits .fifo inner
          ((List.replicate m (2, 20)).map fun e => (e.1, e.2, 0))).1,
        { twoEntries with
          inner := (Inner.insertBatch twoEntries.limits .fifo inner
            ((List.replicate m (2, 20)).map fun e => (e.1, e.2, 0))).2 }) := rfl
  rw [hperform, List.map_replicate, insertBatch_behindStale]

def keyTwo : OrderedTier Nat Nat := twoEntries.reference [{ key := 2, value := 20, price := 0 }]

theorem writeBatch_keyTwo (m : Nat) :
    Ordered.writeBatch keyTwo.limits .fifo keyTwo.shelf
        (List.replicate m (keyTwo.item (2, 20))) = ([], keyTwo.shelf) ∧
      Ordered.Affords keyTwo.limits .fifo keyTwo.shelf
        (List.replicate m (keyTwo.item (2, 20))) := by
  induction m with
  | zero => exact ⟨rfl, trivial⟩
  | succ m ih =>
    have hone : Ordered.write keyTwo.limits .fifo keyTwo.shelf (keyTwo.item (2, 20)) =
        ([], keyTwo.shelf) := rfl
    rw [List.replicate_succ, Ordered.writeBatch, Ordered.Affords, hone]
    dsimp only
    rw [ih.1]
    exact ⟨rfl, by decide, ih.2⟩

theorem refill_keyTwo (m : Nat) :
    keyTwo.perform (refill m) = (.ok [], keyTwo) ∧ keyTwo.Affords (refill m) := by
  obtain ⟨hbatch, haffords⟩ := writeBatch_keyTwo m
  have hperform : keyTwo.perform (refill m) =
      (.ok (Ordered.writeBatch keyTwo.limits .fifo keyTwo.shelf
          ((List.replicate m (2, 20)).map keyTwo.item)).1,
        { keyTwo with
          shelf := (Ordered.writeBatch keyTwo.limits .fifo keyTwo.shelf
            ((List.replicate m (2, 20)).map keyTwo.item)).2 }) := rfl
  have hmeans : keyTwo.Affords (refill m) ↔ Ordered.Affords keyTwo.limits .fifo keyTwo.shelf
      ((List.replicate m (2, 20)).map keyTwo.item) := Iff.rfl
  rw [hmeans, hperform, List.map_replicate, hbatch]
  exact ⟨rfl, haffords⟩

def refills : List (OrderedCall Nat Nat) :=
  List.replicate (2 ^ 32 - 1) (refill (2 ^ 32)) ++ [refill (2 ^ 32 - 2)]

theorem length_refills : refills.length = 2 ^ 32 := by
  rw [refills, List.length_append, List.length_replicate, List.length_singleton,
    Nat.sub_add_cancel (by decide)]

theorem after_refills : Runs.after MemoryTier.perform { twoEntries with inner := behindStale 2 }
    refills = { twoEntries with inner := behindStale 0 } := by
  have hmany (m k : Nat) (drawn : UInt64) :
      Runs.after MemoryTier.perform { twoEntries with inner := behindStale drawn }
          (List.replicate k (refill m)) =
        { twoEntries with inner := behindStale (drawn + UInt64.ofNat (k * m)) } := by
    induction k generalizing drawn with
    | zero => simp [Runs.after]
    | succ k ih =>
      rw [List.replicate_succ, Runs.after_cons, refill_behindStale, ih, UInt64.add_assoc,
        ← UInt64.ofNat_add, Nat.succ_mul, Nat.add_comm m]
  have hround : 2 + UInt64.ofNat ((2 ^ 32 - 1) * 2 ^ 32) + UInt64.ofNat (2 ^ 32 - 2) = 0 := by
    decide
  rw [refills, Runs.after_append, hmany, Runs.after_cons, refill_behindStale]
  dsimp only
  rw [hround]
  exact List.foldl_nil

theorem along_refills : Runs.Along OrderedTier.next OrderedTier.Affords keyTwo refills ∧
    Runs.after OrderedTier.perform keyTwo refills = keyTwo := by
  have hmany (calls : List (OrderedCall Nat Nat)) (h : ∀ c ∈ calls, ∃ m, c = refill m) :
      Runs.Along OrderedTier.next OrderedTier.Affords keyTwo calls ∧
        Runs.after OrderedTier.perform keyTwo calls = keyTwo := by
    induction calls with
    | nil => exact ⟨trivial, rfl⟩
    | cons c calls ih =>
      obtain ⟨m, rfl⟩ := h c List.mem_cons_self
      obtain ⟨hrun, hfits⟩ := refill_keyTwo m
      have hrest := ih fun c hc => h c (List.mem_cons_of_mem _ hc)
      rw [Runs.Along, OrderedTier.next, Runs.after_cons, hrun]
      exact ⟨⟨hfits, hrest.1⟩, hrest.2⟩
  refine hmany refills fun c hc => ?_
  rw [refills, List.mem_append, List.mem_singleton] at hc
  obtain hc | hc := hc
  · exact ⟨_, List.eq_of_mem_replicate hc⟩
  · exact ⟨_, hc⟩

def around (mid : List (OrderedCall Nat Nat)) : List (OrderedCall Nat Nat) :=
  [.tier (.put 1 10), .tier (.delete 1), .tier (.put 2 20)] ++ mid ++
    [.tier (.put 1 11), .list none 3]

def listed : (c : OrderedCall Nat Nat) × Except Infallible c.Output → List Nat
  | ⟨.list _ _, .ok page⟩ => page.keys
  | _ => []

theorem around_along {mid : List (OrderedCall Nat Nat)}
    (hmid : Runs.Along OrderedTier.next OrderedTier.Affords keyTwo mid)
    (hlist : Runs.after OrderedTier.perform keyTwo mid = keyTwo) :
    Runs.Along OrderedTier.next OrderedTier.Affords (twoEntries.reference []) (around mid) := by
  have hlist' : mid.foldl OrderedTier.next keyTwo = keyTwo := hlist
  have hfirst : List.foldl OrderedTier.next (twoEntries.reference [])
      [.tier (.put 1 10), .tier (.delete 1), .tier (.put 2 20)] = keyTwo := rfl
  rw [around, Runs.along_append, Runs.along_append, List.foldl_append, hfirst, hlist']
  exact ⟨⟨by decide, hmid⟩, by decide⟩

/-- If `mid` brings the stamps back to zero, the stale ticket of key 1 has the stamp of its new
one. -/
theorem around_differs {mid : List (OrderedCall Nat Nat)}
    (hmemory : Runs.after MemoryTier.perform { twoEntries with inner := behindStale 2 } mid =
      { twoEntries with inner := behindStale 0 })
    (hlist : Runs.after OrderedTier.perform keyTwo mid = keyTwo) :
    Runs.log MemoryTier.perform twoEntries (around mid) ≠
      Runs.log OrderedTier.perform (twoEntries.reference []) (around mid) := by
  have htier : Runs.after MemoryTier.perform twoEntries
      [.tier (.put 1 10), .tier (.delete 1), .tier (.put 2 20)] =
        { twoEntries with inner := behindStale 2 } := rfl
  have hfirst : Runs.after OrderedTier.perform (twoEntries.reference [])
      [.tier (.put 1 10), .tier (.delete 1), .tier (.put 2 20)] = keyTwo := rfl
  intro h
  rw [around, Runs.log_append, Runs.log_append _ (twoEntries.reference []), Runs.after_append,
    Runs.after_append, htier, hfirst, hmemory, hlist] at h
  have hlast := List.append_inj_right h (by rw [Runs.length_log, Runs.length_log])
  have hkeys := congrArg (List.map listed) hlast
  revert hkeys
  decide

/-- Fewer than `2 ^ 64` calls, large batches among them, run through all stamps: then the tier
lists a key twice and out of order. -/
theorem order_lost_at_wrap :
    (around refills).length < 2 ^ 64 ∧
      Runs.Along OrderedTier.next OrderedTier.Affords (twoEntries.reference []) (around refills) ∧
      Runs.log MemoryTier.perform twoEntries (around refills) ≠
        Runs.log OrderedTier.perform (twoEntries.reference []) (around refills) := by
  refine ⟨?_, around_along along_refills.1 along_refills.2,
    around_differs after_refills along_refills.2⟩
  rw [around, List.length_append, List.length_append, length_refills]
  decide

end OrderWrap
end Tierstore
