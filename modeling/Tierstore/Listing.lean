import Mathlib.Data.List.Perm.Basic
import Tierstore.MemoryOrder

/-! Paged listings of the memory tier with reads between the pages. The cursor counts the keys
listed so far, so a listing is complete as long as no read moves one of these. -/
namespace Tierstore
namespace Inner
variable {K V : Type} [DecidableEq K] {inner inner' : Inner K V} {keys : List K}

/-- The live tickets stand for these keys in order, and the next stamp is a new one. The weights do
not matter. -/
structure Queue (inner : Inner K V) (keys : List K) : Prop where
  tickets : Tickets.Orders inner.stampOf inner.order keys
  issued : ∀ ticket ∈ inner.order, ticket.2.toNat ≤ inner.nextStamp.toNat
  bounded : keys.length ≤ inner.nextStamp.toNat

/-- The order in which eviction would displace the entries, if all of them had to go. -/
def evictionOrder (inner : Inner K V) : List K :=
  (inner.evictOver { entries := some 0, bytes := none }).1.map Prod.fst

theorem queue_new : (new : Inner K V).Queue [] where
  tickets := .empty _ fun key => by simp [new, stampOf]
  issued ticket hticket := by cases hticket
  bounded := Nat.zero_le _

theorem Queue.mem (h : inner.Queue keys) (key : K) : key ∈ keys ↔ key ∈ inner.map := by
  rw [h.tickets.mem key, stampOf, Option.isSome_map, AList.lookup_isSome]

theorem Queue.len (h : inner.Queue keys) : inner.len = keys.length := by
  refine List.Perm.length_eq ((List.perm_ext_iff_of_nodup inner.map.keys_nodup
    h.tickets.nodup).2 fun key => ?_)
  rw [h.mem key, AList.mem_keys]

theorem Queue.fresh (h : inner.Queue keys) (hdraw : inner.nextStamp.toNat + 1 < 2 ^ 64) :
    (inner.nextStamp + 1).toNat = inner.nextStamp.toNat + 1 ∧
      ∀ key, (key, inner.nextStamp + 1) ∉ inner.order := by
  have hnext : (inner.nextStamp + 1).toNat = inner.nextStamp.toNat + 1 := by
    rw [UInt64.toNat_add]
    exact Nat.mod_eq_of_lt hdraw
  refine ⟨hnext, fun key hmem => ?_⟩
  have hle := h.issued _ hmem
  dsimp only at hle
  omega

/-- Nothing but the stamp counter moved. -/
theorem Queue.same (h : inner.Queue keys) (hstamps : inner'.stampOf = inner.stampOf)
    (horder : inner'.order = inner.order)
    (hnext : inner.nextStamp.toNat ≤ inner'.nextStamp.toNat) : inner'.Queue keys where
  tickets := by
    rw [hstamps, horder]
    exact h.tickets
  issued ticket hticket := (h.issued ticket (horder ▸ hticket)).trans hnext
  bounded := h.bounded.trans hnext

/-- A key gets a new ticket at the end. -/
theorem Queue.issue (h : inner.Queue keys) (hdraw : inner.nextStamp.toNat + 1 < 2 ^ 64) {key : K}
    {entry : Entry V} (hmap : inner'.map = inner.map.insert key entry)
    (hstamp : entry.stamp = inner.nextStamp + 1)
    (horder : inner'.order = inner.order ++ [(key, inner.nextStamp + 1)])
    (hnext : inner'.nextStamp = inner.nextStamp + 1) :
    inner'.Queue ((keys.filter fun x => x ≠ key) ++ [key]) := by
  obtain ⟨hone, hfresh⟩ := h.fresh hdraw
  refine ⟨?_, fun ticket hticket => ?_, ?_⟩
  · rw [stampOf_insert inner key entry hmap, hstamp, horder]
    exact h.tickets.issue (hfresh key)
  · rw [hnext, hone]
    rw [horder] at hticket
    obtain hold | hnew := List.mem_append.1 hticket
    · exact (h.issued ticket hold).trans (Nat.le_succ _)
    · obtain rfl := List.mem_singleton.1 hnew
      exact hone.le
  · rw [hnext, hone, List.length_append, List.length_singleton]
    exact Nat.succ_le_succ ((List.length_filter_le _ _).trans h.bounded)

theorem Queue.compact (h : inner.Queue keys) : inner.compact.Queue keys := by
  unfold Inner.compact
  split
  · rw [live_eq]
    exact ⟨h.tickets.compact, fun ticket hticket => h.issued ticket (List.mem_filter.1 hticket).1,
      h.bounded⟩
  · exact h

theorem Queue.take (h : inner.Queue keys) (key : K) (entry : Entry V) :
    (inner.take key entry).Queue (keys.filter fun x => x ≠ key) where
  tickets := by
    rw [stampOf_erase inner key rfl]
    exact h.tickets.forget key
  issued := h.issued
  bounded := (List.length_filter_le _ _).trans h.bounded

theorem Queue.skip {ticket : K × UInt64} {tickets : List (K × UInt64)}
    (h : ({ inner with order := ticket :: tickets } : Inner K V).Queue keys)
    (hstale : Tickets.live inner.stampOf ticket = false) :
    ({ inner with order := tickets } : Inner K V).Queue keys :=
  ⟨h.tickets.pop_stale hstale, fun t ht => h.issued t (List.mem_cons_of_mem ticket ht), h.bounded⟩

/-- Eviction displaces keys from the front, as many as it has to. -/
theorem evictTickets_queue (limits : Limits) (tickets : List (K × UInt64))
    (h : ({ inner with order := tickets } : Inner K V).Queue keys) :
    ∃ rest, keys = (evictTickets limits tickets inner).1.map Prod.fst ++ rest ∧
      (evictTickets limits tickets inner).2.Queue rest ∧
      (evictTickets limits tickets inner).2.nextStamp = inner.nextStamp ∧
      ((evictTickets limits tickets inner).2.isOver limits = false ∨ rest = []) := by
  induction tickets generalizing inner keys with
  | nil => exact ⟨keys, rfl, h, rfl, Or.inr h.tickets.eq_nil⟩
  | cons ticket tickets ih =>
    obtain ⟨hover, hrun⟩ | ⟨-, hlive, hrun⟩ | ⟨-, hlive, entry, hentry, -, hrun⟩ :=
      evictTickets_cases limits ticket tickets inner
    · rw [hrun]
      exact ⟨keys, rfl, h, rfl, Or.inl hover⟩
    · rw [hrun]
      exact ih (h.skip hlive)
    · obtain ⟨behind, rfl⟩ := h.tickets.head_live hlive
      have hnot := (List.nodup_cons.1 h.tickets.nodup).1
      have htaken := h.take ticket.1 entry
      have hbehind : (ticket.1 :: behind).filter (fun x => x ≠ ticket.1) = behind := by
        rw [List.filter_cons_of_neg (by simp), List.filter_eq_self]
        rintro x hx
        simpa using fun heq : x = ticket.1 => hnot (heq ▸ hx)
      rw [hbehind] at htaken
      have hgone : Tickets.live (inner.take ticket.1 entry).stampOf ticket = false := by
        rw [stampOf_erase inner ticket.1 rfl]
        simp [Tickets.live]
      obtain ⟨rest, hrest, hqueue, hnext, hend⟩ := ih (htaken.skip hgone)
      rw [hrun]
      exact ⟨rest, by rw [hrest]; rfl, hqueue, hnext, hend⟩

theorem Queue.evictOver (h : inner.Queue keys) (limits : Limits) :
    ∃ rest, keys = (inner.evictOver limits).1.map Prod.fst ++ rest ∧
      (inner.evictOver limits).2.Queue rest ∧
      (inner.evictOver limits).2.nextStamp = inner.nextStamp ∧
      ((inner.evictOver limits).2.isOver limits = false ∨ rest = []) :=
  evictTickets_queue limits inner.order h

/-- The live tickets are in eviction order. -/
theorem Queue.evictionOrder (h : inner.Queue keys) : inner.evictionOrder = keys := by
  obtain ⟨rest, hkeys, hqueue, -, hend⟩ := h.evictOver { entries := some 0, bytes := none }
  have hrest : rest = [] := by
    obtain hover | hnil := hend
    · have hlen := hqueue.len
      simp only [isOver, Option.any_some, Option.any_none, Bool.or_false, decide_eq_false_iff_not,
        Nat.not_lt, Nat.le_zero] at hover
      exact List.length_eq_zero_iff.1 (hlen.symm.trans hover)
    · exact hnil
  rw [hrest, List.append_nil] at hkeys
  exact hkeys.symm

theorem Queue.page (h : inner.Queue keys) {cursor : Option Nat}
    (hcursor : cursor.getD 0 ≤ keys.length)
    (limit : ℕ+) :
    inner.page cursor limit =
      { keys := (keys.drop (cursor.getD 0)).take limit
        next := if cursor.getD 0 + limit < keys.length then some (cursor.getD 0 + limit)
          else none } := by
  have hkeys : (inner.order.filter inner.live).map Prod.fst = keys := by
    rw [live_eq]
    exact h.tickets.keys
  have hmax : keys.length ≤ usizeMax := by
    have hstamp := inner.nextStamp.toNat_lt
    have hbounded := h.bounded
    rw [usizeMax]
    omega
  have hpos := limit.pos
  simp only [Inner.page, hkeys, List.length_take, List.length_drop, Page.mk.injEq, true_and]
  by_cases hmore : cursor.getD 0 + limit < keys.length
  · have hnext : min (cursor.getD 0 + min ↑limit (keys.length - cursor.getD 0)) usizeMax =
        cursor.getD 0 + limit := by omega
    rw [hnext, if_pos hmore, if_pos ⟨hpos, hmore⟩]
  · have hnext : min (cursor.getD 0 + min ↑limit (keys.length - cursor.getD 0)) usizeMax =
        keys.length := by omega
    rw [hnext, if_neg hmore, if_neg fun h => Nat.lt_irrefl _ h.2]

/-! ## The states a tier reaches -/

/-- The queue still stands for some keys, and at most `n` stamps were drawn. -/
def Drew (inner : Inner K V) (n : Nat) (inner' : Inner K V) : Prop :=
  (∃ keys, inner'.Queue keys) ∧ inner'.nextStamp.toNat ≤ inner.nextStamp.toNat + n

theorem Queue.place (h : inner.Queue keys) (hdraw : inner.nextStamp.toNat + 1 < 2 ^ 64) (key : K)
    (value : V) (weight : Nat) (eviction : Eviction) :
    inner.Drew 1 (inner.place key value weight eviction) := by
  have hone := (h.fresh hdraw).1
  unfold Inner.place
  cases hentry : inner.map.lookup key with
  | none =>
    simp only [freshStamp, hentry]
    exact ⟨⟨_, h.issue hdraw rfl rfl rfl rfl⟩, hone.le⟩
  | some entry =>
    cases eviction with
    | lru =>
      simp only [freshStamp, hentry]
      exact ⟨⟨_, h.issue hdraw rfl rfl rfl rfl⟩, hone.le⟩
    | fifo =>
      simp only [freshStamp, hentry]
      refine ⟨⟨keys, h.same ?_ rfl (by rw [hone]; exact Nat.le_succ _)⟩, hone.le⟩
      rw [stampOf_insert inner key { value, weight, stamp := entry.stamp } rfl]
      exact Function.update_eq_self_iff.2 (by simp [stampOf, hentry])

theorem Queue.insert (h : inner.Queue keys) (hdraw : inner.nextStamp.toNat + 1 < 2 ^ 64) (key : K)
    (value : V) (weight : Nat) (limits : Limits) (eviction : Eviction) :
    inner.Drew 1 (inner.insert key value weight limits eviction).2 := by
  obtain ⟨⟨placed, hplaced⟩, hdrawn⟩ := h.place hdraw key value weight eviction
  obtain ⟨rest, -, hqueue, hnext, -⟩ := hplaced.compact.evictOver limits
  refine ⟨⟨rest, hqueue⟩, ?_⟩
  rw [Inner.insert, hnext, compact_nextStamp]
  exact hdrawn

theorem Queue.insertBatch {entries : List (K × V × Nat)} (h : inner.Queue keys)
    (hdraw : inner.nextStamp.toNat + entries.length < 2 ^ 64) (limits : Limits)
    (eviction : Eviction) :
    inner.Drew entries.length (Inner.insertBatch limits eviction inner entries).2 := by
  induction entries generalizing inner keys with
  | nil => exact ⟨⟨keys, h⟩, Nat.le_refl _⟩
  | cons entry rest ih =>
    obtain ⟨key, value, weight⟩ := entry
    rw [List.length_cons] at hdraw
    obtain ⟨⟨keys', hqueue⟩, hdrawn⟩ := h.insert (by omega) key value weight limits eviction
    obtain ⟨hend, hall⟩ := ih hqueue (by omega)
    exact ⟨hend, by rw [List.length_cons]; exact hall.trans (by omega)⟩

/-- A hit moves the key to the end under LRU. -/
theorem Queue.touch (h : inner.Queue keys) (hdraw : inner.nextStamp.toNat + 1 < 2 ^ 64) {key : K}
    (hkey : key ∈ inner.map) :
    (inner.touch key).Queue ((keys.filter fun x => x ≠ key) ++ [key]) ∧
      (inner.touch key).nextStamp = inner.nextStamp + 1 := by
  obtain ⟨entry, hentry⟩ := Option.isSome_iff_exists.1 (AList.lookup_isSome.2 hkey)
  simp only [Inner.touch, freshStamp, hentry]
  exact ⟨Queue.compact (h.issue hdraw rfl rfl rfl rfl), by simp⟩

/-- Reads under these keys leave the front of the order as it is, up to the first of them that they
move; first-in-first-out moves none. -/
structure Moved (eviction : Eviction) (touched keys keys' : List K) : Prop where
  perm : keys'.Perm keys
  front : ∀ n, (eviction = .lru → ∀ key ∈ touched, key ∉ keys.take n) →
    keys'.take n = keys.take n

omit [DecidableEq K] in
theorem Moved.refl (eviction : Eviction) (touched keys : List K) :
    Moved eviction touched keys keys := ⟨.refl keys, fun _ _ => rfl⟩

omit [DecidableEq K] in
theorem Moved.trans {eviction : Eviction} {touched touched' keys' keys'' : List K}
    (h : Moved eviction touched keys keys') (h' : Moved eviction touched' keys' keys'') :
    Moved eviction (touched ++ touched') keys keys'' := by
  refine ⟨h'.perm.trans h.perm, fun n hn => ?_⟩
  have hfront := h.front n fun hlru key hkey => hn hlru key (List.mem_append_left _ hkey)
  rw [h'.front n fun hlru key hkey => ?_, hfront]
  rw [hfront]
  exact hn hlru key (List.mem_append_right _ hkey)

theorem take_filter_append {key : K} {n : Nat} (hkey : key ∉ keys.take n) (hmem : key ∈ keys) :
    ((keys.filter fun x => x ≠ key) ++ [key]).take n = keys.take n := by
  have hlen : n ≤ keys.length := by
    by_contra hlong
    rw [List.take_of_length_le (Nat.le_of_not_le hlong)] at hkey
    exact hkey hmem
  have hfront : (keys.take n).filter (fun x => x ≠ key) = keys.take n := by
    refine List.filter_eq_self.2 fun x hx => ?_
    simpa using fun heq : x = key => hkey (heq ▸ hx)
  have hsplit : keys.filter (fun x => x ≠ key) =
      keys.take n ++ (keys.drop n).filter fun x => x ≠ key := by
    conv_lhs => rw [← List.take_append_drop n keys, List.filter_append, hfront]
  have htake : (keys.take n).length = n := List.length_take_of_le hlen
  rw [hsplit, List.append_assoc, List.take_append_of_le_length htake.ge,
    List.take_of_length_le htake.le]

/-- A read draws a stamp at most, and moves its key to the end at most. -/
theorem Queue.fetch (h : inner.Queue keys) (hdraw : inner.nextStamp.toNat + 1 < 2 ^ 64) (key : K)
    (eviction : Eviction) :
    ∃ keys', (inner.fetch key eviction).2.Queue keys' ∧ Moved eviction [key] keys keys' ∧
      (inner.fetch key eviction).2.nextStamp.toNat ≤ inner.nextStamp.toNat + 1 := by
  rw [fetch_state]
  split
  next hhit =>
    obtain ⟨hqueue, hnext⟩ := h.touch hdraw hhit.2
    have hmem := (h.mem key).2 hhit.2
    refine ⟨_, hqueue, ⟨?_, fun n hn => ?_⟩, (hnext ▸ (h.fresh hdraw).1).le⟩
    · refine (List.perm_ext_iff_of_nodup hqueue.tickets.nodup h.tickets.nodup).2 fun x => ?_
      by_cases hx : x = key
      · simp [hx, hmem]
      · simp [hx]
    · exact take_filter_append (hn hhit.1 key (by simp)) hmem
  next => exact ⟨keys, h, .refl eviction [key] keys, Nat.le_succ _⟩

theorem Queue.fetchBatch (h : inner.Queue keys) (eviction : Eviction) (asked : List K)
    (hdraw : inner.nextStamp.toNat + asked.length < 2 ^ 64) :
    ∃ keys', (Inner.fetchBatch eviction inner asked).2.Queue keys' ∧
      Moved eviction asked keys keys' ∧
      (Inner.fetchBatch eviction inner asked).2.nextStamp.toNat ≤
        inner.nextStamp.toNat + asked.length := by
  induction asked generalizing inner keys with
  | nil => exact ⟨keys, h, .refl eviction [] keys, Nat.le_refl _⟩
  | cons key rest ih =>
    rw [List.length_cons] at hdraw
    obtain ⟨keys₁, hfirst, hmoved, hdrawn⟩ := h.fetch (by omega) key eviction
    obtain ⟨keys₂, hqueue, hmore, hall⟩ := ih hfirst (by omega)
    refine ⟨keys₂, hqueue, hmoved.trans hmore, ?_⟩
    rw [List.length_cons]
    exact hall.trans (by omega)

theorem Queue.remove (h : inner.Queue keys) (key : K) : inner.Drew 0 (inner.remove key).2 := by
  unfold Inner.remove
  cases inner.map.lookup key with
  | none => exact ⟨⟨keys, h⟩, Nat.le_refl _⟩
  | some entry => exact ⟨⟨_, h.take key entry⟩, Nat.le_refl _⟩

theorem Queue.removeBatch (h : inner.Queue keys) (gone : List K) :
    inner.Drew 0 (inner.removeBatch gone).2 := by
  induction gone generalizing inner keys with
  | nil => exact ⟨⟨keys, h⟩, Nat.le_refl _⟩
  | cons key rest ih =>
    obtain ⟨⟨keys', hqueue⟩, hdrawn⟩ := h.remove key
    obtain ⟨hend, hall⟩ := ih hqueue
    exact ⟨hend, hall.trans hdrawn⟩

end Inner

namespace MemoryTier
variable {K V : Type} [DecidableEq K]

/-- A call keeps the queue in order, as long as it has stamps left. -/
theorem perform_drew {tier : MemoryTier K V} {keys : List K} (h : tier.inner.Queue keys)
    {c : OrderedCall K V} (hstamps : tier.Stamped c) :
    tier.inner.Drew c.moves (tier.perform c).2.inner := by
  unfold Stamped at hstamps
  cases c with
  | tier call =>
    cases call with
    | get key =>
      obtain ⟨keys', hqueue, -, hdrawn⟩ := h.fetch hstamps key tier.eviction
      exact ⟨⟨keys', hqueue⟩, hdrawn⟩
    | exists_ key => exact ⟨⟨keys, h⟩, Nat.le_refl _⟩
    | getMany asked =>
      obtain ⟨keys', hqueue, -, hdrawn⟩ := h.fetchBatch tier.eviction asked hstamps
      exact ⟨⟨keys', hqueue⟩, hdrawn⟩
    | put key value => exact h.insert hstamps key value _ tier.limits tier.eviction
    | delete key => exact h.remove key
    | putMany entries =>
      have hlength : (entries.map fun e => (e.1, e.2, tier.weightOf e.1 e.2)).length =
          entries.length := List.length_map _
      have hdrew := h.insertBatch (hlength.symm ▸ hstamps :
        _ + (entries.map fun e => (e.1, e.2, tier.weightOf e.1 e.2)).length < _) tier.limits
        tier.eviction
      rw [hlength] at hdrew
      exact hdrew
    | deleteMany gone => exact h.removeBatch gone
  | getRef key =>
    obtain ⟨keys', hqueue, -, hdrawn⟩ := h.fetch hstamps key tier.eviction
    change tier.inner.Drew 1 (tier.inner.getRef key tier.eviction).2
    rw [Inner.getRef_eq]
    exact ⟨⟨keys', hqueue⟩, hdrawn⟩
  | list cursor limit => exact ⟨⟨keys, h⟩, Nat.le_refl _⟩

theorem run_drew {tier : MemoryTier K V} {keys : List K} (h : tier.inner.Queue keys)
    {calls : List (OrderedCall K V)}
    (hstamps : tier.inner.nextStamp.toNat + (calls.map OrderedCall.moves).sum < 2 ^ 64) :
    tier.inner.Drew (calls.map OrderedCall.moves).sum (Runs.after perform tier calls).inner := by
  induction calls generalizing tier keys with
  | nil => exact ⟨⟨keys, h⟩, Nat.le_refl _⟩
  | cons c calls ih =>
    rw [List.map_cons, List.sum_cons] at hstamps ⊢
    obtain ⟨⟨keys', hqueue⟩, hdrawn⟩ := perform_drew h (by unfold Stamped; omega : tier.Stamped c)
    obtain ⟨hend, hall⟩ := ih hqueue (by omega)
    exact ⟨hend, hall.trans (by omega)⟩

/-! ## Listings -/

inductive Read (K : Type) where
  | get (key : K)
  | getMany (keys : List K)
  | exists_ (key : K)

def Read.call : Read K → TierCall K V
  | .get key => .get key
  | .getMany keys => .getMany keys
  | .exists_ key => .exists_ key

def Read.touched : Read K → List K
  | .get key => [key]
  | .getMany keys => keys
  | .exists_ _ => []

structure Round (K : Type) where
  limit : ℕ+
  reads : List (Read K)

def Round.touched (round : Round K) : List K := round.reads.flatMap Read.touched

def afterReads (tier : MemoryTier K V) (reads : List (Read K)) : MemoryTier K V :=
  reads.foldl (fun tier read => (Tier.call tier read.call).2) tier

/-- Follows the cursors until there is none; nothing if the rounds run out before. -/
def follow (tier : MemoryTier K V) (cursor : Option Nat) : List (Round K) → Option (List (List K))
  | [] => none
  | round :: rounds =>
    let page := tier.inner.page cursor round.limit
    match page.next with
    | none => some [page.keys]
    | some next =>
      (follow (tier.afterReads round.reads) (some next) rounds).map (page.keys :: ·)

/-- No read between two pages asks for a key that is listed already. -/
def Spares : (listed : List K) → List (Round K) → List (List K) → Prop
  | listed, round :: rounds, page :: next :: pages =>
    (∀ key ∈ round.touched, key ∉ listed ++ page) ∧ Spares (listed ++ page) rounds (next :: pages)
  | _, _, _ => True

theorem afterReads_queue {tier : MemoryTier K V} {keys : List K} (h : tier.inner.Queue keys)
    (reads : List (Read K))
    (hdraw : tier.inner.nextStamp.toNat + (reads.flatMap Read.touched).length < 2 ^ 64) :
    ∃ keys', (tier.afterReads reads).inner.Queue keys' ∧
      Inner.Moved tier.eviction (reads.flatMap Read.touched) keys keys' ∧
      (tier.afterReads reads).inner.nextStamp.toNat ≤
        tier.inner.nextStamp.toNat + (reads.flatMap Read.touched).length ∧
      (tier.afterReads reads).eviction = tier.eviction := by
  induction reads generalizing tier keys with
  | nil => exact ⟨keys, h, .refl _ _ keys, Nat.le_refl _, rfl⟩
  | cons read reads ih =>
    rw [List.flatMap_cons, List.length_append] at hdraw ⊢
    have hone : ∃ keys', (Tier.call tier read.call).2.inner.Queue keys' ∧
        Inner.Moved tier.eviction read.touched keys keys' ∧
        (Tier.call tier read.call).2.inner.nextStamp.toNat ≤
          tier.inner.nextStamp.toNat + read.touched.length ∧
        (Tier.call tier read.call).2.eviction = tier.eviction := by
      cases read with
      | get key =>
        obtain ⟨keys', hqueue, hmoved, hdrawn⟩ := h.fetch (by
          simp only [Read.touched, List.length_singleton] at hdraw
          omega) key tier.eviction
        exact ⟨keys', hqueue, hmoved, hdrawn, rfl⟩
      | getMany asked =>
        obtain ⟨keys', hqueue, hmoved, hdrawn⟩ := h.fetchBatch tier.eviction asked (by
          simp only [Read.touched] at hdraw
          omega)
        exact ⟨keys', hqueue, hmoved, hdrawn, rfl⟩
      | exists_ key => exact ⟨keys, h, .refl _ _ keys, Nat.le_refl _, rfl⟩
    obtain ⟨keys₁, hfirst, hmoved, hdrawn, hsame⟩ := hone
    obtain ⟨keys₂, hqueue, hmore, hall, hend⟩ := ih hfirst (by omega)
    rw [hsame] at hmore
    exact ⟨keys₂, hqueue, hmoved.trans hmore, hall.trans (by omega), hend.trans hsame⟩

/-- Enough rounds see the listing through; what they list is the order, with what the reads moved
at its end. -/
theorem follow_queue {tier : MemoryTier K V} {keys : List K} (h : tier.inner.Queue keys)
    {cursor : Option Nat} (hcursor : cursor.getD 0 ≤ keys.length) {rounds : List (Round K)}
    (hrounds : keys.length - cursor.getD 0 < rounds.length)
    (hdraw : tier.inner.nextStamp.toNat + (rounds.map fun r => r.touched.length).sum < 2 ^ 64) :
    ∃ pages, tier.follow cursor rounds = some pages ∧
      pages.length ≤ max (keys.length - cursor.getD 0) 1 ∧
      pages.flatten.length = keys.length - cursor.getD 0 ∧
      ((tier.eviction = .lru → Spares (keys.take (cursor.getD 0)) rounds pages) → ∃ final : List K,
        final.Perm keys ∧ final.take (cursor.getD 0) = keys.take (cursor.getD 0) ∧
          pages.flatten = final.drop (cursor.getD 0)) ∧
      ((∀ round ∈ rounds, round.reads = []) → pages.flatten = keys.drop (cursor.getD 0)) := by
  induction rounds generalizing tier keys cursor with
  | nil => exact absurd hrounds (Nat.not_lt_zero _)
  | cons round rounds ih =>
    rw [follow, h.page hcursor round.limit]
    dsimp only
    rw [List.length_cons] at hrounds
    rw [List.map_cons, List.sum_cons] at hdraw
    by_cases hmore : cursor.getD 0 + round.limit < keys.length
    · rw [if_pos hmore]
      dsimp only
      have htouched : round.touched.length = (round.reads.flatMap Read.touched).length := rfl
      obtain ⟨keys', hqueue, hmoved, hdrawn, hsame⟩ := afterReads_queue h round.reads (by omega)
      have hlength := hmoved.perm.length_eq
      have hpos := round.limit.pos
      have hnext : (some (cursor.getD 0 + ↑round.limit)).getD 0 ≤ keys'.length := by
        simpa [hlength] using hmore.le
      obtain ⟨pages, hfollow, hcount, hflat, hspared, hquiet⟩ :=
        ih hqueue hnext (by simp only [Option.getD_some]; omega) (by omega)
      rw [Option.getD_some] at hcount hflat hspared hquiet
      have hfirst : ((keys.drop (cursor.getD 0)).take round.limit).length = round.limit :=
        List.length_take_of_le (by rw [List.length_drop]; omega)
      refine ⟨_, by rw [hfollow]; rfl, ?_, ?_, fun hspares => ?_, fun hnone => ?_⟩
      · rw [List.length_cons]
        omega
      · rw [List.flatten_cons, List.length_append, hfirst, hflat]
        omega
      · -- the next page is not the last one's, so its reads were asked to spare what is listed
        obtain ⟨next, later, rfl⟩ : ∃ next later, pages = next :: later := by
          cases pages with
          | nil =>
            rw [List.flatten_nil, List.length_nil] at hflat
            omega
          | cons next later => exact ⟨next, later, rfl⟩
        rw [Spares, ← List.take_add] at hspares
        have hfront := hmoved.front _ fun hlru => (hspares hlru).1
        obtain ⟨final, hperm, htake, hpages⟩ := hspared fun hlru => by
          rw [hfront]
          exact (hspares (hsame ▸ hlru)).2
        refine ⟨final, hperm.trans hmoved.perm, ?_, ?_⟩
        · have hshort := congrArg (List.take (cursor.getD 0)) (htake.trans hfront)
          rwa [List.take_take, List.take_take, Nat.min_eq_left (Nat.le_add_right _ _)] at hshort
        · have hpage : (final.drop (cursor.getD 0)).take round.limit =
              (keys.drop (cursor.getD 0)).take round.limit := by
            rw [List.take_drop, List.take_drop, htake, hfront]
          rw [List.flatten_cons, hpages, ← hpage, ← List.drop_drop, List.take_append_drop]
      · have hreads := hnone round (by simp)
        have hall := hmoved.front keys.length fun _ key hkey => by simp [hreads] at hkey
        rw [List.take_length, ← hlength, List.take_length] at hall
        rw [List.flatten_cons, hquiet fun r hr => hnone r (List.mem_cons_of_mem _ hr), hall,
          ← List.drop_drop, List.take_append_drop]
    · rw [if_neg hmore]
      have hlast : (keys.drop (cursor.getD 0)).take round.limit = keys.drop (cursor.getD 0) :=
        List.take_of_length_le (by rw [List.length_drop]; omega)
      exact ⟨_, rfl, Nat.le_max_right _ _, by simp [hlast],
        fun _ => ⟨keys, .refl keys, rfl, by simp [hlast]⟩, fun _ => by simp [hlast]⟩

theorem run_eviction (tier : MemoryTier K V) (calls : List (OrderedCall K V)) :
    (Runs.after perform tier calls).eviction = tier.eviction := by
  induction calls generalizing tier with
  | nil => rfl
  | cons c calls ih =>
    rw [Runs.after_cons, ih]
    cases c with
    | tier call => cases call <;> rfl
    | getRef key => rfl
    | list cursor limit => rfl

/-- From every state that a history leaves, with stamps left, following the cursors comes to an
end, after at most as many pages as keys or one, and lists as many keys as there are. It lists each
resident key once, under LRU if no read between the pages asks for a key that is listed already;
without reads, in eviction order. -/
theorem listing_complete (maxEntries : Option ℕ+) (bytes : Option (ByteBudget K V))
    (eviction : Eviction) (history : List (OrderedCall K V)) (rounds : List (Round K))
    (hstamps : (history.map OrderedCall.moves).sum +
      (rounds.map fun r => r.touched.length).sum < 2 ^ 64)
    (hrounds : (Runs.after perform (empty maxEntries bytes eviction) history).len <
      rounds.length) :
    let tier := Runs.after perform (empty maxEntries bytes eviction) history
    ∃ pages, tier.follow none rounds = some pages ∧ pages.length ≤ max tier.len 1 ∧
      pages.flatten.length = tier.len ∧
      ((eviction = .lru → Spares [] rounds pages) →
        pages.flatten.Nodup ∧ ∀ key, key ∈ pages.flatten ↔ key ∈ tier.inner.map) ∧
      ((∀ round ∈ rounds, round.reads = []) → pages.flatten = tier.inner.evictionOrder) := by
  have hzero : (empty maxEntries bytes eviction : MemoryTier K V).inner.nextStamp.toNat = 0 := rfl
  have hdrew : (empty maxEntries bytes eviction : MemoryTier K V).inner.Drew _
      (Runs.after perform (empty maxEntries bytes eviction) history).inner :=
    run_drew Inner.queue_new (by omega)
  have hsame : (Runs.after perform (empty maxEntries bytes eviction) history).eviction =
      eviction := run_eviction _ history
  generalize Runs.after perform (empty maxEntries bytes eviction) history = tier at *
  obtain ⟨⟨keys, hqueue⟩, hdrawn⟩ := hdrew
  have hlen : tier.len = keys.length := hqueue.len
  have hcursor : (none : Option Nat).getD 0 ≤ keys.length := Nat.zero_le _
  have henough : keys.length - (none : Option Nat).getD 0 < rounds.length := by
    rw [Option.getD_none]
    omega
  obtain ⟨pages, hfollow, hcount, hflat, hspared, hquiet⟩ :=
    follow_queue hqueue hcursor henough (by omega)
  rw [Option.getD_none, Nat.sub_zero, ← hlen] at hcount
  refine ⟨pages, hfollow, hcount, by rw [hflat, hlen]; rfl, fun hspares => ?_, fun hnone => ?_⟩
  · obtain ⟨final, hperm, -, hpages⟩ := hspared fun hlru => hspares (hsame ▸ hlru)
    rw [Option.getD_none, List.drop_zero] at hpages
    rw [hpages]
    exact ⟨hperm.nodup_iff.2 hqueue.tickets.nodup,
      fun key => hperm.mem_iff.trans (hqueue.mem key)⟩
  · rw [hqueue.evictionOrder]
    exact hquiet hnone

/-- Three keys, and a listing of one key at a time with reads of a key that is not listed yet,
which moves it to the end. -/
theorem listing_complete_ahead :
    let tier := Runs.after perform (empty none none .lru : MemoryTier Nat Nat)
      [.tier (.putMany [(1, 10), (2, 20), (3, 30)])]
    let rounds : List (Round Nat) :=
      [⟨1, [.get 2]⟩, ⟨1, [.getMany [2], .exists_ 1]⟩, ⟨1, []⟩, ⟨1, []⟩]
    tier.follow none rounds = some [[1], [3], [2]] ∧ [1, 3, 2].length = tier.len ∧
      [1, 3, 2].Nodup ∧ ∀ key, key ∈ [1, 3, 2] ↔ key ∈ tier.inner.map := by
  intro tier rounds
  obtain ⟨pages, hfollow, -, hlen, hspared, -⟩ :=
    listing_complete none none .lru [.tier (.putMany [(1, 10), (2, 20), (3, 30)])] rounds
      (by decide) (by decide)
  have hpages : tier.follow none rounds = some [[1], [3], [2]] := by decide
  obtain rfl : pages = [[1], [3], [2]] := Option.some.inj (hfollow.symm.trans hpages)
  exact ⟨hpages, hlen, hspared fun _ => by simp [Spares, rounds, Round.touched, Read.touched]⟩

/-- A read of the key on the first page moves it behind the others: the second page skips key 2
and lists key 1 again. -/
theorem listing_skips :
    let tier := Runs.after perform (empty none none .lru : MemoryTier Nat Nat)
      [.tier (.putMany [(1, 10), (2, 20), (3, 30)])]
    tier.follow none [⟨1, [.get 1]⟩, ⟨2, []⟩] = some [[1], [3, 1]] ∧
      2 ∈ tier.inner.map ∧ ¬ ([[1], [3, 1]] : List (List Nat)).flatten.Nodup ∧
      2 ∉ ([[1], [3, 1]] : List (List Nat)).flatten := by
  decide

end MemoryTier
end Tierstore
