import Tierstore.Listing
import Tierstore.Mmap.Tier
import Tierstore.Mmap.Wrap

/-! How long the eviction queues of both tiers get: no longer than twice the most entries that were
ever resident, or than sixteen tickets, as long as the stamps do not wrap. -/
namespace Tierstore

/-- A state, and the most entries that were resident at any moment of the run so far. -/
structure Watched (I : Type) where
  inner : I
  peak : Nat

/-! ## The memory tier -/
inductive QueueCall (K V : Type) where
  | insert (key : K) (value : V) (weight : Nat)
  | fetch (key : K)
  | getRef (key : K)
  | remove (key : K)

namespace Inner
variable {K V : Type} [DecidableEq K]

def apply (limits : Limits) (eviction : Eviction) (inner : Inner K V) : QueueCall K V → Inner K V
  | .insert key value weight => (inner.insert key value weight limits eviction).2
  | .fetch key => (inner.fetch key eviction).2
  | .getRef key => (inner.getRef key eviction).2
  | .remove key => (inner.remove key).2

/-- The most entries that a call has in the map: a new one counts before the eviction. -/
def entriesDuring (eviction : Eviction) (inner : Inner K V) : QueueCall K V → Nat
  | .insert key value weight => (inner.place key value weight eviction).len
  | _ => inner.len

def renewed (inner : Inner K V) (key : K) : Inner K V :=
  let (stamp, inner) := inner.freshStamp
  match inner.map.lookup key with
  | some entry =>
    { inner with
      map := inner.map.insert key { entry with stamp }
      order := inner.order ++ [(key, stamp)] }
  | none => inner

def compactedAt (eviction : Eviction) (inner : Inner K V) : QueueCall K V → Option (Inner K V)
  | .insert key value weight => some (inner.place key value weight eviction)
  | .fetch key | .getRef key =>
    if eviction = .lru ∧ key ∈ inner.map then some (inner.renewed key) else none
  | .remove _ => none

def draws (eviction : Eviction) (inner : Inner K V) : QueueCall K V → Bool
  | .insert _ _ _ => true
  | .fetch key | .getRef key => eviction = .lru ∧ key ∈ inner.map
  | .remove _ => false

def watch (limits : Limits) (eviction : Eviction) (w : Watched (Inner K V))
    (c : QueueCall K V) : Watched (Inner K V) :=
  { inner := w.inner.apply limits eviction c
    peak := max w.peak (w.inner.entriesDuring eviction c) }

/-- If there is more to the queue than `compact` tolerates, it at least halves, and the live tickets
stay in order. -/
def Halves (inner : Inner K V) : Prop :=
  inner.order.length > max (min (inner.len * 2) usizeMax) 16 →
    2 * inner.compact.order.length ≤ inner.order.length ∧
      inner.compact.order = inner.order.filter inner.live

def Settles (limits : Limits) (eviction : Eviction) (w : Watched (Inner K V))
    (c : QueueCall K V) : Prop :=
  (watch limits eviction w c).inner.order.length ≤ max 16 (2 * (watch limits eviction w c).peak) ∧
    ∀ before ∈ w.inner.compactedAt eviction c, before.Halves

theorem touch_eq (inner : Inner K V) (key : K) : inner.touch key = (inner.renewed key).compact := by
  cases hentry : inner.map.lookup key with
  | none => simp [touch, renewed, freshStamp, hentry]
  | some entry => simp [touch, renewed, freshStamp, hentry]

/-! ### The bound -/
section Bound
variable {inner : Inner K V} {keys : List K} {peak : Nat}

/-- The queue before a compaction: in order, with no more tickets than stamps were drawn. -/
def Ready (inner : Inner K V) : Prop :=
  (∃ keys, inner.Queue keys) ∧ inner.order.length ≤ inner.nextStamp.toNat

/-- The invariant of the runs: no more entries than the peak, and no more tickets than sixteen or
twice the peak. -/
structure Bounded (inner : Inner K V) (peak : Nat) : Prop where
  ready : inner.Ready
  resident : inner.len ≤ peak
  order : inner.order.length ≤ max 16 (2 * peak)

theorem Bounded.mono (h : inner.Bounded peak) {peak' : Nat} (hle : peak ≤ peak') :
    inner.Bounded peak' :=
  ⟨h.ready, h.resident.trans hle, h.order.trans (by omega)⟩

theorem Ready.place (h : inner.Ready) (hdraw : inner.nextStamp.toNat + 1 < 2 ^ 64) (key : K)
    (value : V) (weight : Nat) (eviction : Eviction) :
    (inner.place key value weight eviction).Ready := by
  obtain ⟨⟨keys, hqueue⟩, hdrawn⟩ := h
  refine ⟨(hqueue.place hdraw key value weight eviction).1, ?_⟩
  have hone := (hqueue.fresh hdraw).1
  unfold Inner.place
  cases hentry : inner.map.lookup key with
  | none =>
    simp only [freshStamp, hentry, List.length_append, List.length_singleton, hone]
    omega
  | some entry =>
    cases eviction with
    | fifo =>
      simp only [freshStamp, hentry, hone]
      omega
    | lru =>
      simp only [freshStamp, hentry, List.length_append, List.length_singleton, hone]
      omega

theorem Ready.renewed (h : inner.Ready) (hdraw : inner.nextStamp.toNat + 1 < 2 ^ 64) {key : K}
    (hkey : key ∈ inner.map) : (inner.renewed key).Ready ∧ (inner.renewed key).len = inner.len := by
  obtain ⟨⟨keys, hqueue⟩, hdrawn⟩ := h
  have hone := (hqueue.fresh hdraw).1
  obtain ⟨entry, hentry⟩ := Option.isSome_iff_exists.1 (AList.lookup_isSome.2 hkey)
  simp only [Inner.renewed, freshStamp, hentry]
  refine ⟨⟨⟨_, hqueue.issue hdraw rfl rfl rfl rfl⟩, ?_⟩, ?_⟩
  · simp only [List.length_append, List.length_singleton, hone]
    omega
  · rw [len, AList.keys_insert, List.length_cons, len]
    exact List.length_erase_add_one (AList.mem_keys.1 hkey)

/-- Whatever the queue was like before, a compaction leaves it short enough. -/
theorem Ready.compact (h : inner.Ready) (hpeak : inner.len ≤ peak) :
    inner.compact.Bounded peak := by
  obtain ⟨⟨keys, hqueue⟩, hdrawn⟩ := h
  have hlen := hqueue.len
  have hshort : inner.compact.order.length ≤ max 16 (2 * keys.length) := by
    have hcompact := hqueue.tickets.length_compact 16 usizeMax
    rw [← hlen] at hcompact ⊢
    rw [Inner.compact, live_eq]
    split at hcompact
    next hlong => rwa [if_pos hlong]
    next hlong => rwa [if_neg hlong]
  have hle : inner.compact.order.length ≤ inner.order.length := by
    unfold Inner.compact
    split
    · exact List.length_filter_le _ _
    · exact Nat.le_refl _
  have hsame : inner.compact.len = inner.len := by
    unfold Inner.compact
    split <;> rfl
  refine ⟨⟨⟨keys, hqueue.compact⟩, ?_⟩, hsame.trans_le hpeak, hshort.trans (by omega)⟩
  rw [compact_nextStamp]
  exact hle.trans hdrawn

theorem Ready.halves (h : inner.Ready) : inner.Halves := by
  obtain ⟨⟨keys, hqueue⟩, hdrawn⟩ := h
  have hlive : (inner.order.filter inner.live).length = inner.len := by
    rw [live_eq, hqueue.tickets.length_live, hqueue.len]
  intro hlong
  have hcompact : inner.compact.order = inner.order.filter inner.live := by
    rw [Inner.compact, if_pos hlong]
  refine ⟨?_, hcompact⟩
  -- the threshold is not cut off: no queue is longer than the stamps that were drawn
  have hstamp := inner.nextStamp.toNat_lt
  rw [hcompact, hlive]
  rw [usizeMax] at hlong
  omega

theorem evictTickets_length (limits : Limits) (tickets : List (K × UInt64)) (inner : Inner K V) :
    (evictTickets limits tickets inner).2.order.length ≤ tickets.length := by
  induction tickets generalizing inner with
  | nil => exact Nat.le_refl _
  | cons ticket rest ih =>
    obtain ⟨-, hrun⟩ | ⟨-, -, hrun⟩ | ⟨-, -, entry, -, -, hrun⟩ :=
      evictTickets_cases limits ticket rest inner
    · rw [hrun]
    · rw [hrun]
      exact (ih _).trans (Nat.le_succ _)
    · rw [hrun]
      exact (ih _).trans (Nat.le_succ _)

theorem Bounded.evictOver (h : inner.Bounded peak) (limits : Limits) :
    (inner.evictOver limits).2.Bounded peak := by
  obtain ⟨⟨⟨keys, hqueue⟩, hdrawn⟩, hresident, horder⟩ := h
  obtain ⟨rest, hkeys, hleft, hnext, -⟩ := hqueue.evictOver limits
  have hlength : (inner.evictOver limits).2.order.length ≤ inner.order.length :=
    evictTickets_length limits inner.order inner
  refine ⟨⟨⟨rest, hleft⟩, ?_⟩, ?_, hlength.trans horder⟩
  · rw [hnext]
    exact hlength.trans hdrawn
  · rw [hqueue.len, hkeys, List.length_append] at hresident
    rw [hleft.len]
    omega

theorem Bounded.remove (h : inner.Bounded peak) (key : K) : (inner.remove key).2.Bounded peak := by
  obtain ⟨⟨⟨keys, hqueue⟩, hdrawn⟩, hresident, horder⟩ := h
  rw [hqueue.len] at hresident
  unfold Inner.remove
  cases inner.map.lookup key with
  | none => exact ⟨⟨⟨keys, hqueue⟩, hdrawn⟩, hqueue.len.trans_le hresident, horder⟩
  | some entry =>
    have htaken := hqueue.take key entry
    refine ⟨⟨⟨_, htaken⟩, hdrawn⟩, ?_, horder⟩
    rw [htaken.len]
    exact (List.length_filter_le _ _).trans hresident

/-- One call, with a stamp left for it. -/
theorem Bounded.apply (h : inner.Bounded peak) (limits : Limits) (eviction : Eviction)
    (c : QueueCall K V)
    (hstamp : inner.draws eviction c = true → inner.nextStamp.toNat + 1 < 2 ^ 64) :
    (inner.apply limits eviction c).Bounded (max peak (inner.entriesDuring eviction c)) ∧
      ∀ before ∈ inner.compactedAt eviction c, before.Halves := by
  have hsame := h.mono (Nat.le_max_left peak inner.len)
  have hread (key : K)
      (hleft : eviction = .lru ∧ key ∈ inner.map → inner.nextStamp.toNat + 1 < 2 ^ 64) :
      (inner.fetch key eviction).2.Bounded (max peak inner.len) ∧
        ∀ before ∈ if eviction = .lru ∧ key ∈ inner.map then some (inner.renewed key) else none,
          before.Halves := by
    rw [fetch_state]
    split
    next hhit =>
      obtain ⟨hready, hlen⟩ := h.ready.renewed (hleft hhit) hhit.2
      rw [touch_eq]
      refine ⟨hready.compact (hlen.trans_le hsame.resident), fun before hbefore => ?_⟩
      obtain rfl := Option.mem_some.1 hbefore
      exact hready.halves
    next => exact ⟨hsame, fun before hbefore => by cases hbefore⟩
  cases c with
  | insert key value weight =>
    have hready := h.ready.place (hstamp rfl) key value weight eviction
    refine ⟨(hready.compact (Nat.le_max_right peak _)).evictOver limits, fun before hbefore => ?_⟩
    obtain rfl := Option.mem_some.1 hbefore
    exact hready.halves
  | fetch key => exact hread key fun hhit => hstamp (decide_eq_true hhit)
  | getRef key =>
    have hstate : (inner.getRef key eviction).2 = (inner.fetch key eviction).2 := by
      rw [getRef_eq]
    rw [Inner.apply, hstate]
    exact hread key fun hhit => hstamp (decide_eq_true hhit)
  | remove key => exact ⟨hsame.remove key, fun before hbefore => by cases hbefore⟩

theorem bounded_new : (new : Inner K V).Bounded 0 :=
  ⟨⟨⟨[], queue_new⟩, Nat.le_refl _⟩, Nat.le_refl _, Nat.zero_le _⟩

/-- Every call of a run that has a stamp left for what it draws. -/
theorem run_settles (limits : Limits) (eviction : Eviction) {calls : List (QueueCall K V)}
    (hstamps : Runs.Along (watch limits eviction)
      (fun w c => w.inner.draws eviction c = true → w.inner.nextStamp.toNat + 1 < 2 ^ 64)
      ⟨new, 0⟩ calls) :
    Runs.Along (watch limits eviction) (Settles limits eviction) ⟨new, 0⟩ calls := by
  have hstep (w : Watched (Inner K V)) (c : QueueCall K V) (h : w.inner.Bounded w.peak)
      (hstamp : w.inner.draws eviction c = true → w.inner.nextStamp.toNat + 1 < 2 ^ 64) :
      (watch limits eviction w c).inner.Bounded (watch limits eviction w c).peak ∧
        Settles limits eviction w c := by
    obtain ⟨hbounded, hhalves⟩ := h.apply limits eviction c hstamp
    exact ⟨hbounded, hbounded.order, hhalves⟩
  exact hstamps.gives hstep bounded_new

theorem watch_run (limits : Limits) (eviction : Eviction) (w : Watched (Inner K V))
    (calls : List (QueueCall K V)) :
    (calls.foldl (watch limits eviction) w).inner =
      calls.foldl (Inner.apply limits eviction) w.inner := by
  induction calls generalizing w with
  | nil => rfl
  | cons c calls ih => exact ih _

/-- A run of calls from any state within the bound. -/
theorem Bounded.run (h : inner.Bounded peak) (limits : Limits) (eviction : Eviction)
    {calls : List (QueueCall K V)}
    (hstamps : Runs.Along (watch limits eviction)
      (fun w c => w.inner.draws eviction c = true → w.inner.nextStamp.toNat + 1 < 2 ^ 64)
      ⟨inner, peak⟩ calls) :
    (calls.foldl (Inner.apply limits eviction) inner).Bounded
      (calls.foldl (watch limits eviction) ⟨inner, peak⟩).peak := by
  have hstep (w : Watched (Inner K V)) (c : QueueCall K V) (h : w.inner.Bounded w.peak)
      (hstamp : w.inner.draws eviction c = true → w.inner.nextStamp.toNat + 1 < 2 ^ 64) :
      (watch limits eviction w c).inner.Bounded (watch limits eviction w c).peak :=
    (h.apply limits eviction c hstamp).1
  have hrun := hstamps.keeps hstep h
  rwa [watch_run] at hrun

end Bound

/-! ### Batches -/

theorem insertBatch_run (limits : Limits) (eviction : Eviction) (inner : Inner K V)
    (entries : List (K × V × Nat)) :
    (insertBatch limits eviction inner entries).2 =
      (entries.map fun e => QueueCall.insert e.1 e.2.1 e.2.2).foldl (apply limits eviction)
        inner := by
  induction entries generalizing inner with
  | nil => rfl
  | cons entry rest ih => exact ih _

theorem fetchBatch_run (limits : Limits) (eviction : Eviction) (inner : Inner K V)
    (keys : List K) :
    (fetchBatch eviction inner keys).2 =
      (keys.map QueueCall.fetch).foldl (apply limits eviction) inner := by
  induction keys generalizing inner with
  | nil => rfl
  | cons key rest ih => exact ih _

theorem removeBatch_run (limits : Limits) (eviction : Eviction) (inner : Inner K V)
    (keys : List K) :
    (inner.removeBatch keys).2 =
      (keys.map QueueCall.remove).foldl (apply limits eviction) inner := by
  induction keys generalizing inner with
  | nil => rfl
  | cons key rest ih => exact ih _

end Inner

namespace MemoryTier
variable {K V : Type} [DecidableEq K]

/-- A call of the tier as single calls, made one after the other under the one lock. -/
def singles (tier : MemoryTier K V) : OrderedCall K V → List (QueueCall K V)
  | .tier (.get key) => [.fetch key]
  | .tier (.exists_ _) => []
  | .tier (.getMany keys) => keys.map .fetch
  | .tier (.put key value) => [.insert key value (tier.weightOf key value)]
  | .tier (.delete key) => [.remove key]
  | .tier (.putMany entries) => entries.map fun e => .insert e.1 e.2 (tier.weightOf e.1 e.2)
  | .tier (.deleteMany keys) => keys.map .remove
  | .getRef key => [.getRef key]
  | .list _ _ => []

theorem perform_singles (tier : MemoryTier K V) (c : OrderedCall K V) :
    (tier.perform c).2 =
      { tier with
        inner := (tier.singles c).foldl (Inner.apply tier.limits tier.eviction) tier.inner } := by
  cases c with
  | tier call =>
    cases call with
    | getMany keys => exact congrArg _ (Inner.fetchBatch_run tier.limits tier.eviction _ keys)
    | putMany entries =>
      have hrun := Inner.insertBatch_run tier.limits tier.eviction tier.inner
        (entries.map fun e => (e.1, e.2, tier.weightOf e.1 e.2))
      rw [List.map_map] at hrun
      exact congrArg _ hrun
    | deleteMany keys => exact congrArg _ (Inner.removeBatch_run tier.limits tier.eviction _ keys)
    | get key => rfl
    | exists_ key => rfl
    | put key value => rfl
    | delete key => rfl
  | getRef key => rfl
  | list cursor limit => rfl

theorem run_singles (tier : MemoryTier K V) (calls : List (OrderedCall K V)) :
    Runs.after perform tier calls =
      { tier with
        inner := (calls.flatMap tier.singles).foldl (Inner.apply tier.limits tier.eviction)
          tier.inner } := by
  induction calls generalizing tier with
  | nil => rfl
  | cons c calls ih =>
    rw [Runs.after_cons, ih, perform_singles, List.flatMap_cons, List.foldl_append]
    rfl

/-- The bound after whole calls of a new tier, batches among them, by the peak of their single
calls. -/
theorem run_bounded {tier : MemoryTier K V} (hnew : tier.inner = .new)
    {calls : List (OrderedCall K V)}
    (hstamps : Runs.Along (Inner.watch tier.limits tier.eviction)
      (fun w c => w.inner.draws tier.eviction c = true → w.inner.nextStamp.toNat + 1 < 2 ^ 64)
      ⟨.new, 0⟩ (calls.flatMap tier.singles)) :
    (Runs.after perform tier calls).inner.Bounded
      ((calls.flatMap tier.singles).foldl (Inner.watch tier.limits tier.eviction)
        ⟨.new, 0⟩).peak := by
  rw [run_singles, hnew]
  exact Inner.bounded_new.run tier.limits tier.eviction hstamps

end MemoryTier

/-! ## The mmap tier -/
namespace Mmap

/-- The lock sections of the tier; a put's records the file and evicts any number of times. -/
inductive LockCall (K : Type) where
  | scanned (key : K) (len : Nat)
  | probe (key : K)
  | retain (key : K) (bytes : Bytes)
  | record (key : K) (len : Nat) (mapped : Option Bytes)
  | evict
  | forget (key : K)
  | clear

namespace Inner
variable {K : Type} [DecidableEq K]

def apply (eviction : Eviction) (inner : Inner K) : LockCall K → Inner K
  | .scanned key len => inner.scanEntry (key, len)
  | .probe key => (inner.probe eviction key).2
  | .retain key bytes => inner.retain eviction key bytes
  | .record key len mapped => inner.record eviction key len mapped
  | .evict =>
    match inner.popOldest with
    | (none, inner) => inner
    | (some oldest, inner) => inner.evict oldest
  | .forget key => inner.forget key
  | .clear => inner.clear

def compactedAt (eviction : Eviction) (inner : Inner K) : LockCall K → Option (Inner K)
  | .scanned key len =>
    some (({ inner with
      total := saturatingAdd inner.total len
      sizes := inner.sizes.insert key len } : Inner K).ticketed key)
  | .probe key =>
    if (inner.maps.lookup key).isSome ∧ eviction = .lru ∧ key ∈ inner.sizes then
      some (inner.ticketed key)
    else none
  | .retain key bytes =>
    if eviction = .lru ∧ key ∈ inner.sizes then
      some (({ inner with maps := inner.maps.insert key bytes } : Inner K).ticketed key)
    else none
  | .record key len mapped =>
    if key ∉ inner.sizes ∨ eviction = .lru then some ((inner.replace key len mapped).ticketed key)
    else none
  | .forget key => some (inner.removeAccounting key).2
  | .evict | .clear => none

def watch (eviction : Eviction) (w : Watched (Inner K)) (c : LockCall K) : Watched (Inner K) :=
  { inner := w.inner.apply eviction c
    peak := max w.peak (w.inner.apply eviction c).sizes.keys.length }

def Halves (inner : Inner K) : Prop :=
  inner.order.length > max (min (inner.sizes.keys.length * 2) usizeMax) 16 →
    2 * inner.compactTickets.order.length ≤ inner.order.length ∧
      inner.compactTickets.order = inner.order.filter inner.live

def Settles (eviction : Eviction) (w : Watched (Inner K)) (c : LockCall K) : Prop :=
  (watch eviction w c).inner.order.length ≤ max 16 (2 * (watch eviction w c).peak) ∧
    ∀ before ∈ w.inner.compactedAt eviction c, before.Halves

/-! ### The bound -/
section Bound
variable {inner : Inner K} {keys : List K} {peak : Nat}

/-- The invariant of the runs: tables in order, no more entries than the peak, and no more tickets
than sixteen or twice the peak. -/
structure Bounded (inner : Inner K) (peak : Nat) : Prop where
  tables : ∃ keys, inner.Tables keys
  resident : inner.sizes.keys.length ≤ peak
  order : inner.order.length ≤ max 16 (2 * peak)

theorem Bounded.mono (h : inner.Bounded peak) {peak' : Nat} (hle : peak ≤ peak') :
    inner.Bounded peak' :=
  ⟨h.tables, h.resident.trans hle, h.order.trans (by omega)⟩

theorem Tables.congr (h : inner.Tables keys) {inner' : Inner K}
    (horder : inner'.order = inner.order)
    (hstamps : inner'.stamps = inner.stamps) (hnext : inner'.nextStamp = inner.nextStamp)
    (hsizes : ∀ key, key ∈ inner'.sizes ↔ key ∈ inner.sizes) : inner'.Tables keys :=
  ⟨h.queue.congr horder hstamps hnext, fun key => (h.sized key).trans (hsizes key).symm⟩

theorem Tables.compact (h : inner.Tables keys) (hpeak : inner.sizes.keys.length ≤ peak) :
    inner.compactTickets.Bounded peak := by
  have hlen := h.length
  have hshort : inner.compactTickets.order.length ≤ max 16 (2 * keys.length) := by
    have hcompact := h.queue.tickets.length_compact 16 usizeMax
    rw [← hlen] at hcompact ⊢
    rw [compactTickets, live_eq]
    split at hcompact
    next hlong => rwa [if_pos hlong]
    next hlong => rwa [if_neg hlong]
  refine ⟨⟨keys, h.queue.compactTickets, fun key => ?_⟩, ?_, hshort.trans (by omega)⟩
  · rw [compactTickets_sizes]
    exact h.sized key
  · rwa [compactTickets_sizes]

theorem Tables.halves (h : inner.Tables keys) (hroom : inner.sizes.keys.length ≤ 2 ^ 63) :
    inner.Halves := by
  have hlive : (inner.order.filter inner.live).length = inner.sizes.keys.length := by
    rw [live_eq, h.queue.tickets.length_live, h.length]
  intro hlong
  have hcompact : inner.compactTickets.order = inner.order.filter inner.live := by
    rw [compactTickets, if_pos hlong]
  refine ⟨?_, hcompact⟩
  rw [hcompact, hlive]
  rw [usizeMax] at hlong
  omega

/-- A new ticket for a key that has its size in the tables already. -/
theorem Queued.settle (h : inner.Queued keys) (hlength : keys.length < 2 ^ 63) {key : K}
    (hsizes : ∀ x, x ∈ inner.sizes ↔ x = key ∨ x ∈ keys)
    (hpeak : inner.sizes.keys.length ≤ peak) :
    (inner.insertTicket key).Bounded peak ∧ (inner.ticketed key).Halves := by
  have hsame : (inner.ticketed key).sizes = inner.sizes := inner.freshStamp_sizes
  have htables : (inner.ticketed key).Tables ((keys.filter fun x => x ≠ key) ++ [key]) := by
    refine ⟨h.ticketed (by omega) key, fun x => ?_⟩
    rw [hsame, hsizes, List.mem_append, List.mem_filter, List.mem_singleton]
    by_cases hx : x = key
    · simp [hx]
    · simp [hx]
  have hroom : (inner.ticketed key).sizes.keys.length ≤ 2 ^ 63 := by
    have hfilter := List.length_filter_le (fun x => decide (x ≠ key)) keys
    rw [htables.length, List.length_append, List.length_singleton]
    omega
  exact ⟨htables.compact (hsame ▸ hpeak), htables.halves hroom⟩

theorem Tables.settle (h : inner.Tables keys) (hroom : inner.sizes.keys.length < 2 ^ 63) {key : K}
    (hkey : key ∈ inner.sizes) (hpeak : inner.sizes.keys.length ≤ peak) :
    (inner.insertTicket key).Bounded peak ∧ (inner.ticketed key).Halves := by
  refine h.queue.settle (h.length ▸ hroom) (fun x => ?_) hpeak
  rw [h.sized]
  exact ⟨.inr, fun hx => hx.elim (fun heq => heq ▸ hkey) id⟩

theorem Bounded.congr (h : inner.Bounded peak) {inner' : Inner K}
    (horder : inner'.order = inner.order) (hstamps : inner'.stamps = inner.stamps)
    (hnext : inner'.nextStamp = inner.nextStamp) (hsizes : inner'.sizes = inner.sizes) :
    inner'.Bounded peak := by
  obtain ⟨⟨keys, htables⟩, hresident, hshort⟩ := h
  refine ⟨⟨keys, htables.congr horder hstamps hnext fun key => by rw [hsizes]⟩, ?_, ?_⟩
  · rwa [hsizes]
  · rwa [horder]

theorem Tables.removed (h : inner.Tables keys) (hroom : inner.sizes.keys.length < 2 ^ 63)
    (key : K) :
    (inner.removeAccounting key).2.Tables (keys.filter fun x => x ≠ key) :=
  (h.perform hroom (.remove key)).2

theorem Bounded.forget (h : inner.Bounded peak) (hroom : inner.sizes.keys.length < 2 ^ 63)
    (key : K) : (inner.forget key).Bounded peak := by
  obtain ⟨keys, htables⟩ := h.tables
  have hremoved := htables.removed hroom key
  refine hremoved.compact ?_
  rw [hremoved.length]
  exact (List.length_filter_le _ _).trans (htables.length ▸ h.resident)

theorem popTickets_length (tickets : List (K × UInt64)) (inner : Inner K) :
    (popTickets tickets inner).2.order.length ≤ tickets.length := by
  induction tickets with
  | nil => exact Nat.le_refl _
  | cons ticket rest ih =>
    rw [popTickets]
    split
    · exact Nat.le_succ _
    · exact ih.trans (Nat.le_succ _)

/-- Evicting the oldest key, if there is one. -/
theorem Bounded.evict (h : inner.Bounded peak) : (inner.apply eviction .evict).Bounded peak := by
  obtain ⟨⟨keys, htables⟩, hresident, horder⟩ := h
  have hlength : inner.popOldest.2.order.length ≤ inner.order.length :=
    popTickets_length inner.order inner
  rw [apply]
  cases keys with
  | nil =>
    have hpop : inner.popOldest = (none, { inner with order := [] }) :=
      popTickets_none htables.queue.tickets
    rw [hpop]
    refine ⟨⟨[], ⟨⟨rfl, List.nodup_nil, htables.queue.tickets.mem⟩, ?_⟩, htables.sized⟩, hresident,
      Nat.zero_le _⟩
    exact fun ticket hticket => by cases hticket
  | cons first rest =>
    obtain ⟨order, hpop, hqueued⟩ := htables.queue.popOldest
    have hnot := (List.nodup_cons.1 htables.queue.tickets.nodup).1
    have hleft : (({ inner with order } : Inner K).evict first).Tables rest := by
      refine ⟨hqueued, fun x => ?_⟩
      have hsized := htables.sized x
      rw [← AList.lookup_isSome] at hsized ⊢
      rw [evict_sizes]
      by_cases hx : x = first
      · simp [hx, hnot]
      · rw [if_neg hx, ← hsized]
        simp [hx]
    rw [hpop] at hlength ⊢
    refine ⟨⟨rest, hleft⟩, ?_, ?_⟩
    · rw [htables.length, List.length_cons] at hresident
      rw [hleft.length]
      omega
    · rw [(evict_queue _ first).1]
      exact hlength.trans horder

/-- A put asks for a ticket unless it replaces under FIFO. -/
theorem record_ticket (inner : Inner K) (eviction : Eviction) (key : K) (len : Nat)
    (mapped : Option Bytes) :
    ∃ total, inner.record eviction key len mapped =
      if key ∉ inner.sizes ∨ eviction = .lru then
        { (inner.replace key len mapped).insertTicket key with total }
      else { inner.replace key len mapped with total } := by
  have hasks : (!(inner.sizes.lookup key).isSome) = true ∨ eviction = .lru ↔
      key ∉ inner.sizes ∨ eviction = .lru := by
    rw [← AList.lookup_isSome, Bool.not_eq_true', Bool.not_eq_true]
  unfold record
  dsimp only
  by_cases hticket : key ∉ inner.sizes ∨ eviction = .lru
  · rw [if_pos (hasks.2 hticket)]
    exact ⟨_, (if_pos hticket).symm⟩
  · rw [if_neg fun h => hticket (hasks.1 h)]
    exact ⟨_, (if_neg hticket).symm⟩

/-- One lock section, with fewer keys than a map can have. -/
theorem Bounded.apply (h : inner.Bounded peak) (hroom : inner.sizes.keys.length < 2 ^ 63)
    (eviction : Eviction) (c : LockCall K) :
    (inner.apply eviction c).Bounded (max peak (inner.apply eviction c).sizes.keys.length) ∧
      ∀ before ∈ inner.compactedAt eviction c, before.Halves := by
  obtain ⟨keys, htables⟩ := h.tables
  have hlength : keys.length < 2 ^ 63 := htables.length ▸ hroom
  have hkept {inner' : Inner K} (h' : inner'.Bounded peak) :
      inner'.Bounded (max peak inner'.sizes.keys.length) := h'.mono (Nat.le_max_left _ _)
  have hnothing : ∀ before ∈ (none : Option (Inner K)), before.Halves :=
    fun before hbefore => by cases hbefore
  have hone {ready : Inner K} (hhalves : ready.Halves) : ∀ before ∈ some ready, before.Halves := by
    intro before hbefore
    obtain rfl := Option.mem_some.1 hbefore
    exact hhalves
  cases c with
  | scanned key len =>
    have hsized : ({ inner with
        total := saturatingAdd inner.total len
        sizes := inner.sizes.insert key len } : Inner K).Queued keys :=
      htables.queue.congr rfl rfl rfl
    obtain ⟨hbounded, hhalves⟩ := hsized.settle hlength
      (fun x => by rw [AList.mem_insert, htables.sized]) (Nat.le_max_right peak _)
    have hsame : (inner.scanEntry (key, len)).sizes = inner.sizes.insert key len :=
      insertTicket_sizes _ _
    rw [Inner.apply, hsame]
    exact ⟨hbounded, hone hhalves⟩
  | probe key =>
    rw [Inner.apply, compactedAt, probe, touch]
    by_cases hhit : (inner.maps.lookup key).isSome = true ∧ eviction = .lru
    · rw [if_pos hhit]
      by_cases hkey : key ∈ inner.sizes
      · obtain ⟨hbounded, hhalves⟩ := htables.settle hroom hkey h.resident
        rw [if_pos hkey, if_pos ⟨hhit.1, hhit.2, hkey⟩]
        exact ⟨hkept hbounded, hone hhalves⟩
      · rw [if_neg hkey, if_neg fun hall => hkey hall.2.2]
        exact ⟨hkept h, hnothing⟩
    · rw [if_neg hhit, if_neg fun hall => hhit ⟨hall.1, hall.2.1⟩]
      exact ⟨hkept h, hnothing⟩
  | retain key bytes =>
    rw [Inner.apply, compactedAt, retain]
    have hmapped : ({ inner with maps := inner.maps.insert key bytes } : Inner K).Bounded peak :=
      h.congr rfl rfl rfl rfl
    by_cases hkey : key ∈ inner.sizes
    · rw [if_pos hkey]
      by_cases hlru : eviction = .lru
      · obtain ⟨mapped, htables'⟩ := hmapped.tables
        obtain ⟨hbounded, hhalves⟩ := htables'.settle hroom hkey h.resident
        have htouch : ({ inner with maps := inner.maps.insert key bytes } : Inner K).touch key =
            ({ inner with maps := inner.maps.insert key bytes } : Inner K).insertTicket key :=
          if_pos hkey
        simp only [if_pos hlru, if_pos (And.intro hlru hkey), htouch]
        exact ⟨hkept hbounded, hone hhalves⟩
      · simp only [if_neg hlru,
          if_neg fun hhit : eviction = .lru ∧ key ∈ inner.sizes => hlru hhit.1]
        exact ⟨hkept hmapped, hnothing⟩
    · rw [if_neg hkey, if_neg fun hhit => hkey hhit.2]
      exact ⟨hkept h, hnothing⟩
  | record key len mapped =>
    have hsame : (inner.record eviction key len mapped).sizes = inner.sizes.insert key len :=
      inner.record_sizes eviction key len mapped
    have hsized : (inner.replace key len mapped).Queued keys := htables.queue.congr rfl rfl rfl
    obtain ⟨total, hrecord⟩ := inner.record_ticket eviction key len mapped
    rw [Inner.apply, compactedAt, hsame, hrecord]
    by_cases hticket : key ∉ inner.sizes ∨ eviction = .lru
    · obtain ⟨hbounded, hhalves⟩ := hsized.settle hlength
        (fun x => (AList.mem_insert _).trans (by rw [htables.sized])) (Nat.le_max_right peak _)
      rw [if_pos hticket, if_pos hticket]
      exact ⟨hbounded.congr rfl rfl rfl rfl, hone hhalves⟩
    · have hkey : key ∈ inner.sizes := by
        by_contra hnew
        exact hticket (.inl hnew)
      have hreplaced : (inner.replace key len mapped).Tables keys :=
        htables.congr rfl rfl rfl fun x => (AList.mem_insert _).trans
          ⟨fun hx => hx.elim (fun heq => heq ▸ hkey) id, .inr⟩
      rw [if_neg hticket, if_neg hticket]
      refine ⟨Bounded.congr ⟨⟨keys, hreplaced⟩, Nat.le_max_right peak _, ?_⟩ rfl rfl rfl rfl,
        hnothing⟩
      exact h.order.trans (by omega)
  | evict => exact ⟨hkept h.evict, hnothing⟩
  | forget key =>
    have hremoved := htables.removed hroom key
    refine ⟨hkept (h.forget hroom key), hone (hremoved.halves ?_)⟩
    rw [hremoved.length]
    exact ((List.length_filter_le _ _).trans hlength.le)
  | clear =>
    refine ⟨⟨⟨[], ⟨.empty _ fun x => ?_, ?_⟩, fun x => ?_⟩, Nat.le_max_right _ _, Nat.zero_le _⟩,
      hnothing⟩
    · exact AList.lookup_empty x
    · exact fun ticket hticket => by cases hticket
    · exact ⟨fun hx => absurd hx List.not_mem_nil, fun hx => absurd hx (AList.notMem_empty x)⟩

theorem bounded_new : (new : Inner K).Bounded 0 :=
  ⟨⟨[], tables_emptyAt 0⟩, Nat.le_refl _, Nat.zero_le _⟩

/-- Every section of a run that has fewer keys than a map can have. -/
theorem run_settles (eviction : Eviction) {sections : List (LockCall K)}
    (hroom : Runs.Along (watch eviction) (fun w _ => w.inner.sizes.keys.length < 2 ^ 63)
      ⟨new, 0⟩ sections) :
    Runs.Along (watch eviction) (Settles eviction) ⟨new, 0⟩ sections := by
  have hstep (w : Watched (Inner K)) (c : LockCall K) (h : w.inner.Bounded w.peak)
      (hsmall : w.inner.sizes.keys.length < 2 ^ 63) :
      (watch eviction w c).inner.Bounded (watch eviction w c).peak ∧ Settles eviction w c := by
    obtain ⟨hbounded, hhalves⟩ := h.apply hsmall eviction c
    exact ⟨hbounded, hbounded.order, hhalves⟩
  exact hroom.gives hstep bounded_new

/-! ### Whole calls -/

/-- The eviction loop of a put is a run of evictions. -/
theorem evictLoop_evicts (eviction : Eviction) (budget fuel : Nat) (inner : Inner K)
    (files : K → Option Bytes) :
    ∃ n, (evictLoop budget fuel inner files).2.1 =
      (List.replicate n LockCall.evict).foldl (Inner.apply eviction) inner := by
  induction fuel generalizing inner files with
  | zero => exact ⟨0, rfl⟩
  | succ fuel ih =>
    rw [evictLoop]
    split
    · cases hpop : inner.popOldest with
      | mk oldest popped =>
        have hone : inner.apply eviction .evict =
            match (oldest, popped) with
            | (none, inner) => inner
            | (some oldest, inner) => inner.evict oldest := by rw [Inner.apply, hpop]
        cases oldest with
        | none => exact ⟨1, hone.symm⟩
        | some oldest =>
          obtain ⟨n, hn⟩ := ih (popped.evict oldest) (Overlay.erase files oldest)
          refine ⟨n + 1, ?_⟩
          rw [List.replicate_succ, List.foldl_cons, hone]
          exact hn
    · exact ⟨0, rfl⟩

theorem Bounded.evicts (h : inner.Bounded peak) (eviction : Eviction) (n : Nat) :
    ((List.replicate n LockCall.evict).foldl (Inner.apply eviction) inner).Bounded peak := by
  induction n generalizing inner with
  | zero => exact h
  | succ n ih => exact ih h.evict

end Bound
end Inner

section Queries
variable {K : Type} [DecidableEq K] {config : Config} {s : State K} {peak : Nat}

/-- The most entries that a query has in the tables: a put's counts before the eviction. -/
def entriesDuring (config : Config) (s : State K) : MmapQuery K → Nat
  | .account key len mapped =>
    (s.inner.record config.eviction key len mapped).sizes.keys.length
  | _ => s.inner.sizes.keys.length

theorem account_bounded (h : s.inner.Bounded peak) (hroom : s.inner.sizes.keys.length < 2 ^ 63)
    (key : K) (len : Nat) (mapped : Option Bytes) :
    (account config s key len mapped).2.inner.Bounded
      (max peak (s.inner.record config.eviction key len mapped).sizes.keys.length) := by
  have hrecorded := (h.apply hroom config.eviction (.record key len mapped)).1
  cases hbudget : config.budget with
  | none =>
    simp only [account, hbudget]
    exact hrecorded
  | some budget =>
    obtain ⟨n, hn⟩ := Inner.evictLoop_evicts config.eviction budget
      (s.inner.record config.eviction key len mapped).order.length
      (s.inner.record config.eviction key len mapped) s.disk.files
    simp only [account, hbudget, hn]
    exact hrecorded.evicts config.eviction n

/-- Every query that takes the lock, a put's with its evictions. -/
theorem exec_bounded (h : s.inner.Bounded peak) (hroom : s.inner.sizes.keys.length < 2 ^ 63)
    (q : MmapQuery K) :
    (exec config q s).2.inner.Bounded (max peak (entriesDuring config s q)) := by
  have hpeak := Nat.le_max_left peak s.inner.sizes.keys.length
  have hsection (c : LockCall K)
      (hsizes : (s.inner.apply config.eviction c).sizes = s.inner.sizes) :
      (s.inner.apply config.eviction c).Bounded (max peak s.inner.sizes.keys.length) :=
    hsizes ▸ (h.apply hroom config.eviction c).1
  cases q with
  | writeTmp key value => exact h.mono hpeak
  | rename key =>
    unfold exec
    dsimp only
    cases s.disk.tmp key with
    | none => exact h.mono hpeak
    | some bytes => exact h.mono hpeak
  | map key => exact h.mono hpeak
  | unlink key => exact h.mono hpeak
  | probe key => exact hsection (.probe key) (s.inner.probe_sizes config.eviction key)
  | retain key bytes =>
    exact hsection (.retain key bytes) (s.inner.retain_sizes config.eviction key bytes)
  | account key len mapped => exact account_bounded h hroom key len mapped
  | forget key => exact (h.forget hroom key).mono hpeak

/-- The bound in every state of the tier's calls, however they interleave, by the most entries that
their queries have in the tables. -/
theorem pool_bounded {ι : Type} [DecidableEq ι] (config : Config) (calls : ι → MmapCall K)
    (disk : Disk K) {schedule : List ι} (hpeak : peak < 2 ^ 63)
    (hresident : Runs.Along (step config)
      (fun c i => ∀ q ∈ (c.threads i).asks, entriesDuring config c.shared q ≤ peak)
      (start calls ⟨.new, disk⟩) schedule) :
    (run config (start calls ⟨.new, disk⟩) schedule).shared.inner.Bounded peak := by
  have hstep (c : MmapPool K calls) (i : ι) (h : c.shared.inner.Bounded peak)
      (hasked : ∀ q ∈ (c.threads i).asks, entriesDuring config c.shared q ≤ peak) :
      (step config c i).shared.inner.Bounded peak := by
    obtain hsame | ⟨q, next, r, s, hthread, hexec, heq⟩ :=
      Effects.Pool.step_cases (fun q s => some (exec config q s)) c i
    · rw [step, hsame]
      exact h
    · obtain rfl : (exec config q c.shared).2 = s := congrArg Prod.snd (Option.some.inj hexec)
      have hle := hasked q (by rw [hthread]; rfl)
      rw [step, heq]
      exact (exec_bounded h (h.resident.trans_lt hpeak) q).mono (by omega)
  exact hresident.keeps hstep (Inner.bounded_new.mono (Nat.zero_le peak))

end Queries
end Mmap

/-! ## Both tiers -/

/-- While the memory tier has stamps left and the mmap tier fewer than `2 ^ 63` keys, no call leaves
more tickets than sixteen or twice the peak, and each compaction halves the queue in order. -/
theorem queues_stay_bounded {K K' V : Type} [DecidableEq K] [DecidableEq K'] (limits : Limits)
    (eviction eviction' : Eviction) (calls : List (QueueCall K V))
    (sections : List (Mmap.LockCall K'))
    (hstamps : Runs.Along (Inner.watch limits eviction)
      (fun w c => w.inner.draws eviction c = true → w.inner.nextStamp.toNat + 1 < 2 ^ 64)
      ⟨.new, 0⟩ calls)
    (hroom : Runs.Along (Mmap.Inner.watch eviction')
      (fun w _ => w.inner.sizes.keys.length < 2 ^ 63) ⟨.new, 0⟩ sections) :
    Runs.Along (Inner.watch limits eviction) (Inner.Settles limits eviction) ⟨.new, 0⟩ calls ∧
      Runs.Along (Mmap.Inner.watch eviction') (Mmap.Inner.Settles eviction') ⟨.new, 0⟩ sections :=
  ⟨Inner.run_settles limits eviction hstamps, Mmap.Inner.run_settles eviction' hroom⟩

/-- One key read over and over in each tier: the seventeenth ticket brings the queue down to one. -/
theorem queues_stay_bounded_hot :
    let calls : List (QueueCall Nat Nat) := .insert 1 10 0 :: List.replicate 17 (.fetch 1) ++
      [.getRef 1, .insert 2 20 0, .remove 2]
    let sections : List (Mmap.LockCall Nat) := .scanned 1 4 :: .record 1 5 (some []) ::
      List.replicate 17 (.probe 1) ++ [.retain 1 [], .evict, .forget 1, .clear]
    (Runs.Along (Inner.watch ⟨some 1, none⟩ .lru) (Inner.Settles ⟨some 1, none⟩ .lru) ⟨.new, 0⟩
          calls ∧
        Runs.Along (Mmap.Inner.watch .lru) (Mmap.Inner.Settles .lru) ⟨.new, 0⟩ sections) ∧
      (List.range 19).map (fun n =>
        ((calls.take n).foldl (Inner.watch ⟨some 1, none⟩ .lru) ⟨.new, 0⟩).inner.order.length) =
        List.range 17 ++ [1, 2] ∧
      (List.range 19).map (fun n =>
        ((sections.take n).foldl (Mmap.Inner.watch .lru) ⟨.new, 0⟩).inner.order.length) =
        List.range 17 ++ [1, 2] :=
  ⟨queues_stay_bounded _ _ _ _ _ (by decide) (by decide), by decide, by decide⟩

/-! ## Past the last stamp -/
namespace OutgrownQueue
open Tierstore.Inner

def limitless : Limits := { entries := none, bytes := none }

def behind (stale : Nat) (drawn : UInt64) : Watched (Inner Nat Nat) :=
  { inner :=
      { map := AList.insert 2 { value := 20, weight := 0, stamp := 1 } ∅
        order := (2, 1) :: List.replicate stale (1, 2)
        totalWeight := 0
        nextStamp := drawn }
    peak := 2 }

/-- Replaces key 2 until the counter is back at one, and then adds and removes key 1. -/
def lap (spins : Nat) : List (QueueCall Nat Nat) :=
  List.replicate spins (.insert 2 20 0) ++ [.insert 1 10 0, .remove 1]

theorem compact_short {inner : Inner Nat Nat} (h : inner.order.length ≤ 16) :
    inner.compact = inner := by
  rw [Inner.compact, if_neg]
  omega

theorem spin_behind {stale : Nat} (hstale : stale ≤ 15) (drawn : UInt64) :
    watch limitless .fifo (behind stale drawn) (.insert 2 20 0) = behind stale (drawn + 1) := by
  have hplace : (behind stale drawn).inner.place 2 20 0 .fifo = (behind stale (drawn + 1)).inner :=
    rfl
  have hshort : (behind stale (drawn + 1)).inner.order.length ≤ 16 := by
    rw [behind, List.length_cons, List.length_replicate]
    omega
  rw [watch, apply, Inner.insert, hplace, compact_short hshort, entriesDuring, hplace]
  rfl

theorem spins_behind {stale : Nat} (hstale : stale ≤ 15) (spins : Nat) (drawn : UInt64) :
    (List.replicate spins (QueueCall.insert 2 20 0)).foldl (watch limitless .fifo)
      (behind stale drawn) = behind stale (drawn + UInt64.ofNat spins) := by
  induction spins generalizing drawn with
  | zero => simp
  | succ spins ih =>
    rw [List.replicate_succ, List.foldl_cons, spin_behind hstale, ih]
    congr 1
    rw [UInt64.ofNat_add, UInt64.add_assoc, UInt64.add_comm 1]
    rfl

/-- Key 1 leaves one more ticket that looks like the others. -/
theorem readd_behind {stale : Nat} (hstale : stale ≤ 14) :
    [QueueCall.insert 1 10 0, .remove 1].foldl (watch limitless .fifo) (behind stale 1) =
      behind (stale + 1) 2 := by
  have hshort : ((behind stale 1).inner.place 1 10 0 .fifo).order.length ≤ 16 := by
    change (((2, 1) :: List.replicate stale (1, 2)) ++ [((1 : Nat), (2 : UInt64))]).length ≤ 16
    rw [List.length_append, List.length_cons, List.length_replicate, List.length_singleton]
    omega
  have hqueue : (2, 1) :: List.replicate stale (1, 2) ++ [((1 : Nat), (2 : UInt64))] =
      (2, 1) :: List.replicate (stale + 1) (1, 2) := by
    rw [List.cons_append, ← List.replicate_succ']
  calc [QueueCall.insert 1 10 0, .remove 1].foldl (watch limitless .fifo) (behind stale 1)
    _ = { (behind stale 2) with
          inner := { (behind stale 2).inner with
            order := (2, 1) :: List.replicate stale (1, 2) ++ [(1, 2)] } } := by
      rw [List.foldl_cons, watch, apply, Inner.insert, compact_short hshort]
      rfl
    _ = behind (stale + 1) 2 := by
      rw [hqueue]
      rfl

theorem laps_behind {spins : Nat} (hspins : 2 + UInt64.ofNat spins = 1) {laps : Nat}
    (hlaps : laps ≤ 14) :
    (List.replicate laps (lap spins)).flatten.foldl (watch limitless .fifo) (behind 1 2) =
      behind (1 + laps) 2 := by
  induction laps with
  | zero => rfl
  | succ laps ih =>
    rw [List.replicate_succ', List.flatten_append, List.foldl_append, ih (by omega),
      List.flatten_singleton, lap, List.foldl_append, spins_behind (by omega), hspins]
    exact readd_behind (by omega)

/-- Key 2, and key 1 again and again, each time after the counter has gone all the way round. -/
def outgrowing (spins : Nat) : List (QueueCall Nat Nat) :=
  [.insert 2 20 0, .insert 1 10 0, .remove 1] ++ (List.replicate 14 (lap spins)).flatten ++
    (List.replicate spins (.insert 2 20 0) ++ [.insert 1 10 0])

theorem after_outgrowing {spins : Nat} (hspins : 2 + UInt64.ofNat spins = 1) :
    (outgrowing spins).foldl (watch limitless .fifo) ⟨.new, 0⟩ =
      watch limitless .fifo (behind 15 1) (.insert 1 10 0) := by
  have hstart : [QueueCall.insert 2 20 0, .insert 1 10 0, .remove 1].foldl
      (watch limitless .fifo) ⟨.new, 0⟩ = behind 1 2 := rfl
  rw [outgrowing, List.append_assoc, List.foldl_append, hstart, List.foldl_append,
    laps_behind hspins (Nat.le_refl 14), List.foldl_append, spins_behind (Nat.le_refl 15), hspins]
  rfl

/-- Two entries at most were ever resident, and the queue has seventeen tickets, all of them live:
the last compaction dropped none. -/
theorem queue_outgrows :
    let w := (outgrowing (2 ^ 64 - 1)).foldl (watch limitless .fifo) ⟨.new, 0⟩
    w.peak = 2 ∧ w.inner.order.length = 17 ∧ ¬ w.inner.order.length ≤ max 16 (2 * w.peak) := by
  rw [after_outgrowing (by rfl)]
  decide

end OutgrownQueue
end Tierstore
