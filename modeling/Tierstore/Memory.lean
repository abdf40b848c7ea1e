import Mathlib.Algebra.GroupWithZero.Nat
import Mathlib.Data.List.AList
import Mathlib.Data.PNat.Defs
import Tierstore.Core.Contract
import Tierstore.Core.Policy

/-! The in-memory tier: a map with an eviction queue of stamped tickets, bounded by entry
count or by total weight. It meets the tier contract and never fails. -/
namespace Tierstore
open Overlay

abbrev Usize := Fin (2 ^ 64)

def usizeMax : Nat := 2 ^ 64 - 1

/-- `usize::saturating_add`; `saturating_sub` is the subtraction of `Nat`. -/
def saturatingAdd (a b : Nat) : Nat := min (a + b) usizeMax

structure Limits where
  entries : Option Nat
  bytes : Option Nat

structure Entry (V : Type) where
  value : V
  weight : Nat
  stamp : UInt64

structure Inner (K V : Type) where
  map : AList fun _ : K => Entry V
  order : List (K × UInt64)
  totalWeight : Nat
  nextStamp : UInt64

structure Page (K C : Type) where
  keys : List K
  next : Option C

namespace Inner
variable {K V : Type}

def new : Inner K V := { map := ∅, order := [], totalWeight := 0, nextStamp := 0 }

/-- `+= 1` on a `u64`, which wraps in a release build. -/
def freshStamp (inner : Inner K V) : UInt64 × Inner K V :=
  (inner.nextStamp + 1, { inner with nextStamp := inner.nextStamp + 1 })

variable [DecidableEq K]

/-- A ticket is live iff the entry of its key carries its stamp. -/
def live (inner : Inner K V) (ticket : K × UInt64) : Bool :=
  (inner.map.lookup ticket.1).any fun entry => entry.stamp == ticket.2

def len (inner : Inner K V) : Nat := inner.map.keys.length

def isOver (inner : Inner K V) (limits : Limits) : Bool :=
  limits.entries.any (fun max => inner.len > max) ||
    limits.bytes.any (fun max => inner.totalWeight > max)

/-- Drops stale tickets once they dominate the queue. -/
def compact (inner : Inner K V) : Inner K V :=
  if inner.order.length > max (min (inner.len * 2) usizeMax) 16 then
    { inner with order := inner.order.filter inner.live }
  else inner

/-- The entry leaves the map and its weight the total; its ticket goes stale. -/
def take (inner : Inner K V) (key : K) (entry : Entry V) : Inner K V :=
  { inner with map := inner.map.erase key, totalWeight := inner.totalWeight - entry.weight }

def evictTickets (limits : Limits) :
    List (K × UInt64) → Inner K V → Displaced K V × Inner K V
  | [], inner => ([], { inner with order := [] })
  | (oldest, stamp) :: rest, inner =>
    if !inner.isOver limits then ([], { inner with order := (oldest, stamp) :: rest })
    else
      match inner.map.lookup oldest with
      | none => evictTickets limits rest inner
      | some entry =>
        if entry.stamp = stamp then
          let out := evictTickets limits rest (inner.take oldest entry)
          ((oldest, entry.value) :: out.1, out.2)
        else evictTickets limits rest inner

def evictOver (inner : Inner K V) (limits : Limits) : Displaced K V × Inner K V :=
  evictTickets limits inner.order inner

/-- The first half of `insert`: the map, the queue and the total take the entry. FIFO
keeps the queue position of a replaced key, LRU counts the replacement as a use. -/
def place (inner : Inner K V) (key : K) (value : V) (weight : Nat) (eviction : Eviction) :
    Inner K V :=
  let (stamp, inner) := inner.freshStamp
  match inner.map.lookup key with
  | some entry =>
    let total := saturatingAdd inner.totalWeight weight - entry.weight
    match eviction with
    | .fifo =>
      { inner with
        map := inner.map.insert key { value, weight, stamp := entry.stamp }
        totalWeight := total }
    | .lru =>
      { inner with
        map := inner.map.insert key { value, weight, stamp }
        order := inner.order ++ [(key, stamp)]
        totalWeight := total }
  | none =>
    { inner with
      map := inner.map.insert key { value, weight, stamp }
      order := inner.order ++ [(key, stamp)]
      totalWeight := saturatingAdd inner.totalWeight weight }

def insert (inner : Inner K V) (key : K) (value : V) (weight : Nat) (limits : Limits)
    (eviction : Eviction) : Displaced K V × Inner K V :=
  (inner.place key value weight eviction).compact.evictOver limits

def insertBatch (limits : Limits) (eviction : Eviction) :
    Inner K V → List (K × V × Nat) → Displaced K V × Inner K V
  | inner, [] => ([], inner)
  | inner, (key, value, weight) :: rest =>
    let first := inner.insert key value weight limits eviction
    let more := insertBatch limits eviction first.2 rest
    (first.1 ++ more.1, more.2)

def touch (inner : Inner K V) (key : K) : Inner K V :=
  let (stamp, inner) := inner.freshStamp
  match inner.map.lookup key with
  | some entry =>
    { inner with
      map := inner.map.insert key { entry with stamp }
      order := inner.order ++ [(key, stamp)] }.compact
  | none => inner.compact

def fetch (inner : Inner K V) (key : K) (eviction : Eviction) : Option V × Inner K V :=
  let inner := if eviction = .lru ∧ key ∈ inner.map then inner.touch key else inner
  ((inner.map.lookup key).map Entry.value, inner)

/-- `get_ref`: the view, and the value it dereferences to while the lock is held. -/
def getRef (inner : Inner K V) (key : K) (eviction : Eviction) : Option (Option V) × Inner K V :=
  if key ∈ inner.map then
    let inner := if eviction = .lru then inner.touch key else inner
    (some ((inner.map.lookup key).map Entry.value), inner)
  else (none, inner)

def fetchBatch (eviction : Eviction) : Inner K V → List K → List (Option V) × Inner K V
  | inner, [] => ([], inner)
  | inner, key :: rest =>
    let first := inner.fetch key eviction
    let more := fetchBatch eviction first.2 rest
    (first.1 :: more.1, more.2)

def remove (inner : Inner K V) (key : K) : Bool × Inner K V :=
  match inner.map.lookup key with
  | none => (false, inner)
  | some entry => (true, inner.take key entry)

def removeBatch : Inner K V → List K → List Bool × Inner K V
  | inner, [] => ([], inner)
  | inner, key :: rest =>
    let first := inner.remove key
    let more := removeBatch first.2 rest
    (first.1 :: more.1, more.2)

def page (inner : Inner K V) (cursor : Option Nat) (limit : Nat) : Page K Nat :=
  let live := (inner.order.filter inner.live).map Prod.fst
  let offset := cursor.getD 0
  let keys := (live.drop offset).take limit
  let next := min (offset + keys.length) usizeMax
  { keys, next := if limit > 0 ∧ next < live.length then some next else none }

end Inner

structure ByteBudget (K V : Type) where
  budget : ℕ+
  weigh : K → V → Usize

structure MemoryTier (K V : Type) where
  maxEntries : Option ℕ+
  bytes : Option (ByteBudget K V)
  eviction : Eviction
  inner : Inner K V

namespace MemoryTier
variable {K V : Type}

def unbounded : MemoryTier K V :=
  { maxEntries := none, bytes := none, eviction := .fifo, inner := .new }

def bounded (capacity : ℕ+) : MemoryTier K V := { unbounded with maxEntries := some capacity }

def oneSlot : MemoryTier K V := bounded 1

def boundedBytes (budget : ℕ+) (weigh : K → V → Usize) : MemoryTier K V :=
  { unbounded with bytes := some { budget, weigh } }

def withEviction (tier : MemoryTier K V) (eviction : Eviction) : MemoryTier K V :=
  { tier with eviction }

def weightOf (tier : MemoryTier K V) (key : K) (value : V) : Nat :=
  match tier.bytes with
  | none => 0
  | some b => b.weigh key value

def limits (tier : MemoryTier K V) : Limits :=
  { entries := tier.maxEntries.map PNat.val, bytes := tier.bytes.map fun b => b.budget }

variable [DecidableEq K]

def len (tier : MemoryTier K V) : Nat := tier.inner.len

def weight (tier : MemoryTier K V) : Nat := tier.inner.totalWeight

instance : Tier (MemoryTier K V) K V Infallible where
  get tier key :=
    let out := tier.inner.fetch key tier.eviction
    (.ok out.1, { tier with inner := out.2 })
  exists_ tier key := (.ok (decide (key ∈ tier.inner.map)), tier)
  getMany tier keys :=
    let out := Inner.fetchBatch tier.eviction tier.inner keys
    (.ok out.1, { tier with inner := out.2 })
  put tier key value :=
    let out := tier.inner.insert key value (tier.weightOf key value) tier.limits tier.eviction
    (.ok out.1, { tier with inner := out.2 })
  delete tier key :=
    let out := tier.inner.remove key
    (.ok out.1, { tier with inner := out.2 })
  putMany tier entries :=
    let weighted := entries.map fun e => (e.1, e.2, tier.weightOf e.1 e.2)
    let out := Inner.insertBatch tier.limits tier.eviction tier.inner weighted
    (.ok out.1, { tier with inner := out.2 })
  deleteMany tier keys :=
    let out := tier.inner.removeBatch keys
    (.ok out.1, { tier with inner := out.2 })

end MemoryTier

/-! ## The contract -/
namespace Inner
variable {K V : Type} [DecidableEq K]

def values (inner : Inner K V) : K → Option V :=
  fun key => (inner.map.lookup key).map Entry.value

@[simp] theorem values_new : (new : Inner K V).values = empty := by
  funext x
  simp [values, new]

@[simp] theorem values_with_order (inner : Inner K V) (order : List (K × UInt64)) :
    values { inner with order } = inner.values := rfl

@[simp] theorem values_compact (inner : Inner K V) : inner.compact.values = inner.values := by
  unfold compact
  split <;> rfl

theorem values_take (inner : Inner K V) (key : K) (entry : Entry V) :
    (inner.take key entry).values = erase inner.values key := by
  funext x
  by_cases hx : x = key
  · subst x
    simp [values, take, erase]
  · simp [values, take, erase, hx, AList.lookup_erase_ne hx]

theorem values_of_insert {inner : Inner K V} {map : AList fun _ : K => Entry V} {key : K}
    {entry : Entry V} (h : map = inner.map.insert key entry) :
    (fun x => (map.lookup x).map Entry.value) = write inner.values [(key, entry.value)] := by
  funext x
  rw [h, write_singleton]
  by_cases hx : x = key
  · subst x
    simp
  · simp [hx, AList.lookup_insert_ne hx, values]

theorem values_place (inner : Inner K V) (key : K) (value : V) (weight : Nat)
    (eviction : Eviction) :
    (inner.place key value weight eviction).values = write inner.values [(key, value)] := by
  unfold place
  cases hk : inner.map.lookup key with
  | none =>
    simp only [freshStamp, hk]
    exact values_of_insert rfl
  | some entry =>
    simp only [freshStamp, hk]
    cases eviction <;> exact values_of_insert rfl

/-- Eviction moves entries from the map to the displaced list and drops none. -/
theorem evictTickets_conserves (limits : Limits) (tickets : List (K × UInt64))
    (inner : Inner K V) :
    Overlay.atop (evictTickets limits tickets inner).2.values
      (latest (evictTickets limits tickets inner).1) = inner.values := by
  induction tickets generalizing inner with
  | nil => simp [evictTickets]
  | cons ticket rest ih =>
    obtain ⟨oldest, stamp⟩ := ticket
    rw [evictTickets]
    split
    · simp
    · cases hk : inner.map.lookup oldest with
      | none => exact ih inner
      | some entry =>
        dsimp only
        split
        · have hv : inner.values oldest = some entry.value := by simp [values, hk]
          have h := ih (inner.take oldest entry)
          rw [values_take] at h
          rw [latest, ← atop_assoc, h, atop_erase_single hv]
        · exact ih inner

theorem evictTickets_displaced (limits : Limits) (tickets : List (K × UInt64))
    (inner : Inner K V) :
    ∀ e ∈ (evictTickets limits tickets inner).1, inner.values e.1 = some e.2 := by
  induction tickets generalizing inner with
  | nil => simp [evictTickets]
  | cons ticket rest ih =>
    obtain ⟨oldest, stamp⟩ := ticket
    rw [evictTickets]
    split
    · simp
    · cases hk : inner.map.lookup oldest with
      | none => exact ih inner
      | some entry =>
        dsimp only
        split
        · intro e he
          rcases List.mem_cons.1 he with rfl | he
          · simp [values, hk]
          · have h := ih (inner.take oldest entry) e he
            rw [values_take, erase] at h
            split at h
            · cases h
            · exact h
        · exact ih inner

theorem insert_conserves (inner : Inner K V) (key : K) (value : V) (weight : Nat)
    (limits : Limits) (eviction : Eviction) :
    Overlay.atop (inner.insert key value weight limits eviction).2.values
      (latest (inner.insert key value weight limits eviction).1) =
        write inner.values [(key, value)] := by
  rw [insert, evictOver, evictTickets_conserves, values_compact, values_place]

theorem insert_displaced (inner : Inner K V) (key : K) (value : V) (weight : Nat)
    (limits : Limits) (eviction : Eviction) :
    ∀ e ∈ (inner.insert key value weight limits eviction).1,
      write inner.values [(key, value)] e.1 = some e.2 := by
  intro e he
  have h := evictTickets_displaced limits _ _ e he
  rwa [values_compact, values_place] at h

def insertOne (limits : Limits) (eviction : Eviction) (weigh : K → V → Nat) (inner : Inner K V)
    (key : K) (value : V) : Except Infallible (Displaced K V) × Inner K V :=
  let out := inner.insert key value (weigh key value) limits eviction
  (.ok out.1, out.2)

def insertWeighed (limits : Limits) (eviction : Eviction) (weigh : K → V → Nat)
    (inner : Inner K V) (entries : List (K × V)) : Displaced K V × Inner K V :=
  insertBatch limits eviction inner (entries.map fun e => (e.1, e.2, weigh e.1 e.2))

/-- `put_many` is the looping default under one lock. -/
theorem insertWeighed_eq_default (limits : Limits) (eviction : Eviction) (weigh : K → V → Nat)
    (inner : Inner K V) (entries : List (K × V)) :
    putManyDefault (insertOne limits eviction weigh) inner entries =
      (.ok (insertWeighed limits eviction weigh inner entries).1,
        (insertWeighed limits eviction weigh inner entries).2) := by
  induction entries generalizing inner with
  | nil => rfl
  | cons e rest ih =>
    simp only [putManyDefault, insertOne, ih, insertWeighed, List.map_cons, insertBatch]
    rfl

@[simp] theorem values_touch (inner : Inner K V) (key : K) :
    (inner.touch key).values = inner.values := by
  unfold touch
  cases hk : inner.map.lookup key with
  | none =>
    simp only [freshStamp, hk, values_compact]
    rfl
  | some entry =>
    simp only [freshStamp, hk, values_compact]
    funext x
    by_cases hx : x = key
    · subst x
      simp [values, hk]
    · simp [values, AList.lookup_insert_ne hx]

@[simp] theorem values_fetch (inner : Inner K V) (key : K) (eviction : Eviction) :
    (inner.fetch key eviction).2.values = inner.values := by
  unfold fetch
  split <;> simp

theorem fetch_state (inner : Inner K V) (key : K) (eviction : Eviction) :
    (inner.fetch key eviction).2 =
      if eviction = .lru ∧ key ∈ inner.map then inner.touch key else inner := rfl

theorem fetch_value (inner : Inner K V) (key : K) (eviction : Eviction) :
    (inner.fetch key eviction).1 = inner.values key := by
  have h := congrFun (values_fetch inner key eviction) key
  exact h

@[simp] theorem values_fetchBatch (eviction : Eviction) (inner : Inner K V) (keys : List K) :
    (fetchBatch eviction inner keys).2.values = inner.values := by
  induction keys generalizing inner with
  | nil => rfl
  | cons key rest ih => exact (ih _).trans (values_fetch inner key eviction)

theorem fetchBatch_value (eviction : Eviction) (inner : Inner K V) (keys : List K) :
    (fetchBatch eviction inner keys).1 = keys.map inner.values := by
  induction keys generalizing inner with
  | nil => rfl
  | cons key rest ih =>
    rw [fetchBatch, ih, values_fetch, fetch_value, List.map_cons]

theorem values_remove (inner : Inner K V) (key : K) :
    (inner.remove key).2.values = erase inner.values key := by
  unfold remove
  cases hk : inner.map.lookup key with
  | some entry => exact values_take inner key entry
  | none =>
    funext x
    by_cases hx : x = key
    · subst x
      simp [values, erase, hk]
    · simp [erase, hx]

theorem values_removeBatch (inner : Inner K V) (keys : List K) :
    (inner.removeBatch keys).2.values = eraseAll inner.values keys := by
  induction keys generalizing inner with
  | nil =>
    funext x
    simp [removeBatch, eraseAll]
  | cons key rest ih =>
    calc (inner.removeBatch (key :: rest)).2.values
        = eraseAll (eraseAll inner.values [key]) rest := by
          rw [removeBatch, ih, values_remove, eraseAll_singleton]
      _ = eraseAll inner.values (key :: rest) := (eraseAll_append _ _ _).symm

theorem insertWeighed_conserves (limits : Limits) (eviction : Eviction) (weigh : K → V → Nat)
    (inner : Inner K V) (entries : List (K × V)) :
    Overlay.atop (insertWeighed limits eviction weigh inner entries).2.values
      (latest (insertWeighed limits eviction weigh inner entries).1) =
        write inner.values entries := by
  have heq := insertWeighed_eq_default limits eviction weigh inner entries
  have h := @putManyDefault_ok _ _ _ _ _ (insertOne limits eviction weigh) values
    (fun inner key value d hd => by
      cases hd
      exact insert_conserves inner key value (weigh key value) limits eviction)
    inner entries _ (congrArg Prod.fst heq)
  rwa [congrArg Prod.snd heq] at h

theorem insertWeighed_displaced (limits : Limits) (eviction : Eviction) (weigh : K → V → Nat)
    (inner : Inner K V) (entries : List (K × V)) :
    ∀ e ∈ (insertWeighed limits eviction weigh inner entries).1,
      e ∈ entries ∨ inner.values e.1 = some e.2 := by
  have heq := insertWeighed_eq_default limits eviction weigh inner entries
  refine putManyDefault_displaced ?_ ?_ inner entries _ (congrArg Prod.fst heq)
  · intro inner key value x w hx
    have hcons := insert_conserves inner key value (weigh key value) limits eviction
    exact write_singleton_cases (by rw [← hcons]; exact atop_of_some hx _)
  · intro inner key value d hd e he
    cases hd
    exact write_singleton_cases (insert_displaced inner key value _ limits eviction e he)

end Inner

namespace MemoryTier
variable {K V : Type} [DecidableEq K]

instance : LawfulTier (MemoryTier K V) where
  contents tier := tier.inner.values
  get_contents tier k := Inner.values_fetch tier.inner k tier.eviction
  get_ok tier k a h := by
    cases h
    exact Inner.fetch_value tier.inner k tier.eviction
  exists_contents _ _ := rfl
  exists_ok tier k b h := by
    cases h
    have hmem : (tier.inner.map.lookup k).isSome ↔ k ∈ tier.inner.map := AList.lookup_isSome
    simp only [Inner.values, Option.isSome_map]
    exact (Bool.eq_iff_iff.2 (by simpa using hmem.symm))
  getMany_contents tier ks := Inner.values_fetchBatch tier.eviction tier.inner ks
  getMany_ok tier ks vs h := by
    cases h
    exact Inner.fetchBatch_value tier.eviction tier.inner ks
  put_error _ _ _ e := e.elim
  put_ok tier k v d h := by
    cases h
    exact Inner.insert_conserves tier.inner k v _ _ _
  put_displaced tier k v d h := by
    cases h
    exact Inner.insert_displaced tier.inner k v _ _ _
  delete_error _ _ e := e.elim
  delete_ok tier k b _ := Inner.values_remove tier.inner k
  putMany_ok tier es d h := by
    cases h
    exact Inner.insertWeighed_conserves _ _ tier.weightOf tier.inner es
  putMany_displaced tier es d h := by
    cases h
    exact Inner.insertWeighed_displaced _ _ tier.weightOf tier.inner es
  putMany_contents tier es k v h := by
    have hc := Inner.insertWeighed_conserves tier.limits tier.eviction tier.weightOf
      tier.inner es
    have hw : write tier.inner.values es k = some v := by
      rw [← hc]
      exact atop_of_some h _
    cases he : latest es k with
    | some w =>
      rw [write, atop_of_some he] at hw
      cases hw
      exact Or.inl (latest_mem he)
    | none => exact Or.inr (by rwa [write, atop_of_none he] at hw)
  deleteMany_ok tier ks _ _ := Inner.values_removeBatch tier.inner ks
  deleteMany_error _ _ e := e.elim

def Unbounded (tier : MemoryTier K V) : Prop := tier.maxEntries = none ∧ tier.bytes = none

end MemoryTier

namespace Inner
variable {K V : Type} [DecidableEq K]

/-- No bound, nothing to evict. -/
theorem insert_unlimited (inner : Inner K V) (key : K) (value : V) (weight : Nat)
    {limits : Limits} (h : limits.entries = none ∧ limits.bytes = none) (eviction : Eviction) :
    (inner.insert key value weight limits eviction).1 = [] := by
  have hover : ∀ i : Inner K V, i.isOver limits = false := by
    intro i
    simp [isOver, h.1, h.2]
  rw [insert, evictOver]
  generalize (inner.place key value weight eviction).compact = i
  generalize i.order = tickets
  cases tickets with
  | nil => rfl
  | cons ticket rest =>
    rw [evictTickets]
    simp [hover]

theorem insertBatch_unlimited (inner : Inner K V) (entries : List (K × V × Nat))
    {limits : Limits} (h : limits.entries = none ∧ limits.bytes = none) (eviction : Eviction) :
    (insertBatch limits eviction inner entries).1 = [] := by
  induction entries generalizing inner with
  | nil => rfl
  | cons e rest ih =>
    obtain ⟨key, value, weight⟩ := e
    rw [insertBatch, insert_unlimited _ _ _ _ h, ih, List.append_nil]

end Inner

namespace MemoryTier
variable {K V : Type} [DecidableEq K]

omit [DecidableEq K] in
theorem limits_unbounded {tier : MemoryTier K V} (h : tier.Unbounded) :
    tier.limits.entries = none ∧ tier.limits.bytes = none := by
  simp [limits, h.1, h.2]

theorem keeping_unbounded : Keeping (Unbounded (K := K) (V := V)) where
  call tier c h := by cases c <;> exact h
  put tier k v d h hd := by
    cases hd
    exact Inner.insert_unlimited tier.inner k v _ (limits_unbounded h) tier.eviction
  putMany tier es d h hd := by
    cases hd
    exact Inner.insertBatch_unlimited tier.inner _ (limits_unbounded h) tier.eviction

end MemoryTier
end Tierstore
