import Mathlib.Data.Option.Basic
import Tierstore.Codec
import Tierstore.MemoryOrder

/-! A codec tier over a memory tier against the typed memory tier: every operation of the inner tier
commutes with the key mapping and the encoding of the values. -/
namespace Tierstore
open Overlay

section Mirror
variable {IK IV K V : Type} (toKey : K → IK) (encode : K → V → Except BoxError IV)

structure EncodedEntry (key : K) (encoded : Entry IV) (entry : Entry V) : Prop where
  value : encode key entry.value = .ok encoded.value
  weight : encoded.weight = entry.weight
  stamp : encoded.stamp = entry.stamp

variable [DecidableEq IK] [DecidableEq K]

structure Mirrored (inner : Inner IK IV) (typed : Inner K V) : Prop where
  entries : ∀ key, Option.Rel (EncodedEntry encode key) (inner.map.lookup (toKey key))
    (typed.map.lookup key)
  keyed : ∀ inKey ∈ inner.map, ∃ key, toKey key = inKey
  order : inner.order = typed.order.map fun ticket => (toKey ticket.1, ticket.2)
  total : inner.totalWeight = typed.totalWeight
  next : inner.nextStamp = typed.nextStamp

end Mirror

namespace Mirrored
variable {IK IV K V : Type} {toKey : K → IK} {encode : K → V → Except BoxError IV}
  [DecidableEq IK] [DecidableEq K] {inner : Inner IK IV} {typed : Inner K V}

theorem new : Mirrored toKey encode (.new : Inner IK IV) (.new : Inner K V) where
  entries key := by
    rw [Inner.new, AList.lookup_empty, Inner.new, AList.lookup_empty]
    exact .none
  keyed inKey h := absurd h (AList.notMem_empty inKey)
  order := rfl
  total := rfl
  next := rfl

/-- A key is in both, with its entry and the encoded one, or in neither. -/
theorem cases (h : Mirrored toKey encode inner typed) (key : K) :
    (inner.map.lookup (toKey key) = none ∧ typed.map.lookup key = none) ∨
      ∃ encoded entry, inner.map.lookup (toKey key) = some encoded ∧
        typed.map.lookup key = some entry ∧ EncodedEntry encode key encoded entry := by
  have hrel := h.entries key
  generalize inner.map.lookup (toKey key) = left at hrel ⊢
  generalize typed.map.lookup key = right at hrel ⊢
  cases hrel with
  | none => exact Or.inl ⟨rfl, rfl⟩
  | some hentry => exact Or.inr ⟨_, _, rfl, rfl, hentry⟩

theorem mem (h : Mirrored toKey encode inner typed) (key : K) :
    toKey key ∈ inner.map ↔ key ∈ typed.map := by
  rw [← AList.lookup_isSome, ← AList.lookup_isSome]
  obtain ⟨hl, hr⟩ | ⟨encoded, entry, hl, hr, -⟩ := h.cases key
  · rw [hl, hr]
    simp
  · rw [hl, hr]
    simp

theorem live (h : Mirrored toKey encode inner typed) (ticket : K × UInt64) :
    inner.live (toKey ticket.1, ticket.2) = typed.live ticket := by
  rw [Inner.live, Inner.live]
  obtain ⟨hl, hr⟩ | ⟨encoded, entry, hl, hr, hentry⟩ := h.cases ticket.1
  · rw [hl, hr]
    rfl
  · rw [hl, hr, Option.any_some, Option.any_some, hentry.stamp]

variable (hinj : Function.Injective toKey)
include hinj

theorem len (h : Mirrored toKey encode inner typed) : inner.len = typed.len := by
  have hperm : inner.map.keys.Perm (typed.map.keys.map toKey) := by
    refine (List.perm_ext_iff_of_nodup inner.map.keys_nodup
      (typed.map.keys_nodup.map hinj)).2 fun inKey => ?_
    rw [← AList.mem_keys, List.mem_map]
    constructor
    · intro hmem
      obtain ⟨key, rfl⟩ := h.keyed inKey hmem
      exact ⟨key, AList.mem_keys.1 ((h.mem key).1 hmem), rfl⟩
    · rintro ⟨key, hkey, rfl⟩
      exact (h.mem key).2 (AList.mem_keys.2 hkey)
  rw [Inner.len, hperm.length_eq, List.length_map, Inner.len]

theorem isOver (h : Mirrored toKey encode inner typed) (limits : Limits) :
    inner.isOver limits = typed.isOver limits := by
  rw [Inner.isOver, Inner.isOver, h.len hinj, h.total]

theorem compact (h : Mirrored toKey encode inner typed) :
    Mirrored toKey encode inner.compact typed.compact := by
  have hlength : inner.order.length = typed.order.length := by rw [h.order, List.length_map]
  unfold Inner.compact
  rw [hlength, h.len hinj]
  split
  · refine ⟨h.entries, h.keyed, ?_, h.total, h.next⟩
    have hlive : inner.live ∘ (fun ticket : K × UInt64 => (toKey ticket.1, ticket.2)) =
        typed.live := funext fun ticket => h.live ticket
    simp only [h.order, List.filter_map, hlive]
  · exact h

/-- An entry takes the place of whatever was under its key. -/
theorem insert (h : Mirrored toKey encode inner typed) {key : K} {encoded : Entry IV}
    {entry : Entry V} (hentry : EncodedEntry encode key encoded entry) {inner' : Inner IK IV}
    {typed' : Inner K V} (hinner : inner'.map = inner.map.insert (toKey key) encoded)
    (htyped : typed'.map = typed.map.insert key entry)
    (horder : inner'.order = typed'.order.map fun ticket => (toKey ticket.1, ticket.2))
    (htotal : inner'.totalWeight = typed'.totalWeight)
    (hnext : inner'.nextStamp = typed'.nextStamp) : Mirrored toKey encode inner' typed' where
  entries other := by
    rw [hinner, htyped]
    by_cases hother : other = key
    · rw [hother, AList.lookup_insert, AList.lookup_insert]
      exact .some hentry
    · rw [AList.lookup_insert_ne hother, AList.lookup_insert_ne (hinj.ne hother)]
      exact h.entries other
  keyed inKey hmem := by
    rw [hinner, AList.mem_insert] at hmem
    obtain rfl | hold := hmem
    · exact ⟨key, rfl⟩
    · exact h.keyed inKey hold
  order := horder
  total := htotal
  next := hnext

theorem take (h : Mirrored toKey encode inner typed) {key : K} {encoded : Entry IV}
    {entry : Entry V} (hentry : EncodedEntry encode key encoded entry) :
    Mirrored toKey encode (inner.take (toKey key) encoded) (typed.take key entry) where
  entries other := by
    rw [Inner.take, Inner.take]
    dsimp only
    by_cases hother : other = key
    · rw [hother, AList.lookup_erase, AList.lookup_erase]
      exact .none
    · rw [AList.lookup_erase_ne hother, AList.lookup_erase_ne (hinj.ne hother)]
      exact h.entries other
  keyed inKey hmem := h.keyed inKey (AList.mem_erase.1 hmem).2
  order := h.order
  total := by rw [Inner.take, Inner.take, hentry.weight, h.total]
  next := h.next

/-! ## The operations -/

omit hinj in
theorem dequeue (h : Mirrored toKey encode inner typed) (tickets : List (K × UInt64)) :
    Mirrored toKey encode
      { inner with order := tickets.map fun ticket => (toKey ticket.1, ticket.2) }
      { typed with order := tickets } where
  entries := h.entries
  keyed := h.keyed
  order := rfl
  total := h.total
  next := h.next

theorem place (h : Mirrored toKey encode inner typed) {key : K} {value : V} {encoded : IV}
    (hencode : encode key value = .ok encoded) (weight : Nat) (eviction : Eviction) :
    Mirrored toKey encode (inner.place (toKey key) encoded weight eviction)
      (typed.place key value weight eviction) := by
  unfold Inner.place
  simp only [Inner.freshStamp]
  obtain ⟨hinner, htyped⟩ | ⟨old, entry, hinner, htyped, hentry⟩ := h.cases key
  · simp only [hinner, htyped]
    refine h.insert hinj ⟨hencode, rfl, by rw [h.next]⟩ rfl rfl ?_ ?_ ?_
    · simp [h.order, h.next]
    · simp only [h.total]
    · simp only [h.next]
  · simp only [hinner, htyped]
    cases eviction with
    | fifo =>
      have hnew : EncodedEntry encode key ⟨encoded, weight, old.stamp⟩
          ⟨value, weight, entry.stamp⟩ := ⟨hencode, rfl, hentry.stamp⟩
      refine h.insert hinj hnew rfl rfl h.order ?_ ?_
      · simp only [h.total, hentry.weight]
      · simp only [h.next]
    | lru =>
      refine h.insert hinj ⟨hencode, rfl, by rw [h.next]⟩ rfl rfl ?_ ?_ ?_
      · simp [h.order, h.next]
      · simp only [h.total, hentry.weight]
      · simp only [h.next]

theorem touch (h : Mirrored toKey encode inner typed) (key : K) :
    Mirrored toKey encode (inner.touch (toKey key)) (typed.touch key) := by
  unfold Inner.touch
  simp only [Inner.freshStamp]
  obtain ⟨hinner, htyped⟩ | ⟨encoded, entry, hinner, htyped, hentry⟩ := h.cases key
  · simp only [hinner, htyped]
    refine compact hinj ⟨h.entries, h.keyed, h.order, h.total, ?_⟩
    simp only [h.next]
  · simp only [hinner, htyped]
    have hnew : EncodedEntry encode key { encoded with stamp := inner.nextStamp + 1 }
        { entry with stamp := typed.nextStamp + 1 } :=
      ⟨hentry.value, hentry.weight, congrArg (· + 1) h.next⟩
    refine compact hinj (h.insert hinj hnew rfl rfl ?_ h.total ?_)
    · simp [h.order, h.next]
    · simp only [h.next]

theorem fetch (h : Mirrored toKey encode inner typed) (key : K) (eviction : Eviction) :
    Mirrored toKey encode (inner.fetch (toKey key) eviction).2 (typed.fetch key eviction).2 := by
  unfold Inner.fetch
  dsimp only
  by_cases hlru : eviction = .lru ∧ key ∈ typed.map
  · rw [if_pos hlru, if_pos ⟨hlru.1, (h.mem key).2 hlru.2⟩]
    exact h.touch hinj key
  · rw [if_neg hlru, if_neg fun hinner => hlru ⟨hinner.1, (h.mem key).1 hinner.2⟩]
    exact h

theorem fetchBatch (h : Mirrored toKey encode inner typed) (keys : List K)
    (eviction : Eviction) :
    Mirrored toKey encode (Inner.fetchBatch eviction inner (keys.map toKey)).2
      (Inner.fetchBatch eviction typed keys).2 := by
  induction keys generalizing inner typed with
  | nil => exact h
  | cons key rest ih => exact ih (h.fetch hinj key eviction)

theorem remove (h : Mirrored toKey encode inner typed) (key : K) :
    (inner.remove (toKey key)).1 = (typed.remove key).1 ∧
      Mirrored toKey encode (inner.remove (toKey key)).2 (typed.remove key).2 := by
  unfold Inner.remove
  obtain ⟨hinner, htyped⟩ | ⟨encoded, entry, hinner, htyped, hentry⟩ := h.cases key
  · rw [hinner, htyped]
    exact ⟨rfl, h⟩
  · rw [hinner, htyped]
    exact ⟨rfl, h.take hinj hentry⟩

theorem removeBatch (h : Mirrored toKey encode inner typed) (keys : List K) :
    (inner.removeBatch (keys.map toKey)).1 = (typed.removeBatch keys).1 ∧
      Mirrored toKey encode (inner.removeBatch (keys.map toKey)).2 (typed.removeBatch keys).2 := by
  induction keys generalizing inner typed with
  | nil => exact ⟨rfl, h⟩
  | cons key rest ih =>
    obtain ⟨hflag, hnext⟩ := h.remove hinj key
    obtain ⟨hflags, hlast⟩ := ih hnext
    refine ⟨?_, hlast⟩
    rw [List.map_cons, Inner.removeBatch, Inner.removeBatch]
    dsimp only
    rw [hflag, hflags]

/-! ## Displaced entries -/
section Decoded
variable {decode : IV → Except BoxError (K × V)}
  (hround : ∀ key value encoded, encode key value = .ok encoded → decode encoded = .ok (key, value))
include hround

/-- What the eviction displaces climbs back out under its own key. -/
theorem evictTickets (h : Mirrored toKey encode inner typed) (limits : Limits)
    (tickets : List (K × UInt64)) :
    CodecTier.climbOut decode (Inner.evictTickets limits
        (tickets.map fun ticket => (toKey ticket.1, ticket.2)) inner).1 =
      (Inner.evictTickets limits tickets typed).1 ∧
    Mirrored toKey encode
      (Inner.evictTickets limits (tickets.map fun ticket => (toKey ticket.1, ticket.2)) inner).2
      (Inner.evictTickets limits tickets typed).2 := by
  induction tickets generalizing inner typed with
  | nil => exact ⟨rfl, h.dequeue []⟩
  | cons ticket rest ih =>
    obtain ⟨key, stamp⟩ := ticket
    rw [List.map_cons, Inner.evictTickets, Inner.evictTickets, h.isOver hinj]
    by_cases hover : (!typed.isOver limits) = true
    · rw [if_pos hover, if_pos hover]
      exact ⟨rfl, h.dequeue ((key, stamp) :: rest)⟩
    · rw [if_neg hover, if_neg hover]
      obtain ⟨hinner, htyped⟩ | ⟨encoded, entry, hinner, htyped, hentry⟩ := h.cases key
      · simp only [hinner, htyped]
        exact ih h
      · simp only [hinner, htyped, hentry.stamp]
        by_cases hlive : entry.stamp = stamp
        · rw [if_pos hlive, if_pos hlive]
          obtain ⟨hdisplaced, hrest⟩ := ih (h.take hinj hentry)
          refine ⟨?_, hrest⟩
          have hdecode : (decode encoded.value).toOption = some (key, entry.value) := by
            rw [hround _ _ _ hentry.value]
            rfl
          dsimp only
          rw [← hdisplaced, CodecTier.climbOut, List.filterMap_cons]
          dsimp only
          rw [hdecode]
          rfl
        · rw [if_neg hlive, if_neg hlive]
          exact ih h

theorem write (h : Mirrored toKey encode inner typed) {key : K} {value : V} {encoded : IV}
    (hencode : encode key value = .ok encoded) (weight : Nat) (limits : Limits)
    (eviction : Eviction) :
    CodecTier.climbOut decode (inner.insert (toKey key) encoded weight limits eviction).1 =
      (typed.insert key value weight limits eviction).1 ∧
    Mirrored toKey encode (inner.insert (toKey key) encoded weight limits eviction).2
      (typed.insert key value weight limits eviction).2 := by
  have hplaced := (h.place hinj hencode weight eviction).compact hinj
  rw [Inner.insert, Inner.evictOver, hplaced.order, Inner.insert, Inner.evictOver]
  exact hplaced.evictTickets hinj hround limits _

theorem writeBatch {weigh : IK → IV → Nat} {weigh' : K → V → Nat}
    (hweigh : ∀ key value encoded, encode key value = .ok encoded →
      weigh' key value = weigh (toKey key) encoded)
    (h : Mirrored toKey encode inner typed) (limits : Limits) (eviction : Eviction)
    {entries : List (K × V)} {encoded : List (IK × IV)}
    (hencoded : CodecTier.encodeAll toKey encode entries = .ok encoded) :
    CodecTier.climbOut decode (Inner.insertWeighed limits eviction weigh inner encoded).1 =
      (Inner.insertWeighed limits eviction weigh' typed entries).1 ∧
    Mirrored toKey encode (Inner.insertWeighed limits eviction weigh inner encoded).2
      (Inner.insertWeighed limits eviction weigh' typed entries).2 := by
  induction entries generalizing inner typed encoded with
  | nil =>
    cases hencoded
    exact ⟨rfl, h⟩
  | cons entry rest ih =>
    obtain ⟨key, value⟩ := entry
    rw [CodecTier.encodeAll] at hencoded
    cases hencode : encode key value with
    | error e => simp [hencode] at hencoded
    | ok iv =>
      rw [hencode] at hencoded
      obtain ⟨more, hrest, rfl⟩ := map_ok hencoded
      have hfirst := h.write hinj hround hencode (weigh (toKey key) iv) limits eviction
      have hmore := ih hfirst.2 hrest
      unfold Inner.insertWeighed at hmore ⊢
      simp only [List.map_cons, Inner.insertBatch, hweigh key value iv hencode]
      refine ⟨?_, hmore.2⟩
      rw [← hfirst.1, ← hmore.1]
      exact List.filterMap_append

omit hinj in
theorem decodeFound {E : Type} (h : Mirrored toKey encode inner typed) (key : K) :
    CodecTier.decodeFound (E := E) decode (inner.values (toKey key)) =
      .ok (typed.values key) := by
  rw [Inner.values, Inner.values]
  obtain ⟨hinner, htyped⟩ | ⟨encoded, entry, hinner, htyped, hentry⟩ := h.cases key
  · rw [hinner, htyped]
    rfl
  · rw [hinner, htyped]
    simp only [Option.map_some, CodecTier.decodeFound, hround _ _ _ hentry.value]

omit hinj in
theorem decodeAll {E : Type} (h : Mirrored toKey encode inner typed) (keys : List K) :
    CodecTier.decodeAll (E := E) decode ((keys.map toKey).map inner.values) =
      .ok (keys.map typed.values) := by
  induction keys with
  | nil => rfl
  | cons key rest ih =>
    rw [List.map_cons, List.map_cons, CodecTier.decodeAll, h.decodeFound hround]
    dsimp only
    rw [ih]
    rfl

end Decoded
end Mirrored

/-! ## The tiers -/

/-- The prices of the typed entries are those of their encodings. -/
def ByteBudget.decoded {IK IV K V : Type} (toKey : K → IK)
    (encode : K → V → Except BoxError IV) (b : ByteBudget IK IV) : ByteBudget K V where
  budget := b.budget
  weigh key value :=
    match encode key value with
    | .ok encoded => b.weigh (toKey key) encoded
    | .error _ => ⟨0, by decide⟩

section Typed
variable {IK IV K V : Type} (encode : K → V → Except BoxError IV)

def rejection : List (K × V) → Option BoxError
  | [] => none
  | (key, value) :: rest =>
    match encode key value with
    | .error e => some e
    | .ok _ => rejection rest

/-- The specification: a typed tier that serves no call with an entry the codec rejects. -/
def typedCall [DecidableEq K] (tier : MemoryTier K V) (c : TierCall K V) :
    Except (CodecError Infallible) c.Output × MemoryTier K V :=
  match rejection encode (CodecTier.puts c) with
  | some e => (.error (.codec e), tier)
  | none => ((Tier.call tier c).1.mapError .backend, (Tier.call tier c).2)

theorem encodeAll_of_rejection (toKey : K → IK) {entries : List (K × V)} {e : BoxError}
    (h : rejection encode entries = some e) :
    CodecTier.encodeAll toKey encode entries = .error e := by
  induction entries with
  | nil => cases h
  | cons entry rest ih =>
    obtain ⟨key, value⟩ := entry
    rw [rejection] at h
    rw [CodecTier.encodeAll]
    cases hencode : encode key value with
    | error e' =>
      rw [hencode] at h
      exact congrArg Except.error (Option.some.inj h)
    | ok encoded =>
      rw [hencode] at h
      dsimp only at h ⊢
      rw [ih h]
      rfl

theorem encodeAll_of_accepted (toKey : K → IK) {entries : List (K × V)}
    (h : rejection encode entries = none) :
    ∃ encoded, CodecTier.encodeAll toKey encode entries = .ok encoded := by
  induction entries with
  | nil => exact ⟨[], rfl⟩
  | cons entry rest ih =>
    obtain ⟨key, value⟩ := entry
    rw [rejection] at h
    rw [CodecTier.encodeAll]
    cases hencode : encode key value with
    | error e' => simp [hencode] at h
    | ok encoded =>
      rw [hencode] at h
      obtain ⟨more, hmore⟩ := ih h
      exact ⟨(toKey key, encoded) :: more, by rw [hmore]; rfl⟩

end Typed

structure Encodes {IK IV K V : Type} [DecidableEq IK] [DecidableEq K]
    (t : CodecTier (MemoryTier IK IV) IK IV K V) (typed : MemoryTier K V) : Prop where
  injective : Function.Injective t.toKey
  decodes : ∀ key value encoded, t.encode key value = .ok encoded →
    t.decode encoded = .ok (key, value)
  maxEntries : t.inner.maxEntries = typed.maxEntries
  bytes : typed.bytes = t.inner.bytes.map (.decoded t.toKey t.encode)
  eviction : t.inner.eviction = typed.eviction
  inner : Mirrored t.toKey t.encode t.inner.inner typed.inner

/-- A call with an entry the codec rejects answers its error and changes nothing. -/
theorem call_rejected {T IK IV K V E : Type} [Tier T IK IV E] (t : CodecTier T IK IV K V)
    {c : TierCall K V} {e : BoxError}
    (hreject : rejection t.encode (CodecTier.puts c) = some e) :
    Tier.call t c = (.error (.codec e), t) := by
  cases c with
  | get key => cases hreject
  | exists_ key => cases hreject
  | getMany keys => cases hreject
  | delete key => cases hreject
  | deleteMany keys => cases hreject
  | put key value =>
    cases hencode : t.encode key value with
    | ok encoded => simp [CodecTier.puts, rejection, hencode] at hreject
    | error e' =>
      simp only [CodecTier.puts, rejection, hencode, Option.some.injEq] at hreject
      simp only [Tier.call, Tier.put, hencode, hreject]
  | putMany entries =>
    have hencoded := encodeAll_of_rejection t.encode t.toKey hreject
    dsimp only [CodecTier.puts] at hencoded
    simp only [Tier.call, Tier.putMany, hencoded]

section Tiers
variable {IK IV K V : Type} [DecidableEq IK] [DecidableEq K]
  {t : CodecTier (MemoryTier IK IV) IK IV K V} {typed : MemoryTier K V}

namespace Encodes

theorem limits (h : Encodes t typed) : t.inner.limits = typed.limits := by
  rw [MemoryTier.limits, MemoryTier.limits, h.maxEntries, h.bytes, Option.map_map]
  rfl

theorem weightOf (h : Encodes t typed) (key : K) (value : V) (encoded : IV)
    (hencode : t.encode key value = .ok encoded) :
    typed.weightOf key value = t.inner.weightOf (t.toKey key) encoded := by
  rw [MemoryTier.weightOf, MemoryTier.weightOf, h.bytes]
  cases t.inner.bytes with
  | none => rfl
  | some b => simp only [Option.map_some, ByteBudget.decoded, hencode]

/-- The maps move, the bounds and the codec stay. -/
theorem step (h : Encodes t typed) {inner : Inner IK IV} {inner' : Inner K V}
    (hinner : Mirrored t.toKey t.encode inner inner') :
    Encodes { t with inner := { t.inner with inner := inner } }
      { typed with inner := inner' } where
  injective := h.injective
  decodes := h.decodes
  maxEntries := h.maxEntries
  bytes := h.bytes
  eviction := h.eviction
  inner := hinner

theorem call (h : Encodes t typed) (c : TierCall K V) :
    (Tier.call t c).1 = (typedCall t.encode typed c).1 ∧
      Encodes (Tier.call t c).2 (typedCall t.encode typed c).2 := by
  -- both tiers have one eviction policy
  obtain ⟨maxEntries, bytes, eviction, typedInner⟩ := typed
  obtain rfl : t.inner.eviction = eviction := h.eviction
  cases hreject : rejection t.encode (CodecTier.puts c) with
  | some e =>
    rw [call_rejected t hreject, typedCall, hreject]
    exact ⟨rfl, h⟩
  | none =>
    rw [typedCall, hreject]
    dsimp only
    cases c with
    | get key =>
      refine ⟨?_, h.step (h.inner.fetch h.injective key t.inner.eviction)⟩
      simp only [Tier.call, Tier.get, Inner.fetch_value, h.inner.decodeFound h.decodes]
      rfl
    | exists_ key =>
      refine ⟨?_, h⟩
      simp only [Tier.call, Tier.exists_, h.inner.mem]
    | getMany keys =>
      refine ⟨?_, h.step (h.inner.fetchBatch h.injective keys t.inner.eviction)⟩
      simp only [Tier.call, Tier.getMany, Inner.fetchBatch_value, h.inner.decodeAll h.decodes]
      rfl
    | put key value =>
      cases hencode : t.encode key value with
      | error e => simp [CodecTier.puts, rejection, hencode] at hreject
      | ok encoded =>
        obtain ⟨hdisplaced, hnext⟩ := h.inner.write h.injective h.decodes hencode
          (t.inner.weightOf (t.toKey key) encoded) t.inner.limits t.inner.eviction
        simp only [Tier.call, Tier.put, hencode, ← h.limits, h.weightOf key value encoded hencode]
        exact ⟨congrArg Except.ok hdisplaced, h.step hnext⟩
    | delete key =>
      obtain ⟨hflag, hnext⟩ := h.inner.remove h.injective key
      refine ⟨?_, h.step hnext⟩
      simp only [Tier.call, Tier.delete, hflag]
    | putMany entries =>
      obtain ⟨encoded, hencoded⟩ := encodeAll_of_accepted t.encode t.toKey hreject
      obtain ⟨hdisplaced, hnext⟩ := h.inner.writeBatch h.injective h.decodes h.weightOf
        t.inner.limits t.inner.eviction hencoded
      dsimp only [CodecTier.puts] at hencoded hdisplaced hnext
      simp only [Tier.call, Tier.putMany, hencoded, ← h.limits]
      exact ⟨congrArg Except.ok hdisplaced, h.step hnext⟩
    | deleteMany keys =>
      obtain ⟨hflags, hnext⟩ := h.inner.removeBatch h.injective keys
      refine ⟨?_, h.step hnext⟩
      simp only [Tier.call, Tier.deleteMany, hflags]

end Encodes

variable (toKey : K → IK) (encode : K → V → Except BoxError IV)
  (decode : IV → Except BoxError (K × V)) (maxEntries : Option ℕ+)
  (bytes : Option (ByteBudget IK IV)) (eviction : Eviction)

def codecOverMemory : CodecTier (MemoryTier IK IV) IK IV K V where
  inner := { maxEntries, bytes, eviction, inner := .new }
  toKey := toKey
  encode := encode
  decode := decode

def typedMemory : MemoryTier K V where
  maxEntries := maxEntries
  bytes := bytes.map (.decoded toKey encode)
  eviction := eviction
  inner := .new

variable {toKey encode decode} in
/-- With keys that stay apart and a codec that decodes what it encodes, a codec tier over a
memory tier answers every history as the typed tier does, except that a call with an entry
the codec rejects answers its error and changes nothing. -/
theorem codec_is_typed (hinj : Function.Injective toKey)
    (hround : ∀ key value encoded, encode key value = .ok encoded →
      decode encoded = .ok (key, value)) (calls : List (TierCall K V)) :
    Runs.log Tier.call (codecOverMemory toKey encode decode maxEntries bytes eviction) calls =
        Runs.log (typedCall encode) (typedMemory toKey encode maxEntries bytes eviction) calls ∧
      ∀ c e, rejection encode (CodecTier.puts c) = some e →
        Tier.call (Runs.after Tier.call
            (codecOverMemory toKey encode decode maxEntries bytes eviction) calls) c =
          (.error (.codec e), Runs.after Tier.call
            (codecOverMemory toKey encode decode maxEntries bytes eviction) calls) := by
  have hstart : Encodes (codecOverMemory toKey encode decode maxEntries bytes eviction)
      (typedMemory toKey encode maxEntries bytes eviction) :=
    ⟨hinj, hround, rfl, rfl, rfl, .new⟩
  constructor
  · have hstep : ∀ (t : CodecTier (MemoryTier IK IV) IK IV K V) (typed : MemoryTier K V)
        (c : TierCall K V), Encodes t typed ∧ t.encode = encode →
          (Tier.call t c).1 = (typedCall encode typed c).1 ∧
            (Encodes (Tier.call t c).2 (typedCall encode typed c).2 ∧
              (Tier.call t c).2.encode = encode) := by
      rintro t typed c ⟨h, rfl⟩
      obtain ⟨hanswer, hnext⟩ := h.call c
      exact ⟨hanswer, hnext, (CodecTier.serve_codec t c).2.1⟩
    exact Runs.log_eq Tier.call hstep ⟨hstart, rfl⟩ calls
  · intro c e hreject
    refine call_rejected _ ?_
    have hencode : (Runs.after Tier.call
        (codecOverMemory toKey encode decode maxEntries bytes eviction) calls).encode = encode :=
      (CodecTier.history_codec calls _).2.1
    rwa [hencode]

def positiveEncode (key value : Nat) : Except BoxError (Nat × Nat) :=
  if value = 0 then .error "zero" else .ok (key, value)

theorem positiveEncode_round (key value : Nat) (encoded : Nat × Nat)
    (h : positiveEncode key value = .ok encoded) :
    (Except.ok encoded : Except BoxError (Nat × Nat)) = .ok (key, value) := by
  unfold positiveEncode at h
  split at h
  · cases h
  · rw [← h]

/-- A put displaces a typed entry, and a batch with a rejected entry writes nothing. -/
theorem codec_is_typed_rejecting :
    Runs.log Tier.call
        (codecOverMemory (· + 100) positiveEncode .ok (some 1) none .lru)
        [.put 1 10, .put 2 20, .putMany [(3, 30), (4, 0)], .get 2] =
      Runs.log (typedCall positiveEncode)
        (typedMemory (· + 100) positiveEncode (some 1) none .lru)
        [.put 1 10, .put 2 20, .putMany [(3, 30), (4, 0)], .get 2] :=
  (codec_is_typed (some 1) none .lru (fun _ _ h => Nat.add_right_cancel h)
    positiveEncode_round _).1

end Tiers
end Tierstore
