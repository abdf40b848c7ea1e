import Tierstore.Lib.Runs
import Tierstore.Lib.Shelf
import Tierstore.Memory

/-! What a bounded tier is for: one list of priced entries in eviction order. The tiers that
keep the order in tickets are compared with it. -/
namespace Tierstore

inductive OrderedCall (K V : Type) where
  | tier (call : TierCall K V)
  | getRef (key : K)
  | list (cursor : Option Nat) (limit : Nat)

namespace OrderedCall
variable {K V : Type}

abbrev Output : OrderedCall K V → Type
  | .tier call => call.Output
  | .getRef _ => Option (Option V)
  | .list _ _ => Page K Nat

def moves : OrderedCall K V → Nat
  | .tier (.get _) => 1
  | .tier (.getMany keys) => keys.length
  | .tier (.put _ _) => 1
  | .tier (.putMany entries) => entries.length
  | .getRef _ => 1
  | _ => 0

end OrderedCall

namespace Ordered
open ItemShelf
variable {K V : Type}

def fits (limits : Limits) (shelf : ItemShelf K V) : Bool :=
  limits.entries.all (fun max => shelf.length ≤ max) &&
    limits.bytes.all (fun max => shelf.total ≤ max)

def displaced (shelf : ItemShelf K V) : Displaced K V :=
  shelf.map fun item => (item.key, item.value)

def page (shelf : ItemShelf K V) (cursor : Option Nat) (limit : Nat) : Page K Nat :=
  let offset := cursor.getD 0
  let keys := (shelf.keys.drop offset).take limit
  let next := offset + keys.length
  { keys, next := if limit > 0 ∧ next < shelf.length then some next else none }

variable [DecidableEq K]

/-- A new key is appended; a replacement keeps its place, or counts as a use. -/
def place (eviction : Eviction) (shelf : ItemShelf K V) (item : Item K V) : ItemShelf K V :=
  match eviction, shelf.find item.key with
  | .fifo, some _ => shelf.replace item
  | _, _ => shelf.toEnd item

def use (eviction : Eviction) (shelf : ItemShelf K V) (key : K) : ItemShelf K V :=
  match eviction, shelf.find key with
  | .lru, some item => shelf.toEnd item
  | _, _ => shelf

def read (eviction : Eviction) (shelf : ItemShelf K V) (key : K) : Option V × ItemShelf K V :=
  ((shelf.find key).map Item.value, use eviction shelf key)

def readBatch (eviction : Eviction) : ItemShelf K V → List K → List (Option V) × ItemShelf K V
  | shelf, [] => ([], shelf)
  | shelf, key :: rest =>
    let first := read eviction shelf key
    let more := readBatch eviction first.2 rest
    (first.1 :: more.1, more.2)

def write (limits : Limits) (eviction : Eviction) (shelf : ItemShelf K V) (item : Item K V) :
    Displaced K V × ItemShelf K V :=
  let out := shed (fits limits) (place eviction shelf item)
  (displaced out.1, out.2)

def writeBatch (limits : Limits) (eviction : Eviction) :
    ItemShelf K V → List (Item K V) → Displaced K V × ItemShelf K V
  | shelf, [] => ([], shelf)
  | shelf, item :: rest =>
    let first := write limits eviction shelf item
    let more := writeBatch limits eviction first.2 rest
    (first.1 ++ more.1, more.2)

def remove (shelf : ItemShelf K V) (key : K) : Bool × ItemShelf K V :=
  ((shelf.find key).isSome, shelf.without key)

def removeBatch : ItemShelf K V → List K → List Bool × ItemShelf K V
  | shelf, [] => ([], shelf)
  | shelf, key :: rest =>
    let first := remove shelf key
    let more := removeBatch first.2 rest
    (first.1 :: more.1, more.2)

/-- The prices add up in a `usize` at every entry of the batch. -/
def Affords (limits : Limits) (eviction : Eviction) : ItemShelf K V → List (Item K V) → Prop
  | _, [] => True
  | shelf, item :: rest =>
    shelf.total + item.price ≤ usizeMax ∧
      Affords limits eviction (write limits eviction shelf item).2 rest

instance decideAffords (limits : Limits) (eviction : Eviction) :
    (shelf : ItemShelf K V) → (items : List (Item K V)) →
      Decidable (Affords limits eviction shelf items)
  | _, [] => isTrue trivial
  | shelf, item :: rest =>
    have : Decidable (Affords limits eviction (write limits eviction shelf item).2 rest) :=
      decideAffords limits eviction _ rest
    inferInstanceAs (Decidable (_ ∧ _))

end Ordered

/-! ## Bounds -/
namespace Ordered
open ItemShelf
variable {K V : Type}

theorem fits_nil (limits : Limits) : fits limits ([] : ItemShelf K V) = true := by
  obtain ⟨entries, bytes⟩ := limits
  cases entries <;> cases bytes <;> simp [fits]

theorem fits_mono {limits : Limits} {shelf smaller : ItemShelf K V} (h : fits limits shelf = true)
    (hlen : smaller.length ≤ shelf.length) (htotal : smaller.total ≤ shelf.total) :
    fits limits smaller = true := by
  obtain ⟨entries, bytes⟩ := limits
  simp only [fits, Bool.and_eq_true, Option.all_eq_true, decide_eq_true_eq] at h ⊢
  exact ⟨fun max hmax => hlen.trans (h.1 max hmax), fun max hmax => htotal.trans (h.2 max hmax)⟩

variable [DecidableEq K]

theorem place_fifo {shelf : ItemShelf K V} {item old : Item K V}
    (h : shelf.find item.key = some old) :
    place .fifo shelf item = shelf.replace item := by
  simp only [place, h]

theorem place_toEnd {eviction : Eviction} {shelf : ItemShelf K V} {item : Item K V}
    (h : shelf.find item.key = none ∨ eviction = .lru) :
    place eviction shelf item = shelf.toEnd item := by
  obtain h | rfl := h
  · simp only [place, h]
  · rfl

/-- An item is in its place, at the end, or else it was not there before. -/
theorem place_cases (eviction : Eviction) (shelf : ItemShelf K V) (item : Item K V) :
    (∃ old, shelf.find item.key = some old ∧ eviction = .fifo ∧
        place eviction shelf item = shelf.replace item) ∨
      ((shelf.find item.key = none ∨ eviction = .lru) ∧
        place eviction shelf item = shelf.toEnd item) := by
  cases hfind : shelf.find item.key with
  | none => exact Or.inr ⟨Or.inl rfl, place_toEnd (Or.inl hfind)⟩
  | some old =>
    cases eviction with
    | fifo => exact Or.inl ⟨old, rfl, rfl, place_fifo hfind⟩
    | lru => exact Or.inr ⟨Or.inr rfl, place_toEnd (Or.inr rfl)⟩

theorem find_place (eviction : Eviction) (shelf : ItemShelf K V) (item : Item K V) (key : K) :
    (place eviction shelf item).find key =
      if key = item.key then some item else shelf.find key := by
  obtain ⟨old, hfind, -, hplace⟩ | ⟨-, hplace⟩ := place_cases eviction shelf item
  · rw [hplace, find_replace]
    by_cases hkey : key = item.key
    · simp [hkey, hfind]
    · simp [hkey]
  · rw [hplace, find_toEnd]

theorem use_of_none {eviction : Eviction} {shelf : ItemShelf K V} {key : K}
    (h : shelf.find key = none) : use eviction shelf key = shelf := by
  cases eviction <;> simp only [use, h]

/-- A use moves the item only. -/
theorem find_use (eviction : Eviction) (shelf : ItemShelf K V) (key x : K) :
    (use eviction shelf key).find x = shelf.find x := by
  cases hfind : shelf.find key with
  | none => rw [use_of_none hfind]
  | some item =>
    cases eviction with
    | fifo => rfl
    | lru =>
      simp only [use, hfind]
      rw [find_toEnd]
      by_cases hx : x = item.key
      · rw [if_pos hx, hx, key_of_find hfind, hfind]
      · rw [if_neg hx]

theorem total_place (eviction : Eviction) {shelf : ItemShelf K V} (hnd : shelf.keys.Nodup)
    (item : Item K V) :
    (place eviction shelf item).total + ((shelf.find item.key).map Item.price).getD 0 =
      shelf.total + item.price := by
  have hend : (shelf.toEnd item).total = (shelf.without item.key).total + item.price := by
    simp [ItemShelf.toEnd]
  obtain ⟨old, hfind, -, hplace⟩ | ⟨-, hplace⟩ := place_cases eviction shelf item
  · have htotal := total_replace hnd hfind
    rw [hplace, hfind]
    exact htotal
  · rw [hplace, hend]
    cases hfind : shelf.find item.key with
    | none =>
      rw [without_of_notMem (find_eq_none.1 hfind)]
      rfl
    | some old =>
      have hwithout := (without_of_find hnd hfind).1
      change (shelf.without item.key).total + item.price + old.price = _
      omega

theorem length_use (eviction : Eviction) {shelf : ItemShelf K V} (hnd : shelf.keys.Nodup)
    (key : K) : (use eviction shelf key).length = shelf.length := by
  cases hfind : shelf.find key with
  | none => rw [use_of_none hfind]
  | some item =>
    cases eviction with
    | fifo => rfl
    | lru =>
      have hkey := key_of_find hfind
      subst hkey
      have hlen := (without_of_find hnd hfind).2
      simp only [use, hfind]
      rw [ItemShelf.toEnd, List.length_append, List.length_singleton, hlen]

theorem length_write (limits : Limits) (eviction : Eviction) (shelf : ItemShelf K V)
    (item : Item K V) : (write limits eviction shelf item).2.length ≤ shelf.length + 1 := by
  have happend := congrArg List.length (shed_append (fits limits) (place eviction shelf item))
  have hplace : (place eviction shelf item).length ≤ shelf.length + 1 := by
    obtain ⟨old, -, -, hplace⟩ | ⟨-, hplace⟩ := place_cases eviction shelf item
    · rw [hplace, ← length_keys, keys_replace, length_keys]
      exact Nat.le_succ _
    · rw [hplace, ItemShelf.toEnd, List.length_append]
      exact Nat.succ_le_succ (List.length_filter_le _ _)
  rw [List.length_append] at happend
  change (shed (fits limits) (place eviction shelf item)).2.length ≤ _
  omega

structure Neat (limits : Limits) (shelf : ItemShelf K V) : Prop where
  nodup : shelf.keys.Nodup
  fits : fits limits shelf = true

section Neat
variable {limits : Limits} {shelf : ItemShelf K V} (eviction : Eviction)

theorem nodup_toEnd (h : shelf.keys.Nodup) (item : Item K V) : (shelf.toEnd item).keys.Nodup := by
  rw [keys_toEnd, List.nodup_append]
  refine ⟨h.filter _, List.nodup_singleton _, ?_⟩
  rintro x hx y hy rfl
  rw [List.mem_singleton] at hy
  simp [hy] at hx

theorem Neat.without (h : Neat limits shelf) (key : K) : Neat limits (shelf.without key) := by
  refine ⟨by rw [keys_without]; exact h.nodup.filter _, ?_⟩
  cases hfind : shelf.find key with
  | none =>
    rw [without_of_notMem (find_eq_none.1 hfind)]
    exact h.fits
  | some item =>
    obtain ⟨htotal, hlen⟩ := without_of_find h.nodup hfind
    exact fits_mono h.fits (by omega) (by omega)

theorem Neat.use (h : Neat limits shelf) (key : K) : Neat limits (use eviction shelf key) := by
  unfold Ordered.use
  split
  · next item hfind =>
    have hkey := key_of_find hfind
    subst hkey
    obtain ⟨htotal, hlen⟩ := without_of_find h.nodup hfind
    refine ⟨nodup_toEnd h.nodup item, fits_mono h.fits ?_ ?_⟩
    · simp [ItemShelf.toEnd]
      omega
    · simp [ItemShelf.toEnd]
      omega
  · exact h

theorem nodup_place (h : shelf.keys.Nodup) (item : Item K V) :
    (place eviction shelf item).keys.Nodup := by
  unfold place
  split
  · rw [keys_replace]
    exact h
  · exact nodup_toEnd h item

/-- A write displaces the front of the shelf and leaves the rest, which fits. -/
theorem write_spec (limits : Limits) (shelf : ItemShelf K V) (item : Item K V) :
    ∃ gone, (write limits eviction shelf item).1 = displaced gone ∧
      gone ++ (write limits eviction shelf item).2 = place eviction shelf item ∧
      Ordered.fits limits (write limits eviction shelf item).2 = true ∧
      ∀ front back, place eviction shelf item = front ++ back → Ordered.fits limits back = true →
        gone.length ≤ front.length :=
  ⟨_, rfl, shed_append _ _, shed_fits _ _ (fits_nil limits),
    fun _ _ h hback => shed_shortest _ _ h hback⟩

theorem Neat.write (h : shelf.keys.Nodup) (item : Item K V) :
    Neat limits (write limits eviction shelf item).2 := by
  obtain ⟨gone, -, happend, hfits, -⟩ := write_spec eviction limits shelf item
  have hnd := nodup_place eviction h item
  rw [← happend, keys_append, List.nodup_append] at hnd
  exact ⟨hnd.2.1, hfits⟩

theorem Neat.readBatch (keys : List K) (h : Neat limits shelf) :
    Neat limits (readBatch eviction shelf keys).2 := by
  induction keys generalizing shelf with
  | nil => exact h
  | cons key rest ih => exact ih (h.use eviction key)

theorem Neat.writeBatch (items : List (Item K V)) (h : Neat limits shelf) :
    Neat limits (writeBatch limits eviction shelf items).2 := by
  induction items generalizing shelf with
  | nil => exact h
  | cons item rest ih => exact ih (Neat.write eviction h.nodup item)

theorem Neat.removeBatch (keys : List K) (h : Neat limits shelf) :
    Neat limits (removeBatch shelf keys).2 := by
  induction keys generalizing shelf with
  | nil => exact h
  | cons key rest ih => exact ih (h.without key)

end Neat
end Ordered

structure OrderedTier (K V : Type) where
  limits : Limits
  eviction : Eviction
  weigh : K → V → Nat
  shelf : ItemShelf K V

namespace OrderedTier
variable {K V : Type} [DecidableEq K]

omit [DecidableEq K] in
def item (tier : OrderedTier K V) (entry : K × V) : Item K V :=
  { key := entry.1, value := entry.2, price := tier.weigh entry.1 entry.2 }

instance : Tier (OrderedTier K V) K V Infallible where
  get tier key :=
    let out := Ordered.read tier.eviction tier.shelf key
    (.ok out.1, { tier with shelf := out.2 })
  exists_ tier key := (.ok (tier.shelf.find key).isSome, tier)
  getMany tier keys :=
    let out := Ordered.readBatch tier.eviction tier.shelf keys
    (.ok out.1, { tier with shelf := out.2 })
  put tier key value :=
    let out := Ordered.write tier.limits tier.eviction tier.shelf (tier.item (key, value))
    (.ok out.1, { tier with shelf := out.2 })
  delete tier key :=
    let out := Ordered.remove tier.shelf key
    (.ok out.1, { tier with shelf := out.2 })
  putMany tier entries :=
    let out := Ordered.writeBatch tier.limits tier.eviction tier.shelf (entries.map tier.item)
    (.ok out.1, { tier with shelf := out.2 })
  deleteMany tier keys :=
    let out := Ordered.removeBatch tier.shelf keys
    (.ok out.1, { tier with shelf := out.2 })

def perform (tier : OrderedTier K V) :
    (c : OrderedCall K V) → Except Infallible c.Output × OrderedTier K V
  | .tier call => Tier.call tier call
  | .getRef key =>
    let out := Ordered.read tier.eviction tier.shelf key
    (.ok (out.1.map some), { tier with shelf := out.2 })
  | .list cursor limit => (.ok (Ordered.page tier.shelf cursor limit), tier)

def next (tier : OrderedTier K V) (c : OrderedCall K V) : OrderedTier K V := (tier.perform c).2

def Affords (tier : OrderedTier K V) : OrderedCall K V → Prop
  | .tier (.put key value) =>
    Ordered.Affords tier.limits tier.eviction tier.shelf [tier.item (key, value)]
  | .tier (.putMany entries) =>
    Ordered.Affords tier.limits tier.eviction tier.shelf (entries.map tier.item)
  | _ => True

instance decideAffords (tier : OrderedTier K V) :
    (c : OrderedCall K V) → Decidable (tier.Affords c)
  | .tier (.put key value) =>
    Ordered.decideAffords tier.limits tier.eviction tier.shelf [tier.item (key, value)]
  | .tier (.putMany entries) =>
    Ordered.decideAffords tier.limits tier.eviction tier.shelf (entries.map tier.item)
  | .tier (.get _) | .tier (.exists_ _) | .tier (.getMany _) | .tier (.delete _)
  | .tier (.deleteMany _) | .getRef _ | .list _ _ => isTrue trivial

/-- A call changes nothing but the list. -/
theorem perform_eq (tier : OrderedTier K V) (c : OrderedCall K V) :
    (tier.perform c).2 = { tier with shelf := (tier.perform c).2.shelf } := by
  cases c with
  | tier call => cases call <;> rfl
  | getRef key => rfl
  | list cursor limit => rfl

theorem perform_neat (tier : OrderedTier K V) (h : Ordered.Neat tier.limits tier.shelf)
    (c : OrderedCall K V) : Ordered.Neat tier.limits (tier.perform c).2.shelf := by
  cases c with
  | tier call =>
    cases call with
    | get key => exact h.use tier.eviction key
    | exists_ key => exact h
    | getMany keys => exact h.readBatch tier.eviction keys
    | put key value => exact Ordered.Neat.write tier.eviction h.nodup _
    | delete key => exact h.without key
    | putMany entries => exact h.writeBatch tier.eviction _
    | deleteMany keys => exact h.removeBatch keys
  | getRef key => exact h.use tier.eviction key
  | list cursor limit => exact h

/-- A put hands back the shortest front that has to go. -/
theorem put_spec (tier : OrderedTier K V) (key : K) (value : V) :
    ∃ gone, (tier.perform (.tier (.put key value))).1 = .ok (Ordered.displaced gone) ∧
      gone ++ (tier.perform (.tier (.put key value))).2.shelf =
        Ordered.place tier.eviction tier.shelf (tier.item (key, value)) ∧
      ∀ front back, gone ++ (tier.perform (.tier (.put key value))).2.shelf = front ++ back →
        Ordered.fits tier.limits back = true → gone.length ≤ front.length := by
  obtain ⟨gone, hgone, happend, -, hshortest⟩ :=
    Ordered.write_spec tier.eviction tier.limits tier.shelf (tier.item (key, value))
  refine ⟨gone, congrArg Except.ok hgone, happend, fun front back h => ?_⟩
  exact hshortest front back (happend ▸ h)

theorem after_eq (tier : OrderedTier K V) (calls : List (OrderedCall K V)) :
    Runs.after perform tier calls =
      { tier with shelf := (Runs.after perform tier calls).shelf } := by
  induction calls generalizing tier with
  | nil => rfl
  | cons c calls ih =>
    rw [Runs.after_cons, perform_eq, ih]

theorem after_neat (tier : OrderedTier K V) (h : Ordered.Neat tier.limits tier.shelf)
    (calls : List (OrderedCall K V)) :
    Ordered.Neat tier.limits (Runs.after perform tier calls).shelf := by
  induction calls generalizing tier with
  | nil => exact h
  | cons c calls ih =>
    have hneat := tier.perform_neat h c
    have hlimits : (tier.perform c).2.limits = tier.limits := by rw [perform_eq]
    rw [← hlimits] at hneat ⊢
    exact ih _ hneat

end OrderedTier
end Tierstore
