import Tierstore.Lib.MapSum
import Tierstore.MemoryOrder

/-! The weight total of the memory tier: it is kept with saturating additions, so it may fall
short of the prices of the entries, and eviction carries the shortfall along. -/
namespace Tierstore
namespace Inner
variable {K V : Type} [DecidableEq K] {inner : Inner K V}

def prices (inner : Inner K V) : Nat := MapSum.total Entry.weight inner.map

def Ticketed (inner : Inner K V) (tickets : List (K × UInt64)) : Prop :=
  ∀ key entry, inner.map.lookup key = some entry → (key, entry.stamp) ∈ tickets

/-- The total is exact and within the budget, and every entry can be evicted. -/
structure Balanced (inner : Inner K V) (limits : Limits) : Prop where
  ticketed : inner.Ticketed inner.order
  exact : inner.totalWeight = inner.prices
  within : ∀ max, limits.bytes = some max → inner.prices ≤ max

def seat (inner : Inner K V) (key : K) (eviction : Eviction) : UInt64 × List (K × UInt64) :=
  match eviction, inner.map.lookup key with
  | .fifo, some entry => (entry.stamp, inner.order)
  | _, _ => (inner.freshStamp.1, inner.order ++ [(key, inner.freshStamp.1)])

/-- The total and the new price add up; or what is over the budget by them has to go, and every
other entry that has a price goes first. -/
def Adds (inner : Inner K V) (limits : Limits) (eviction : Eviction) (key : K) (price : Nat) :
    Prop :=
  inner.totalWeight + price ≤ usizeMax ∨
    limits.bytes.any (fun max => inner.totalWeight + max < usizeMax) = true ∧
      ∀ e ∈ inner.map.entries, e.1 ≠ key → e.2.weight ≠ 0 →
        (e.1, e.2.stamp) ∈
          (inner.seat key eviction).2.takeWhile (· ≠ (key, (inner.seat key eviction).1))

instance (limits : Limits) (eviction : Eviction) (key : K) (price : Nat) :
    Decidable (inner.Adds limits eviction key price) := inferInstanceAs (Decidable (_ ∨ _))

def AddsAll (inner : Inner K V) (limits : Limits) (eviction : Eviction) :
    List (K × V × Nat) → Prop
  | [] => True
  | (key, value, weight) :: rest =>
    inner.Adds limits eviction key weight ∧
      AddsAll (inner.insert key value weight limits eviction).2 limits eviction rest

instance decideAddsAll (limits : Limits) (eviction : Eviction) :
    (inner : Inner K V) → (entries : List (K × V × Nat)) →
      Decidable (inner.AddsAll limits eviction entries)
  | _, [] => isTrue trivial
  | inner, (key, value, weight) :: rest =>
    have : Decidable ((inner.insert key value weight limits eviction).2.AddsAll limits eviction
      rest) := decideAddsAll limits eviction _ rest
    inferInstanceAs (Decidable (_ ∧ _))

/-! ## Eviction -/

theorem take_prices {key : K} {entry : Entry V} (h : inner.map.lookup key = some entry) :
    entry.weight + (inner.take key entry).prices = inner.prices := MapSum.total_erase _ h

theorem Ticketed.stale {ticket : K × UInt64} {tickets : List (K × UInt64)}
    (h : inner.Ticketed (ticket :: tickets))
    (hstale : Tickets.live inner.stampOf ticket = false) : inner.Ticketed tickets := by
  intro key entry hentry
  obtain hhead | htail := List.mem_cons.1 (h key entry hentry)
  · rw [← hhead] at hstale
    simp [Tickets.live, stampOf, hentry] at hstale
  · exact htail

theorem lookup_take {key other : K} {entry e : Entry V} :
    (inner.take key entry).map.lookup other = some e ↔
      other ≠ key ∧ inner.map.lookup other = some e := by
  by_cases h : other = key
  · subst h
    simp [take]
  · simp [take, AList.lookup_erase_ne h, h]

theorem Ticketed.take {ticket : K × UInt64} {tickets : List (K × UInt64)}
    (h : inner.Ticketed (ticket :: tickets)) (entry : Entry V) :
    (inner.take ticket.1 entry).Ticketed tickets := by
  intro key e he
  obtain ⟨hne, hlookup⟩ := lookup_take.1 he
  obtain hhead | htail := List.mem_cons.1 (h key e hlookup)
  · exact absurd (congrArg Prod.fst hhead) hne
  · exact htail

/-- However far the total falls short, eviction keeps it that far short, and gets it within the
budget. -/
theorem evictTickets_short (limits : Limits) (short : Nat) (tickets : List (K × UInt64))
    (ht : inner.Ticketed tickets) (hshort : inner.totalWeight = inner.prices - short) :
    let out := (evictTickets limits tickets inner).2
    out.Ticketed out.order ∧ out.totalWeight = out.prices - short ∧
      ∀ max, limits.bytes = some max → out.totalWeight ≤ max := by
  induction tickets generalizing inner with
  | nil =>
    have hzero : inner.prices = 0 :=
      MapSum.total_eq_zero _ fun key entry hentry => absurd (ht key entry hentry) (by simp)
    refine ⟨ht, hshort, fun max _ => ?_⟩
    change inner.totalWeight ≤ max
    omega
  | cons ticket tickets ih =>
    obtain ⟨hover, hrun⟩ | ⟨-, hlive, hrun⟩ | ⟨-, -, entry, hentry, -, hrun⟩ :=
      evictTickets_cases limits ticket tickets inner
    · rw [hrun]
      refine ⟨ht, hshort, fun max hmax => ?_⟩
      simp only [isOver, hmax, Option.any_some, Bool.or_eq_false_iff, decide_eq_false_iff_not,
        not_lt] at hover
      exact hover.2
    · rw [hrun]
      exact ih (ht.stale hlive) hshort
    · rw [hrun]
      have hprices := take_prices hentry
      refine ih (ht.take entry) ?_
      change inner.totalWeight - entry.weight = _
      omega

theorem evictTickets_prices_le (limits : Limits) (tickets : List (K × UInt64)) :
    (evictTickets limits tickets inner).2.prices ≤ inner.prices := by
  induction tickets generalizing inner with
  | nil => exact Nat.le_refl _
  | cons ticket tickets ih =>
    obtain ⟨-, hrun⟩ | ⟨-, -, hrun⟩ | ⟨-, -, entry, hentry, -, hrun⟩ :=
      evictTickets_cases limits ticket tickets inner
    · rw [hrun]
      exact Nat.le_refl _
    · rw [hrun]
      exact ih
    · rw [hrun]
      have hprices := take_prices hentry
      exact ih.trans (by omega)

/-- An entry whose price exceeds the budget by more than the total falls short goes, and so does
everything before it. -/
theorem evictTickets_clears {limits : Limits} {short max : Nat} (hmax : limits.bytes = some max)
    {key : K} {entry : Entry V} (tickets : List (K × UInt64)) (ht : inner.Ticketed tickets)
    (hshort : inner.totalWeight = inner.prices - short)
    (hentry : inner.map.lookup key = some entry) (hlarge : max + short < entry.weight)
    (hlast : ∀ other e, other ≠ key → inner.map.lookup other = some e → e.weight ≠ 0 →
      (other, e.stamp) ∈ tickets.takeWhile (· ≠ (key, entry.stamp))) :
    (evictTickets limits tickets inner).2.prices = 0 := by
  induction tickets generalizing inner with
  | nil => exact absurd (ht key entry hentry) (by simp)
  | cons ticket tickets ih =>
    have hover : inner.isOver limits = true := by
      have hprices := take_prices hentry
      have htotal : inner.totalWeight > max := by omega
      simp [isOver, hmax, htotal]
    obtain ⟨hdone, -⟩ | ⟨-, hlive, hrun⟩ | ⟨-, -, first, hfirst, hstamp, hrun⟩ :=
      evictTickets_cases limits ticket tickets inner
    · rw [hover] at hdone
      cases hdone
    · rw [hrun]
      refine ih (ht.stale hlive) hshort hentry fun other e hne he hpos => ?_
      have hticket := hlast other e hne he hpos
      have hhead : ∀ {x : K} {e : Entry V}, inner.map.lookup x = some e →
          ticket ≠ (x, e.stamp) := by
        rintro x e hx rfl
        simp [Tickets.live, stampOf, hx] at hlive
      rw [List.takeWhile_cons_of_pos (by simpa using hhead hentry)] at hticket
      obtain hsame | htail := List.mem_cons.1 hticket
      · exact absurd hsame.symm (hhead he)
      · exact htail
    · rw [hrun]
      have hprices := take_prices hfirst
      by_cases hkey : ticket.1 = key
      · -- the queue had nothing with a price before the entry, so nothing with a price is left
        subst hkey
        obtain rfl : first = entry := Option.some.inj (hfirst.symm.trans hentry)
        have hrest : (inner.take ticket.1 first).prices = 0 := by
          refine MapSum.total_eq_zero _ fun other e he => ?_
          obtain ⟨hne, hlookup⟩ := lookup_take.1 he
          by_contra hpos
          have hticket := hlast other e hne hlookup hpos
          rw [List.takeWhile_cons_of_neg (by simp [hstamp])] at hticket
          cases hticket
        exact Nat.le_zero.1 (hrest ▸ evictTickets_prices_le limits tickets)
      · refine ih (ht.take first) ?_ (lookup_take.2 ⟨Ne.symm hkey, hentry⟩) ?_
        · change inner.totalWeight - first.weight = _
          omega
        · intro other e hne he hpos
          obtain ⟨hother, hlookup⟩ := lookup_take.1 he
          have hticket := hlast other e hne hlookup hpos
          have hhead : ticket ≠ (key, entry.stamp) := fun h => hkey (congrArg Prod.fst h)
          rw [List.takeWhile_cons_of_pos (by simpa using hhead)] at hticket
          obtain hsame | htail := List.mem_cons.1 hticket
          · exact absurd (congrArg Prod.fst hsame) hother
          · exact htail

/-! ## Placing an entry -/

theorem place_map (inner : Inner K V) (key : K) (value : V) (weight : Nat) (eviction : Eviction) :
    (inner.place key value weight eviction).map = inner.map.insert key
      { value, weight, stamp := (inner.seat key eviction).1 } := by
  unfold place seat
  cases hentry : inner.map.lookup key with
  | none => cases eviction <;> simp [freshStamp, hentry]
  | some entry => cases eviction <;> simp [freshStamp, hentry]

theorem place_order (inner : Inner K V) (key : K) (value : V) (weight : Nat)
    (eviction : Eviction) :
    (inner.place key value weight eviction).order = (inner.seat key eviction).2 := by
  unfold place seat
  cases hentry : inner.map.lookup key with
  | none => cases eviction <;> simp [freshStamp, hentry]
  | some entry => cases eviction <;> simp [freshStamp, hentry]

theorem place_total (inner : Inner K V) (key : K) (value : V) (weight : Nat)
    (eviction : Eviction) :
    (inner.place key value weight eviction).totalWeight =
      saturatingAdd inner.totalWeight weight -
        ((inner.map.lookup key).map Entry.weight).getD 0 := by
  unfold place
  cases hentry : inner.map.lookup key with
  | none => simp [freshStamp, hentry]
  | some entry => cases eviction <;> simp [freshStamp, hentry]

theorem place_prices (inner : Inner K V) (key : K) (value : V) (weight : Nat)
    (eviction : Eviction) :
    (inner.place key value weight eviction).prices =
      weight + MapSum.total Entry.weight (inner.map.erase key) := by
  rw [prices, place_map, MapSum.total_insert]

/-- An exact total falls short by what the addition loses. -/
theorem place_short (hexact : inner.totalWeight = inner.prices) (key : K) (value : V)
    (weight : Nat) (eviction : Eviction) :
    (inner.place key value weight eviction).totalWeight =
      (inner.place key value weight eviction).prices -
        (inner.totalWeight + weight - usizeMax) := by
  have hsum := MapSum.total_erase_eq Entry.weight inner.map key
  rw [place_total, place_prices, saturatingAdd]
  rw [prices] at hexact
  omega

theorem seat_ticket (inner : Inner K V) (ht : inner.Ticketed inner.order) (key : K)
    (eviction : Eviction) :
    (key, (inner.seat key eviction).1) ∈ (inner.seat key eviction).2 ∧
      ∀ ticket ∈ inner.order, ticket ∈ (inner.seat key eviction).2 := by
  unfold seat
  split
  next entry hentry => exact ⟨ht key entry hentry, fun _ h => h⟩
  next => exact ⟨by simp, fun _ h => by simp [h]⟩

theorem place_ticketed (ht : inner.Ticketed inner.order) (key : K) (value : V) (weight : Nat)
    (eviction : Eviction) :
    (inner.place key value weight eviction).Ticketed
      (inner.place key value weight eviction).order := by
  intro other e he
  rw [place_map] at he
  rw [place_order]
  by_cases h : other = key
  · subst h
    rw [AList.lookup_insert] at he
    cases he
    exact (inner.seat_ticket ht other eviction).1
  · rw [AList.lookup_insert_ne h] at he
    exact (inner.seat_ticket ht key eviction).2 _ (ht other e he)

theorem live_of_lookup {key : K} {entry : Entry V} (h : inner.map.lookup key = some entry) :
    inner.live (key, entry.stamp) = true := by simp [live, h]

theorem compact_map (inner : Inner K V) : inner.compact.map = inner.map := by
  unfold compact
  split <;> rfl

theorem compact_total (inner : Inner K V) : inner.compact.totalWeight = inner.totalWeight := by
  unfold compact
  split <;> rfl

theorem compact_ticketed (ht : inner.Ticketed inner.order) :
    inner.compact.Ticketed inner.compact.order := by
  unfold compact
  split
  · exact fun key entry hentry =>
      List.mem_filter.2 ⟨ht key entry hentry, live_of_lookup hentry⟩
  · exact ht

theorem mem_takeWhile_filter {α : Type} [DecidableEq α] {p : α → Bool} {l : List α} {x t : α}
    (h : x ∈ l.takeWhile (· ≠ t)) (hx : p x = true) :
    x ∈ (l.filter p).takeWhile (· ≠ t) := by
  induction l with
  | nil => cases h
  | cons a l ih =>
    by_cases ha : a = t
    · rw [List.takeWhile_cons_of_neg (by simp [ha])] at h
      cases h
    · rw [List.takeWhile_cons_of_pos (by simpa using ha)] at h
      obtain rfl | htail := List.mem_cons.1 h
      · rw [List.filter_cons_of_pos hx, List.takeWhile_cons_of_pos (by simpa using ha)]
        exact List.mem_cons_self
      · by_cases hp : p a = true
        · rw [List.filter_cons_of_pos hp, List.takeWhile_cons_of_pos (by simpa using ha)]
          exact List.mem_cons_of_mem _ (ih htail)
        · rw [List.filter_cons_of_neg hp]
          exact ih htail

theorem compact_before {key : K} {stamp : UInt64} {other : K} {e : Entry V}
    (he : inner.map.lookup other = some e)
    (h : (other, e.stamp) ∈ inner.order.takeWhile (· ≠ (key, stamp))) :
    (other, e.stamp) ∈ inner.compact.order.takeWhile (· ≠ (key, stamp)) := by
  unfold compact
  split
  · exact mem_takeWhile_filter h (live_of_lookup he)
  · exact h

/-! ## What every operation keeps -/
variable {limits : Limits}

theorem Balanced.insert (h : inner.Balanced limits) {eviction : Eviction} {key : K} {weight : Nat}
    (hadds : inner.Adds limits eviction key weight) (value : V) :
    (inner.insert key value weight limits eviction).2.Balanced limits := by
  have ht := compact_ticketed (place_ticketed h.ticketed key value weight eviction)
  have hshort : (inner.place key value weight eviction).compact.totalWeight =
      (inner.place key value weight eviction).compact.prices -
        (inner.totalWeight + weight - usizeMax) := by
    rw [compact_total, prices, compact_map]
    exact place_short h.exact key value weight eviction
  obtain ⟨hticketed, htotal, hwithin⟩ := evictTickets_short limits _ _ ht hshort
  change (evictTickets limits _ _).2.Balanced limits
  suffices hexact : (evictTickets limits (inner.place key value weight eviction).compact.order
      (inner.place key value weight eviction).compact).2.totalWeight = (evictTickets limits
      (inner.place key value weight eviction).compact.order
      (inner.place key value weight eviction).compact).2.prices from
    ⟨hticketed, hexact, fun max hmax => hexact ▸ hwithin max hmax⟩
  by_cases hfits : inner.totalWeight + weight ≤ usizeMax
  · rw [htotal, Nat.sub_eq_zero_of_le hfits, Nat.sub_zero]
  obtain hsum | ⟨hany, hlast⟩ := hadds
  · exact absurd hsum hfits
  obtain ⟨max, hmax, hsmall⟩ := (Option.any_eq_true _ _).1 hany
  rw [decide_eq_true_eq] at hsmall
  have hlookup : (inner.place key value weight eviction).compact.map.lookup key =
      some { value, weight, stamp := (inner.seat key eviction).1 } := by
    rw [compact_map, place_map, AList.lookup_insert]
  have hzero := evictTickets_clears hmax _ ht hshort hlookup (by dsimp only; omega)
    fun other e hne he hpos => by
      refine compact_before (by rwa [compact_map] at he) ?_
      rw [compact_map, place_map, AList.lookup_insert_ne hne] at he
      rw [place_order]
      exact hlast ⟨other, e⟩ (AList.mem_lookup_iff.1 he) hne hpos
  rw [htotal, hzero, Nat.zero_sub]

theorem Balanced.insertBatch {eviction : Eviction} {entries : List (K × V × Nat)}
    (h : inner.Balanced limits) (hadds : inner.AddsAll limits eviction entries) :
    (Inner.insertBatch limits eviction inner entries).2.Balanced limits := by
  induction entries generalizing inner with
  | nil => exact h
  | cons entry rest ih =>
    obtain ⟨key, value, weight⟩ := entry
    exact ih (h.insert hadds.1 value) hadds.2

theorem Balanced.compact (h : inner.Balanced limits) : inner.compact.Balanced limits where
  ticketed := compact_ticketed h.ticketed
  exact := by rw [compact_total, prices, compact_map, h.exact, prices]
  within max hmax := by
    rw [prices, compact_map]
    exact h.within max hmax

/-- A new ticket changes no price. -/
theorem Balanced.touch (h : inner.Balanced limits) (key : K) :
    (inner.touch key).Balanced limits := by
  unfold Inner.touch
  cases hentry : inner.map.lookup key with
  | none =>
    simp only [freshStamp, hentry]
    exact Balanced.compact ⟨h.ticketed, h.exact, h.within⟩
  | some entry =>
    simp only [freshStamp, hentry]
    have hprices : MapSum.total Entry.weight
        (inner.map.insert key { entry with stamp := inner.nextStamp + 1 }) = inner.prices := by
      rw [MapSum.total_insert, prices, ← MapSum.total_erase _ hentry]
    refine Balanced.compact ⟨fun other e he => ?_, ?_, fun max hmax => ?_⟩
    · change AList.lookup other (inner.map.insert key _) = some e at he
      by_cases hne : other = key
      · subst hne
        rw [AList.lookup_insert] at he
        cases he
        simp
      · rw [AList.lookup_insert_ne hne] at he
        exact List.mem_append_left _ (h.ticketed other e he)
    · exact h.exact.trans hprices.symm
    · exact hprices.trans_le (h.within max hmax)

theorem Balanced.fetch (h : inner.Balanced limits) (key : K) (eviction : Eviction) :
    (inner.fetch key eviction).2.Balanced limits := by
  rw [fetch_state]
  split
  · exact h.touch key
  · exact h

theorem Balanced.fetchBatch (h : inner.Balanced limits) (eviction : Eviction) (keys : List K) :
    (Inner.fetchBatch eviction inner keys).2.Balanced limits := by
  induction keys generalizing inner with
  | nil => exact h
  | cons key rest ih => exact ih (h.fetch key eviction)

theorem Balanced.remove (h : inner.Balanced limits) (key : K) :
    (inner.remove key).2.Balanced limits := by
  unfold Inner.remove
  cases hentry : inner.map.lookup key with
  | none => exact h
  | some entry =>
    have hprices := take_prices hentry
    have hexact := h.exact
    change (inner.take key entry).Balanced limits
    refine ⟨fun other e he => h.ticketed other e (lookup_take.1 he).2, ?_, fun max hmax => ?_⟩
    · change inner.totalWeight - entry.weight = _
      omega
    · have hwithin := h.within max hmax
      omega

theorem Balanced.removeBatch (h : inner.Balanced limits) (keys : List K) :
    (inner.removeBatch keys).2.Balanced limits := by
  induction keys generalizing inner with
  | nil => exact h
  | cons key rest ih => exact ih (h.remove key)

end Inner

/-! ## Runs -/
namespace MemoryTier
variable {K V : Type} [DecidableEq K]

def Adds (tier : MemoryTier K V) : OrderedCall K V → Prop
  | .tier (.put key value) =>
    tier.inner.Adds tier.limits tier.eviction key (tier.weightOf key value)
  | .tier (.putMany entries) => tier.inner.AddsAll tier.limits tier.eviction
      (entries.map fun e => (e.1, e.2, tier.weightOf e.1 e.2))
  | _ => True

instance decideAdds (tier : MemoryTier K V) (c : OrderedCall K V) : Decidable (tier.Adds c) := by
  unfold Adds
  split <;> infer_instance

theorem perform_balanced {tier : MemoryTier K V} (h : tier.inner.Balanced tier.limits)
    {c : OrderedCall K V} (hadds : tier.Adds c) :
    (tier.perform c).2.inner.Balanced (tier.perform c).2.limits := by
  cases c with
  | tier call =>
    cases call with
    | get key => exact h.fetch key tier.eviction
    | exists_ key => exact h
    | getMany keys => exact h.fetchBatch tier.eviction keys
    | put key value => exact h.insert hadds value
    | delete key => exact h.remove key
    | putMany entries => exact h.insertBatch hadds
    | deleteMany keys => exact h.removeBatch keys
  | getRef key =>
    have hstate : (tier.inner.getRef key tier.eviction).2 =
        (tier.inner.fetch key tier.eviction).2 := by rw [Inner.getRef_eq]
    change (tier.inner.getRef key tier.eviction).2.Balanced tier.limits
    rw [hstate]
    exact h.fetch key tier.eviction
  | list cursor limit => exact h

theorem perform_limits (tier : MemoryTier K V) (c : OrderedCall K V) :
    (tier.perform c).2.limits = tier.limits := by
  cases c with
  | tier call => cases call <;> rfl
  | getRef key => rfl
  | list cursor limit => rfl

/-- After every run in which each insert adds up, or clears the queue of what has a price, the
weight is the exact sum of the recorded prices, and within the budget. -/
theorem weight_exact (maxEntries : Option ℕ+) (budget : ℕ+) (weigh : K → V → Usize)
    (eviction : Eviction) (calls : List (OrderedCall K V))
    (hadds : Runs.Along (fun (tier : MemoryTier K V) c => (tier.perform c).2) Adds
      (empty maxEntries (some { budget, weigh }) eviction) calls) :
    let tier := Runs.after perform (empty maxEntries (some { budget, weigh }) eviction) calls
    tier.weight = tier.inner.prices ∧ tier.inner.prices ≤ budget := by
  have hstart : (empty maxEntries (some { budget, weigh }) eviction : MemoryTier K V).inner.Balanced
      { entries := maxEntries.map PNat.val, bytes := some budget } :=
    ⟨(fun key entry h => by cases h), rfl, fun max _ => Nat.zero_le max⟩
  have hrun := hadds.keeps
    (fun tier c (h : tier.inner.Balanced tier.limits ∧ tier.limits =
        { entries := maxEntries.map PNat.val, bytes := some budget }) happ =>
      ⟨perform_balanced h.1 happ, (tier.perform_limits c).trans h.2⟩)
    ⟨hstart, rfl⟩
  obtain ⟨hbalanced, hlimits⟩ := hrun
  exact ⟨hbalanced.exact, hbalanced.within budget (congrArg Limits.bytes hlimits)⟩

def selfPriced (budget : ℕ+) : MemoryTier Nat Usize :=
  empty none (some { budget, weigh := fun _ value => value }) .fifo

/-- A value of the largest price goes at once, and the tier with it, however small its budget. -/
theorem weight_exact_heaviest :
    let tier := Runs.after perform (selfPriced 10)
      [.tier (.put 1 4), .tier (.put 2 (-1)), .tier (.put 3 5)]
    tier.weight = tier.inner.prices ∧ tier.inner.prices ≤ (10 : ℕ+) :=
  weight_exact none 10 (fun _ value => value) .fifo _ (by decide)

/-- The heaviest value in place of one that has another behind it in the queue: the total loses
the price of the other one, which stays. -/
theorem weight_drifts :
    let tier := Runs.after perform (selfPriced 10)
      [.tier (.put 1 1), .tier (.put 2 1), .tier (.put 1 (-1))]
    tier.weight = 0 ∧ tier.inner.prices = 1 ∧
      ¬ (tier.weight = tier.inner.prices ∧ tier.inner.prices ≤ (10 : ℕ+)) := by
  decide

end MemoryTier
end Tierstore
