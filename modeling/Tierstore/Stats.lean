import Mathlib.Data.UInt
import Tierstore.Facade
import Tierstore.Lib.Meter

/-! What the counters of a router add up to. Concurrent calls bump them in any order; once all
have returned, a tier has been asked for the keys that the tier above it missed, and the hits
are the keys that the callers found. -/
namespace Tierstore
open Effects

namespace Router
variable {n : Nat} {T K V E : Type}

abbrev CallPool (n : Nat) (T K V E : Type) {ι : Type} (calls : ι → RouterCall K V) :=
  Pool ι (Query n K V) (Answer n K V E) (fun i => (calls i).Output E) (Stack T n)

def answer [Tier T K V E] (q : Query n K V) (s : Stack T n) :
    Option (Answer n K V E q × Stack T n) :=
  some (Stack.exec q s)

def startCalls [Tier T K V E] {ι : Type} (r : Router n) (calls : ι → RouterCall K V)
    (s : Stack T n) : CallPool n T K V E calls := .start s fun i => r.execute (calls i)

end Router

namespace RouterCall
variable {K V E : Type}

def asked : RouterCall K V → Nat
  | .get _ => 1
  | .exists_ _ => 1
  | .readOne _ => 1
  | .getMany keys => keys.length
  | .readMany keys => keys.length
  | _ => 0

def found : (c : RouterCall K V) → c.Output E → Nat
  | .get _, some (.ok (some _)) => 1
  | .exists_ _, some (.ok true) => 1
  | .getMany _, .ok values => values.countP Option.isSome
  | .readMany _, .ok report => report.statuses.countP fun status => status.value.isSome
  | .readOne _, .ok report => if report.status.value.isSome then 1 else 0
  | _, _ => 0

end RouterCall

/-! ## The price of a probe -/

def TierCall.probes {K V E : Type} : (c : TierCall K V) → Except E c.Output → Nat × Nat
  | .get _, .ok (some _) => (1, 0)
  | .get _, .ok none => (0, 1)
  | .exists_ _, .ok true => (1, 0)
  | .exists_ _, .ok false => (0, 1)
  | .getMany keys, .ok values =>
    (values.countP Option.isSome, keys.length - values.countP Option.isSome)
  | _, _ => (0, 0)

namespace Router
variable {n : Nat} {T K V E : Type}

/-- Hits and misses, tier by tier. -/
abbrev Bill (n : Nat) := Fin n → Nat × Nat

def price (q : Query n K V) (a : Answer n K V E q) : Bill n := Pi.single q.1 (q.2.probes a)

def Answered : (q : Query n K V) → Answer n K V E q → Prop
  | (_, .get _), a => ∃ found, a = .ok found
  | (_, .exists_ _), a => ∃ found, a = .ok found
  | (_, .getMany keys), a => ∃ values, a = .ok values ∧ values.length = keys.length
  | _, _ => True

abbrev Priced {α : Type} (law : Bill n → α → Prop) (p : RouterM n K V E α) : Prop :=
  p.Costs Answered price law

/-- From the top of the list down, each tier is asked for what the one above has missed. -/
def Funnels (bill : Bill n) : List (Fin n) → Nat → Nat → Prop
  | [], _, found => found = 0
  | tier :: below, asked, found =>
    (bill tier).1 + (bill tier).2 = asked ∧
      ∃ rest, found = (bill tier).1 + rest ∧ Funnels bill below (bill tier).2 rest

theorem Funnels.congr {bill bill' : Bill n} {tiers : List (Fin n)} {asked found : Nat}
    (h : Funnels bill tiers asked found) (heq : ∀ t ∈ tiers, bill' t = bill t) :
    Funnels bill' tiers asked found := by
  induction tiers generalizing asked found with
  | nil => exact h
  | cons tier below ih =>
    obtain ⟨hasked, rest, hfound, hrest⟩ := h
    rw [Funnels, heq tier (by simp)]
    exact ⟨hasked, rest, hfound, ih hrest fun t ht => heq t (List.mem_cons_of_mem tier ht)⟩

theorem funnels_zero {bill : Bill n} {tiers : List (Fin n)} (h : ∀ t ∈ tiers, bill t = 0) :
    Funnels bill tiers 0 0 := by
  induction tiers with
  | nil => rfl
  | cons tier below ih =>
    rw [Funnels, h tier (by simp)]
    exact ⟨rfl, 0, rfl, ih fun t ht => h t (List.mem_cons_of_mem tier ht)⟩

theorem Funnels.add {bill bill' : Bill n} {tiers : List (Fin n)} {asked asked' found found' : Nat}
    (h : Funnels bill tiers asked found) (h' : Funnels bill' tiers asked' found') :
    Funnels (bill + bill') tiers (asked + asked') (found + found') := by
  induction tiers generalizing asked asked' found found' with
  | nil =>
    rw [Funnels] at h h' ⊢
    rw [h, h']
  | cons tier below ih =>
    obtain ⟨hasked, rest, hfound, hrest⟩ := h
    obtain ⟨hasked', rest', hfound', hrest'⟩ := h'
    refine ⟨?_, rest + rest', ?_, ih hrest hrest'⟩
    · simp only [Pi.add_apply, Prod.fst_add, Prod.snd_add]
      omega
    · simp only [Pi.add_apply, Prod.fst_add]
      omega

theorem Funnels.sum {ι : Type} [Fintype ι] {bill : ι → Bill n} {tiers : List (Fin n)}
    {asked found : ι → Nat} (h : ∀ i, Funnels (bill i) tiers (asked i) (found i)) :
    Funnels (∑ i, bill i) tiers (∑ i, asked i) (∑ i, found i) := by
  classical
  refine Finset.induction_on (motive := fun s => Funnels (∑ i ∈ s, bill i) tiers
    (∑ i ∈ s, asked i) (∑ i ∈ s, found i)) Finset.univ ?_ fun i s hi ih => ?_
  · exact funnels_zero fun _ _ => rfl
  · rw [Finset.sum_insert hi, Finset.sum_insert hi, Finset.sum_insert hi]
    exact (h i).add ih

/-- A walk down the tiers that asks `tier` first. -/
theorem Funnels.cons {bill : Bill n} {tier : Fin n} {below : List (Fin n)} (ht : tier ∉ below)
    (probes : Nat × Nat) {found : Nat} (hzero : bill tier = 0)
    (h : Funnels bill below probes.2 found) :
    Funnels (Pi.single tier probes + bill) (tier :: below) (probes.1 + probes.2)
      (probes.1 + found) := by
  have htop : (Pi.single tier probes + bill : Bill n) tier = probes := by
    simp [hzero]
  rw [Funnels, htop]
  refine ⟨rfl, found, rfl, h.congr fun t hmem => ?_⟩
  have hne : t ≠ tier := fun e => ht (e ▸ hmem)
  simp [Pi.single_eq_of_ne hne]

/-! ## What each operation costs -/
section Costs
variable (r : Router n)

def Walks (tiers : List (Fin n)) (asked found : Nat) (bill : Bill n) : Prop :=
  (∀ t, t ∉ tiers → bill t = 0) ∧ Funnels bill tiers asked found

theorem walks_zero (tiers : List (Fin n)) : Walks tiers 0 0 (0 : Bill n) :=
  ⟨fun _ _ => rfl, funnels_zero fun _ _ => rfl⟩

theorem Walks.cons {tier : Fin n} {below : List (Fin n)} (ht : tier ∉ below) (probes : Nat × Nat)
    {found : Nat} {bill : Bill n} (h : Walks below probes.2 found bill) :
    Walks (tier :: below) (probes.1 + probes.2) (probes.1 + found)
      (Pi.single tier probes + bill) := by
  refine ⟨fun t hmem => ?_, h.2.cons ht probes (h.1 tier ht)⟩
  obtain ⟨hne, hbelow⟩ := not_or.1 (mt List.mem_cons.2 hmem)
  simp [Pi.single_eq_of_ne hne, h.1 t hbelow]

theorem price_write {q : Query n K V} (h : q.2.isWrite = true) (a : Answer n K V E q) :
    price q a = 0 := by
  obtain ⟨t, c⟩ := q
  cases c with
  | get key => cases h
  | exists_ key => cases h
  | getMany keys => cases h
  | put key value => exact Pi.single_zero t
  | delete key => exact Pi.single_zero t
  | putMany entries => exact Pi.single_zero t
  | deleteMany keys => exact Pi.single_zero t

/-- Copies, writes and deletes are no probes. -/
theorem Asks.free {α : Type} {p : RouterM n K V E α} {post : α → Prop}
    (h : p.Safe r.Fills (fun _ _ => True) post) :
    Priced (fun bill a => bill = 0 ∧ post a) p :=
  h.costs fun _ hq a => price_write hq.1 a

def hitCount : Except (RouterError E) (Option V) → Nat
  | .ok (some _) => 1
  | _ => 0

theorem readDown_costs (key : K) {tiers : List (Fin n)} (hnd : tiers.Nodup)
    (failures : List (TierFailure E)) :
    Priced (fun bill a => Walks tiers 1 (hitCount a) bill)
      (r.readDown (V := V) key tiers failures) := by
  induction tiers generalizing failures with
  | nil =>
    refine .done ⟨fun _ _ => rfl, ?_⟩
    unfold exhausted
    split <;> rfl
  | cons tier below ih =>
    obtain ⟨htier, hnd'⟩ := List.nodup_cons.1 hnd
    refine .call fun a ha => ?_
    obtain ⟨found, rfl⟩ := ha
    cases found with
    | some value =>
      have hcopies : Priced (fun bill _ => bill = 0 ∧ True)
          ((r.hitTargets tier).forM fun target => r.promoteOne (E := E) target key (some value)) :=
        Asks.free r (asks_forM fun target => r.promoteOne_fills target key (some value))
      refine hcopies.bind fun bill _ hbill => .done ?_
      rw [hbill.1, zero_add]
      exact Walks.cons htier (1, 0) (walks_zero below)
    | none =>
      refine (ih hnd' failures).mono fun bill a hbill => ?_
      have h := Walks.cons htier (0, 1) hbill
      rwa [zero_add, zero_add] at h

def presentCount : Except (RouterError E) Bool → Nat
  | .ok true => 1
  | _ => 0

theorem existsDown_costs (key : K) {tiers : List (Fin n)} (hnd : tiers.Nodup)
    (failures : List (TierFailure E)) :
    Priced (fun bill a => Walks tiers 1 (presentCount a) bill)
      (r.existsDown (V := V) key tiers failures) := by
  induction tiers generalizing failures with
  | nil =>
    refine .done ⟨fun _ _ => rfl, ?_⟩
    unfold exhausted
    split <;> rfl
  | cons tier below ih =>
    obtain ⟨htier, hnd'⟩ := List.nodup_cons.1 hnd
    refine .call fun a ha => ?_
    obtain ⟨found, rfl⟩ := ha
    cases found with
    | true =>
      refine .done ?_
      exact Walks.cons htier (1, 0) (walks_zero below)
    | false =>
      refine (ih hnd' failures).mono fun bill a hbill => ?_
      have h := Walks.cons htier (0, 1) hbill
      rwa [zero_add, zero_add] at h

structure Pending {m : Nat} (statuses : Fin m → KeyStatus V) (unresolved : List (Fin m)) :
    Prop where
  nodup : unresolved.Nodup
  unresolved : ∀ i, i ∈ unresolved ↔ (statuses i).value = none
  conclusive : ∀ i, (statuses i).isInconclusive = false

/-- One tier's answers, one for each position asked for. -/
theorem resolve_pending {m : Nat} (tier : Fin n) {asked : List (Fin m)} {values : List (Option V)}
    (hlength : values.length = asked.length) (hnd : asked.Nodup) {statuses : Fin m → KeyStatus V}
    (hnone : ∀ i ∈ asked, (statuses i).value = none) :
    let out := resolve tier (asked.zip values) statuses
    out.2.Sublist asked ∧ values.countP Option.isSome + out.2.length = asked.length ∧
      (∀ i, i ∈ out.2 ↔ i ∈ asked ∧ (out.1 i).value = none) ∧
      ∀ i, i ∉ asked → out.1 i = statuses i := by
  induction asked generalizing values statuses with
  | nil =>
    cases List.length_eq_zero_iff.1 hlength
    exact ⟨List.Sublist.refl _, rfl, fun i => by simp [resolve], fun i _ => rfl⟩
  | cons j asked ih =>
    obtain ⟨hj, hnd'⟩ := List.nodup_cons.1 hnd
    have hrest : ∀ i ∈ asked, i ≠ j := fun i hi e => hj (e ▸ hi)
    cases values with
    | nil => cases hlength
    | cons value values =>
      have hlength' : values.length = asked.length := Nat.succ.inj hlength
      cases value with
      | none =>
        obtain ⟨hsub, hcount, hmem, hother⟩ := ih hlength' hnd'
          fun i hi => hnone i (List.mem_cons_of_mem j hi)
        rw [List.zip_cons_cons, resolve]
        refine ⟨hsub.cons_cons j, by simp; omega, fun i => ?_, fun i hi => ?_⟩
        · by_cases hij : i = j
          · subst hij
            simp [hother i hj, hnone i]
          · simp [hij, hmem i]
        · exact hother i fun h => hi (List.mem_cons_of_mem j h)
      | some v =>
        have hnone' : ∀ i ∈ asked,
            (Function.update statuses j (.hit tier v) i).value = none := fun i hi => by
          rw [Function.update_of_ne (hrest i hi)]
          exact hnone i (List.mem_cons_of_mem j hi)
        obtain ⟨hsub, hcount, hmem, hother⟩ := ih hlength' hnd' hnone'
        rw [List.zip_cons_cons, resolve]
        refine ⟨hsub.cons j, by simp; omega, fun i => ?_, fun i hi => ?_⟩
        · by_cases hij : i = j
          · subst hij
            have hhit := hother i hj
            rw [Function.update_self] at hhit
            simp [hmem, hj, hhit, KeyStatus.value]
          · simp [hij, hmem i]
        · obtain ⟨hij, hi⟩ := not_or.1 (mt List.mem_cons.2 hi)
          rw [hother i hi, Function.update_of_ne hij]

theorem Pending.resolve {m : Nat} (tier : Fin n) {unresolved : List (Fin m)}
    {values : List (Option V)} {statuses : Fin m → KeyStatus V} (h : Pending statuses unresolved)
    (hlength : values.length = unresolved.length) :
    Pending (resolve tier (unresolved.zip values) statuses).1
      (resolve tier (unresolved.zip values) statuses).2 := by
  obtain ⟨hsub, -, hmem, hother⟩ := resolve_pending tier hlength h.nodup
    fun i hi => (h.unresolved i).1 hi
  refine ⟨hsub.nodup h.nodup, fun i => ?_, fun i => ?_⟩
  · rw [hmem i]
    refine ⟨fun hi => hi.2, fun hi => ⟨?_, hi⟩⟩
    by_contra hasked
    rw [hother i hasked, ← h.unresolved i] at hi
    exact hasked hi
  · obtain hold | ⟨v, -, hhit⟩ := resolve_cases tier (unresolved.zip values) statuses i
    · rw [hold]
      exact h.conclusive i
    · rw [hhit]
      rfl

theorem readTiers_costs (keys : List K) {tiers : List (Fin n)} (hnd : tiers.Nodup)
    {statuses : Fin keys.length → KeyStatus V} {unresolved : List (Fin keys.length)}
    (hpending : Pending statuses unresolved) :
    Priced (fun bill a => ∃ statuses' unresolved' found, a = .ok (statuses', unresolved', []) ∧
        Pending statuses' unresolved' ∧ found + unresolved'.length = unresolved.length ∧
        Walks tiers unresolved.length found bill)
      (r.readTiers (E := E) keys tiers statuses unresolved []) := by
  induction tiers generalizing statuses unresolved with
  | nil =>
    exact .done ⟨statuses, unresolved, 0, rfl, hpending, Nat.zero_add _, fun _ _ => rfl, rfl⟩
  | cons tier below ih =>
    obtain ⟨htier, hnd'⟩ := List.nodup_cons.1 hnd
    rw [readTiers]
    split
    · next hempty =>
      have hnil : unresolved = [] := List.isEmpty_iff.1 hempty
      subst hnil
      exact .done ⟨statuses, [], 0, rfl, hpending, rfl, walks_zero (tier :: below)⟩
    · refine .call fun a ha => ?_
      obtain ⟨values, rfl, hvalues⟩ := ha
      have hlength : values.length = unresolved.length := by simpa using hvalues
      have hcount := (resolve_pending tier hlength hpending.nodup
        fun i hi => (hpending.unresolved i).1 hi).2.1
      refine (ih hnd' (hpending.resolve tier hlength)).mono ?_
      rintro bill a ⟨statuses', unresolved', found, rfl, hpending', hfound, hwalk⟩
      have hmissed : (TierCall.probes (E := E) (.getMany (unresolved.map keys.get))
          (.ok values)).2 = (resolve tier (unresolved.zip values) statuses).2.length := by
        simp only [TierCall.probes, List.length_map]
        omega
      rw [← hmissed] at hwalk
      have h := Walks.cons htier _ hwalk
      refine ⟨statuses', unresolved', values.countP Option.isSome + found, rfl, hpending', ?_, ?_⟩
      · omega
      · have hasked : (TierCall.probes (E := E) (.getMany (unresolved.map keys.get))
            (.ok values)).1 + (TierCall.probes (E := E) (.getMany (unresolved.map keys.get))
            (.ok values)).2 = unresolved.length := by
          rw [hmissed]
          exact hcount
        rw [hasked] at h
        exact h

/-- The positions with a value and the ones without are all positions. -/
theorem Pending.count {m : Nat} {statuses : Fin m → KeyStatus V} {unresolved : List (Fin m)}
    (h : Pending statuses unresolved) :
    (List.ofFn statuses).countP (fun status => status.value.isSome) + unresolved.length = m := by
  have hperm : unresolved.Perm
      ((List.finRange m).filter fun i => (statuses i).value.isNone) := by
    refine (List.perm_ext_iff_of_nodup h.nodup ((List.nodup_finRange m).filter _)).2 fun i => ?_
    simp [h.unresolved i]
  have hnone : unresolved.length =
      (List.finRange m).countP fun i => decide (¬(statuses i).value.isSome = true) := by
    rw [hperm.length_eq, ← List.countP_eq_length_filter]
    exact List.countP_congr fun i _ => by simp
  have hsome : (List.ofFn statuses).countP (fun status => status.value.isSome) =
      (List.finRange m).countP fun i => (statuses i).value.isSome := by
    rw [List.ofFn_eq_map, List.countP_map]
    rfl
  have hall := List.length_eq_countP_add_countP (fun i => (statuses i).value.isSome)
    (l := List.finRange m)
  rw [List.length_finRange] at hall
  rw [hnone, hsome]
  exact hall.symm

/-- A batched read over tiers that answer: no failures, and every status is a hit or a miss. -/
theorem readMany_costs (keys : List K) :
    Priced (fun bill a => ∃ report, a = .ok report ∧ report.failures = [] ∧
        report.statuses.length = keys.length ∧
        report.statuses.any KeyStatus.isInconclusive = false ∧
        Walks (List.finRange n) keys.length
          (report.statuses.countP fun status => status.value.isSome) bill)
      (r.readMany keys : RouterM n K V E _) := by
  have hstart : Pending (fun _ => KeyStatus.miss : Fin keys.length → KeyStatus V)
      (List.finRange keys.length) :=
    ⟨List.nodup_finRange _, fun i => by simp [KeyStatus.value], fun _ => rfl⟩
  refine (r.readTiers_costs keys (List.nodup_finRange n) hstart).bind ?_
  rintro bill a ⟨statuses, unresolved, found, rfl, hpending, hfound, hwalk⟩
  refine (Asks.free r (r.promoteBatch_fills keys statuses)).bind ?_
  rintro copies _ ⟨rfl, -⟩
  have hcount := hpending.count
  rw [List.length_finRange] at hfound hwalk
  have hfound' : (List.ofFn statuses).countP (fun status => status.value.isSome) = found := by
    omega
  refine .done ⟨_, rfl, rfl, by simp, ?_, ?_⟩
  · rw [List.any_eq_false]
    intro status hstatus
    obtain ⟨i, rfl⟩ := List.mem_ofFn.1 hstatus
    simp [hpending.conclusive i]
  · simpa [hfound'] using hwalk

theorem execute_costs (c : RouterCall K V) :
    Priced (fun bill a => Walks (List.finRange n) c.asked (c.found a) bill)
      (r.execute c : RouterM n K V E _) := by
  have hnd := List.nodup_finRange n
  have hwrite {α : Type} {p : RouterM n K V E α} (h : Asks r.Fills p) :
      Priced (fun bill _ => Walks (List.finRange n) 0 0 bill) p := by
    refine (Asks.free r h).mono ?_
    rintro bill a ⟨rfl, -⟩
    exact walks_zero _
  cases c with
  | get key =>
    change Priced _ (r.get key)
    rw [get_eq, map_eq_pure_bind]
    refine (r.readDown_costs key hnd []).bind fun bill a hbill => .done ?_
    rw [add_zero]
    cases a with
    | error e => exact hbill
    | ok found => cases found <;> exact hbill
  | exists_ key =>
    change Priced _ (r.exists_ key)
    rw [exists_eq, map_eq_pure_bind]
    refine (r.existsDown_costs key hnd []).bind fun bill a hbill => .done ?_
    rw [add_zero]
    cases a with
    | error e => exact hbill
    | ok found => cases found <;> exact hbill
  | readMany keys =>
    refine (r.readMany_costs keys).mono ?_
    rintro bill a ⟨report, rfl, -, -, -, hwalk⟩
    exact hwalk
  | readOne key =>
    refine (r.readMany_costs [key]).bind ?_
    rintro bill a ⟨report, rfl, -, hlength, -, hwalk⟩
    refine .done ?_
    obtain ⟨status, hstatus⟩ := List.length_eq_one_iff.1 hlength
    rw [add_zero]
    simpa [RouterCall.found, RouterCall.asked, hstatus, List.countP_singleton] using hwalk
  | getMany keys =>
    refine (r.readMany_costs keys).bind ?_
    rintro bill a ⟨report, rfl, -, -, hconclusive, hwalk⟩
    dsimp only
    rw [hconclusive]
    refine .done ?_
    rw [add_zero]
    change Walks _ _ ((report.statuses.map KeyStatus.value).countP Option.isSome) bill
    rw [List.countP_map]
    exact hwalk
  | put key value => exact hwrite (r.put_fills key value)
  | delete key => exact hwrite (r.delete_fills key)
  | putMany entries => exact hwrite (r.putMany_fills entries)
  | deleteMany keys =>
    refine hwrite ((r.removeMany_fills keys).andThen fun report => ?_)
    split <;> trivial
  | removeMany keys => exact hwrite (r.removeMany_fills keys)

end Costs

/-! ## The counters -/

/-- The counters show the bill, up to the width of a counter. -/
def Metered (s : Stack T n) (bill : Bill n) : Prop :=
  ∀ t, (s t).counters.hits = UInt64.ofNat (bill t).1 ∧
    (s t).counters.misses = UInt64.ofNat (bill t).2

theorem metered_build (tiers : Fin n → T) : Metered (Stack.build tiers) 0 :=
  fun _ => ⟨rfl, rfl⟩

theorem record_probes {t : Fin n} {c : TierCall K V} {a : Answer n K V E (t, c)}
    (ha : Answered (t, c) a) (counters : Counters) :
    (Counters.record c a counters).hits = counters.hits + UInt64.ofNat (c.probes a).1 ∧
      (Counters.record c a counters).misses =
        counters.misses + UInt64.ofNat (c.probes a).2 := by
  cases c with
  | get key =>
    obtain ⟨found, rfl⟩ := ha
    cases found <;> simp [Counters.record, TierCall.probes]
  | exists_ key =>
    obtain ⟨found, rfl⟩ := ha
    cases found <;> simp [Counters.record, TierCall.probes]
  | getMany keys =>
    obtain ⟨values, rfl, hlength⟩ := ha
    have hle : values.countP Option.isSome ≤ keys.length := hlength ▸ List.countP_le_length
    refine ⟨rfl, ?_⟩
    simp only [Counters.record, TierCall.probes, UInt64.ofNat_sub hle]
  | put key value => cases a <;> simp [Counters.record, TierCall.probes]
  | delete key => cases a <;> simp [Counters.record, TierCall.probes]
  | putMany entries => cases a <;> simp [Counters.record, TierCall.probes]
  | deleteMany keys => cases a <;> simp [Counters.record, TierCall.probes]

section Lawful
variable [DecidableEq K] [Tier T K V E]

theorem reads_answered [LawfulTier T]
    (hreads : ∀ (t : T) (c : TierCall K V), c.isWrite = false → ∃ a, (Tier.call t c).1 = .ok a)
    (q : Query n K V) (s : Stack T n) : Answered q (Stack.exec q s).1 := by
  obtain ⟨t, c⟩ := q
  cases c with
  | get key => exact hreads (s t).tier (.get key) rfl
  | exists_ key => exact hreads (s t).tier (.exists_ key) rfl
  | getMany keys =>
    obtain ⟨values, hvalues⟩ := hreads (s t).tier (.getMany keys) rfl
    refine ⟨values, hvalues, ?_⟩
    rw [LawfulTier.getMany_ok (s t).tier keys values hvalues, List.length_map]
  | put key value => trivial
  | delete key => trivial
  | putMany entries => trivial
  | deleteMany keys => trivial

omit [DecidableEq K] in
theorem Metered.exec {q : Query n K V} {s : Stack T n} {bill : Bill n} (h : Metered s bill)
    (ha : Answered q (Stack.exec q s).1) :
    Metered (Stack.exec q s).2 (bill + price q (Stack.exec q s).1) := by
  intro t
  by_cases ht : t = q.1
  · subst ht
    obtain ⟨hhits, hmisses⟩ := record_probes ha (s q.1).counters
    simp only [Stack.exec, Function.update_self, price, Pi.add_apply, Pi.single_eq_same,
      Prod.fst_add, Prod.snd_add, UInt64.ofNat_add, ← (h q.1).1, ← (h q.1).2]
    exact ⟨hhits, hmisses⟩
  · rw [Stack.exec_other q s ht, price, Pi.add_apply, Pi.single_eq_of_ne ht, add_zero]
    exact h t

theorem meters_answer [LawfulTier T]
    (hreads : ∀ (t : T) (c : TierCall K V), c.isWrite = false → ∃ a, (Tier.call t c).1 = .ok a) :
    Pool.Meters (answer : (q : Query n K V) → Stack T n → _) Answered price Metered := by
  intro q s bill a s' hs hans
  have ha := reads_answered hreads q s
  cases hans
  exact ⟨ha, hs.exec ha⟩

end Lawful

/-- A funnel in the bill is one in the counters. -/
theorem Funnels.stats (r : Router n) {s : Stack T n} {bill : Bill n} (hs : Metered s bill)
    {tiers : List (Fin n)} {asked found : Nat} (h : Funnels bill tiers asked found) :
    let stats := tiers.map (r.tierStats s)
    stats.IsChain (fun upper lower => lower.hits + lower.misses = upper.misses) ∧
      (∀ top ∈ stats.head?, top.hits + top.misses = UInt64.ofNat asked) ∧
      (stats.map TierStats.hits).sum = UInt64.ofNat found := by
  induction tiers generalizing asked found with
  | nil =>
    rw [Funnels] at h
    subst h
    exact ⟨.nil, fun _ htop => by (cases htop), rfl⟩
  | cons tier below ih =>
    obtain ⟨hasked, rest, hfound, hrest⟩ := h
    obtain ⟨hchain, hhead, hsum⟩ := ih hrest
    refine ⟨?_, ?_, ?_⟩
    · refine List.isChain_cons.2 ⟨fun lower hlower => ?_, hchain⟩
      rw [hhead lower hlower]
      exact (hs tier).2.symm
    · rintro top htop
      cases htop
      rw [← hasked, UInt64.ofNat_add]
      exact congrArg₂ _ (hs tier).1 (hs tier).2
    · rw [hfound, UInt64.ofNat_add, List.map_cons, List.map_cons, List.sum_cons, hsum]
      exact congrArg (· + _) (hs tier).1

/-- Once any number of concurrent calls have returned, over tiers that answer every read: what a
tier was asked for is what the tier above it missed, the top tier was asked for what the calls
looked up, and the hits are what the calls report as present. -/
theorem stats_funnel {ι : Type} [Fintype ι] [DecidableEq ι] [DecidableEq K] [Tier T K V E]
    [LawfulTier T]
    (hreads : ∀ (t : T) (c : TierCall K V), c.isWrite = false → ∃ a, (Tier.call t c).1 = .ok a)
    (r : Router n) (tiers : Fin n → T) (calls : ι → RouterCall K V) (schedule : List ι)
    (results : (i : ι) → (calls i).Output E) :
    let c := Pool.run answer (startCalls r calls (Stack.build tiers)) schedule
    (∀ i, c.threads i = .done (results i)) →
      let stats := r.stats c.shared
      stats.IsChain (fun upper lower => lower.hits + lower.misses = upper.misses) ∧
        (∀ top ∈ stats.head?, top.hits + top.misses = UInt64.ofNat (∑ i, (calls i).asked)) ∧
        (stats.map TierStats.hits).sum = UInt64.ofNat (∑ i, (calls i).found (results i)) := by
  intro c hdone
  obtain ⟨bill, hmetered, hbills⟩ := Pool.metered_done (meters_answer hreads)
    (fun i => r.execute_costs (E := E) (calls i)) (metered_build tiers) hdone
  rw [stats, List.ofFn_eq_map]
  exact Funnels.stats r hmetered (Funnels.sum fun i => (hbills i).2)

/-- Two reads at once over two tiers: the first tier has neither key, the second has one. -/
theorem stats_funnel_memory :
    let tiers : Fin 2 → MemoryTier Nat Nat := fun i =>
      if i.val = 0 then .unbounded else (Tier.put (.unbounded : MemoryTier Nat Nat) 7 1).2
    let r : Router 2 := .uniform 2 "memory" .default
    let calls : Fin 2 → RouterCall Nat Nat := fun i => .get (if i.val = 0 then 5 else 7)
    let final := Pool.run answer (startCalls r calls (Stack.build tiers)) [0, 1, 0, 1]
    let stats := r.stats final.shared
    stats.map (fun tier => (tier.hits, tier.misses)) = [(0, 2), (1, 1)] ∧
      stats.IsChain fun upper lower => lower.hits + lower.misses = upper.misses := by
  intro tiers r calls final stats
  refine ⟨by decide, ?_⟩
  refine (stats_funnel (fun t c _ => ?_) r tiers calls [0, 1, 0, 1]
    (fun i => some (.ok (if i.val = 0 then none else some 1))) ?_).1
  · cases h : (Tier.call t c).1 with
    | ok a => exact ⟨a, rfl⟩
    | error e => exact e.elim
  · exact Fin.forall_fin_two.2 ⟨rfl, rfl⟩

end Router
end Tierstore
