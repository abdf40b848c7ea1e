import Tierstore.Lib.Losses
import Tierstore.ReadPaths
import Tierstore.Transparency

/-! What a read pushes down a stack of memory tiers: it loses a key exactly when a promotion pushes
the last copy of the key off the bottom. -/
namespace Tierstore
open Overlay Effects

section Tiers
variable {K V : Type} [DecidableEq K]

def MemoryTier.takeIn (tier : MemoryTier K V) (entries : List (K × V)) :
    Displaced K V × MemoryTier K V :=
  let out := Inner.insertWeighed tier.limits tier.eviction tier.weightOf tier.inner entries
  (out.1, { tier with inner := out.2 })

/-- Entries go into the first tier, what a tier displaces goes into the next one, and what the
last one displaces comes out. -/
def pushDown : List (MemoryTier K V) → Displaced K V → Displaced K V × List (MemoryTier K V)
  | [], entries => (entries, [])
  | tier :: below, entries =>
    let out := tier.takeIn entries
    let rest := pushDown below out.1
    (rest.1, out.2 :: rest.2)

def copyInto (tiers : List (MemoryTier K V)) (target : Nat) (entries : List (K × V)) :
    Displaced K V × List (MemoryTier K V) :=
  let out := pushDown (tiers.drop target) entries
  (out.1, tiers.take target ++ out.2)

def HeldBy (tiers : List (MemoryTier K V)) (key : K) : Prop := ∃ tier ∈ tiers, key ∈ tier.inner.map

instance (tiers : List (MemoryTier K V)) (key : K) : Decidable (HeldBy tiers key) :=
  inferInstanceAs (Decidable (∃ tier ∈ tiers, key ∈ tier.inner.map))

def shownBy (tiers : List (MemoryTier K V)) : K → Option V :=
  stacked (fun tier => tier.inner.values) tiers

theorem heldBy_iff {tiers : List (MemoryTier K V)} {key : K} :
    HeldBy tiers key ↔ shownBy tiers key ≠ none := by
  rw [shownBy, Ne, stacked_eq_none]
  simp only [HeldBy, Inner.values, Option.map_eq_none_iff, AList.lookup_eq_none, not_forall,
    not_not, exists_prop]

@[simp] theorem MemoryTier.takeIn_nil (tier : MemoryTier K V) : tier.takeIn [] = ([], tier) := rfl

theorem MemoryTier.put_eq (tier : MemoryTier K V) (key : K) (value : V) :
    (Tier.put tier key value : Except Infallible (Displaced K V) × MemoryTier K V) =
      (.ok (tier.takeIn [(key, value)]).1, (tier.takeIn [(key, value)]).2) := by
  simp only [takeIn, Inner.insertWeighed, List.map_cons, List.map_nil, Inner.insertBatch,
    List.append_nil]
  rfl

theorem MemoryTier.takeIn_cons (tier : MemoryTier K V) (e : K × V) (rest : List (K × V)) :
    tier.takeIn (e :: rest) = ((tier.takeIn [e]).1 ++ ((tier.takeIn [e]).2.takeIn rest).1,
      ((tier.takeIn [e]).2.takeIn rest).2) := by
  simp only [takeIn, Inner.insertWeighed, List.map_cons, List.map_nil, Inner.insertBatch,
    List.append_nil]
  rfl

@[simp] theorem pushDown_nil (tiers : List (MemoryTier K V)) : pushDown tiers [] = ([], tiers) := by
  induction tiers with
  | nil => rfl
  | cons tier below ih => rw [pushDown, MemoryTier.takeIn_nil, ih]

/-- What is pushed in is shown over what the tiers showed, or has come out. -/
theorem pushDown_conserves (tiers : List (MemoryTier K V)) (entries : Displaced K V) :
    atop (shownBy (pushDown tiers entries).2) (latest (pushDown tiers entries).1) =
      write (shownBy tiers) entries := by
  induction tiers generalizing entries with
  | nil => simp [pushDown, shownBy, stacked, write]
  | cons tier below ih =>
    have htier := Inner.insertWeighed_conserves tier.limits tier.eviction tier.weightOf tier.inner
      entries
    have hbelow := ih (tier.takeIn entries).1
    rw [pushDown]
    change atop (atop (tier.takeIn entries).2.inner.values
        (shownBy (pushDown below (tier.takeIn entries).1).2)) _ =
      write (atop tier.inner.values (shownBy below)) entries
    rw [atop_assoc, hbelow, write_atop, ← htier, write, atop_assoc]
    rfl

theorem pushDown_balance (tiers : List (MemoryTier K V)) (entries : Displaced K V) (key : K) :
    HeldBy (pushDown tiers entries).2 key ∨ key ∈ (pushDown tiers entries).1.map Prod.fst ↔
      HeldBy tiers key ∨ key ∈ entries.map Prod.fst := by
  have h : atop (shownBy (pushDown tiers entries).2) (latest (pushDown tiers entries).1) key =
      none ↔ write (shownBy tiers) entries key = none := by
    rw [pushDown_conserves]
  rw [write, atop, atop, Option.or_eq_none_iff, Option.or_eq_none_iff, latest_eq_none,
    latest_eq_none] at h
  rw [heldBy_iff, heldBy_iff, ← not_iff_not, not_or, not_or, not_not, not_not]
  exact h.trans and_comm

theorem copyInto_balance (tiers : List (MemoryTier K V)) (target : Nat) (entries : List (K × V))
    (key : K) :
    HeldBy (copyInto tiers target entries).2 key ∨
        key ∈ (copyInto tiers target entries).1.map Prod.fst ↔
      HeldBy tiers key ∨ key ∈ entries.map Prod.fst := by
  have happend : ∀ above below : List (MemoryTier K V),
      HeldBy (above ++ below) key ↔ HeldBy above key ∨ HeldBy below key := by
    intro above below
    simp only [HeldBy, List.mem_append, or_and_right, exists_or]
  have hsplit : HeldBy tiers key ↔
      HeldBy (tiers.take target) key ∨ HeldBy (tiers.drop target) key := by
    rw [← happend, List.take_append_drop]
  rw [copyInto]
  dsimp only
  rw [happend, or_assoc, pushDown_balance, hsplit, or_assoc]

def copies (n : Nat) (K V : Type) [DecidableEq K] :
    Losses.System (List (MemoryTier K V)) (Fin n × List (K × V)) K where
  step tiers copy := (copyInto tiers copy.1 copy.2).2
  falls tiers copy := (copyInto tiers copy.1 copy.2).1.map Prod.fst
  takes copy := copy.2.map Prod.fst
  has := HeldBy
  balance tiers copy key := copyInto_balance tiers copy.1 copy.2 key

instance (n : Nat) (tiers : List (MemoryTier K V)) (key : K) :
    Decidable ((copies n K V).has tiers key) :=
  inferInstanceAs (Decidable (HeldBy tiers key))

end Tiers

namespace Router
variable {n : Nat} {K V E : Type} (r : Router n)

def promotions (keys : List K) (statuses : Fin keys.length → KeyStatus V) :
    List (Fin n × List (K × V)) :=
  (List.finRange n).flatMap fun tier =>
    if tier.val = 0 ∨ hitEntries keys statuses tier = [] then []
    else (r.promoteTargets tier).map fun target => (target, hitEntries keys statuses tier)

theorem promoteBatch_eq (keys : List K) (statuses : Fin keys.length → KeyStatus V) :
    (r.promoteBatch keys statuses : RouterM n K V E Unit) =
      (r.promotions keys statuses).forM fun copy => r.promoteInto copy.1 copy.2 := by
  have htiers : ∀ l : List (Fin n), (r.promoteTiers keys statuses l : RouterM n K V E Unit) =
      (l.flatMap fun tier =>
        if tier.val = 0 ∨ hitEntries keys statuses tier = [] then []
        else (r.promoteTargets tier).map fun target =>
          (target, hitEntries keys statuses tier)).forM
        fun copy => r.promoteInto copy.1 copy.2 := by
    intro l
    induction l with
    | nil => rfl
    | cons tier rest ih =>
      rw [promoteTiers, ih, List.flatMap_cons]
      simp only [List.forM_eq_forM, List.forM_append]
      split
      · rfl
      · rw [List.forM_map]
  rw [promoteBatch]
  split
  · next hnever =>
    have hnone : r.promotions keys statuses = [] := by
      rw [promotions, List.flatMap_eq_nil_iff]
      intro tier _
      simp [promoteTargets, hnever]
    rw [hnone]
    rfl
  · exact htiers (List.finRange n)

end Router

namespace Stack
variable {K V : Type} [DecidableEq K] {n : Nat}

/-! ## Promotions on a stack -/

def tiersOf (s : Stack (MemoryTier K V) n) (l : List (Fin n)) : List (MemoryTier K V) :=
  l.map fun i => (s i).tier

omit [DecidableEq K] in
theorem tiersOf_congr {s s' : Stack (MemoryTier K V) n} {l : List (Fin n)}
    (h : ∀ i ∈ l, s i = s' i) : tiersOf s l = tiersOf s' l :=
  List.map_congr_left fun i hi => by rw [h i hi]

theorem shownBy_tiersOf (s : Stack (MemoryTier K V) n) (l : List (Fin n)) :
    shownBy (tiersOf s l) = s.view l := by
  induction l with
  | nil => rfl
  | cons i rest ih =>
    rw [view_cons, ← ih]
    rfl

theorem heldBy_tiersOf {s : Stack (MemoryTier K V) n} {key : K} :
    HeldBy (tiersOf s (List.finRange n)) key ↔ s.shown key ≠ none := by
  rw [heldBy_iff, shownBy_tiersOf]
  rfl

/-- The demotion loop is the tier taking the entries in. -/
theorem run_demoteInto (target : Fin n) (current next : Displaced K V)
    (s : Stack (MemoryTier K V) n) :
    let out := run (E := Infallible) (Router.demoteInto target current next) s
    out.1 = next ++ ((s target).tier.takeIn current).1 ∧
      (out.2 target).tier = ((s target).tier.takeIn current).2 ∧
      ∀ j, j ≠ target → out.2 j = s j := by
  induction current generalizing next s with
  | nil => exact ⟨(List.append_nil next).symm, rfl, fun _ _ => rfl⟩
  | cons e rest ih =>
    obtain ⟨key, value⟩ := e
    have hanswer := exec_answer (E := Infallible) (target, .put key value) s
    have htier := exec_tier (E := Infallible) (target, .put key value) s
    have hother (j : Fin n) := exec_other (E := Infallible) (target, .put key value) s (j := j)
    rw [Tier.call, MemoryTier.put_eq] at hanswer htier
    rw [MemoryTier.takeIn_cons]
    simp only [Router.demoteInto, run_bind, run_putAt]
    generalize exec (E := Infallible) (target, .put key value) s = out at *
    obtain ⟨a, s'⟩ := out
    subst hanswer
    obtain ⟨hnext, htarget, hrest⟩ := ih (next ++ ((s target).tier.takeIn [(key, value)]).1) s'
    rw [htier, List.append_assoc] at hnext
    rw [htier] at htarget
    exact ⟨hnext, htarget, fun j hj => (hrest j hj).trans (hother j hj)⟩

section Copies
variable (r : Router n) (hw : ∀ i, r.writable i = true)
include hw

/-- The demotion cascade is the tiers pushing down what they displace. -/
theorem run_demoteDown (below : List (Fin n)) (hnd : below.Nodup) (current : Displaced K V)
    (s : Stack (MemoryTier K V) n) :
    let out := run (E := Infallible) (r.demoteDown below current) s
    out.1 = (pushDown (tiersOf s below) current).1 ∧
      tiersOf out.2 below = (pushDown (tiersOf s below) current).2 ∧
      ∀ j, j ∉ below → out.2 j = s j := by
  induction below generalizing current s with
  | nil => exact ⟨rfl, rfl, fun _ _ => rfl⟩
  | cons target below ih =>
    obtain ⟨htarget, hnd'⟩ := List.nodup_cons.1 hnd
    rw [Router.demoteDown]
    by_cases hempty : current.isEmpty = true
    · obtain rfl : current = [] := List.isEmpty_iff.1 hempty
      rw [pushDown_nil]
      exact ⟨rfl, rfl, fun _ _ => rfl⟩
    · have hwt : (!r.writable target) = false := by simp [hw target]
      simp only [hempty, hwt, Bool.false_eq_true, if_false, run_bind]
      obtain ⟨hout, htier, hother⟩ := run_demoteInto target current [] s
      generalize run (E := Infallible) (Router.demoteInto target current []) s = into at *
      obtain ⟨next, s₁⟩ := into
      dsimp only at hout htier hother ⊢
      obtain ⟨hlast, hbelow, hrest⟩ := ih hnd' next s₁
      have hsame : tiersOf s₁ below = tiersOf s below :=
        tiersOf_congr fun i hi => hother i fun h => htarget (h ▸ hi)
      rw [List.nil_append] at hout
      subst hout
      rw [hsame] at hlast hbelow
      refine ⟨hlast, ?_, fun j hj => ?_⟩
      · rw [tiersOf, List.map_cons, hrest target htarget, htier]
        exact congrArg _ hbelow
      · rw [List.mem_cons, not_or] at hj
        rw [hrest j hj.2, hother j hj.1]

variable (hd : r.policy.demoteDisplaced = true)
include hd

/-- A promotion of a batched read copies the entries into its target. -/
theorem run_promoteInto (target : Fin n) (entries : List (K × V))
    (s : Stack (MemoryTier K V) n) :
    tiersOf (run (E := Infallible) (r.promoteInto target entries) s).2 (List.finRange n) =
      (copyInto (tiersOf s (List.finRange n)) target entries).2 := by
  obtain ⟨above, below, hsplit⟩ := exists_split target
  have htier := exec_tier (E := Infallible) (target, .putMany entries) s
  have hother (j : Fin n) := exec_other (E := Infallible) (target, .putMany entries) s (j := j)
  obtain ⟨d, hanswer, hrun⟩ := run_promoteWith r hw hd target (putManyAt target entries) s
  rw [run_putManyAt] at hanswer hrun
  have hdisplaced : d = ((s target).tier.takeIn entries).1 := by
    have h := exec_answer (E := Infallible) (target, .putMany entries) s
    rw [hanswer] at h
    exact Except.ok.inj h
  subst hdisplaced
  generalize (exec (E := Infallible) (target, .putMany entries) s).2 = s₁ at *
  obtain ⟨-, hbelow, hkept⟩ := run_demoteDown r hw below (nodup_below_of_split hsplit)
    ((s target).tier.takeIn entries).1 s₁
  rw [Router.demote, tiersBelow_of_split hsplit] at hrun
  rw [Router.promoteInto, hrun]
  generalize (run (E := Infallible) (r.demoteDown below _) s₁).2 = s₂ at *
  obtain ⟨hbelow', habove⟩ := not_mem_of_split hsplit
  have hbefore : tiersOf s₂ above = tiersOf s above := tiersOf_congr fun i hi => by
    obtain ⟨hne, hni⟩ := disjoint_of_split hsplit hi
    rw [hkept i hni, hother i hne]
  have hafter : tiersOf s₁ below = tiersOf s below := tiersOf_congr fun i hi =>
    hother i fun (h : i = target) => hbelow' (h ▸ hi)
  have hlength : (target : Nat) = (tiersOf s above).length := by
    rw [val_of_split hsplit, tiersOf, List.length_map]
  rw [hafter] at hbelow
  have hall : ∀ s : Stack (MemoryTier K V) n, tiersOf s (List.finRange n) =
      tiersOf s above ++ (s target).tier :: tiersOf s below := by
    intro s
    rw [hsplit, tiersOf, List.map_append, List.map_cons]
    rfl
  rw [copyInto, hall s, hall s₂, hlength, List.drop_left, List.take_left, hbefore, hbelow,
    hkept target hbelow', htier]
  rfl

theorem run_promotions (promotions : List (Fin n × List (K × V)))
    (s : Stack (MemoryTier K V) n) :
    tiersOf (run (E := Infallible)
        (promotions.forM fun copy => r.promoteInto copy.1 copy.2) s).2 (List.finRange n) =
      promotions.foldl (copies n K V).step (tiersOf s (List.finRange n)) := by
  induction promotions generalizing s with
  | nil => rfl
  | cons copy later ih =>
    have hfirst := run_promoteInto r hw hd copy.1 copy.2 s
    change tiersOf (run (r.promoteInto copy.1 copy.2 >>= fun _ =>
      later.forM fun copy => r.promoteInto copy.1 copy.2) s).2 _ = _
    rw [run_bind, ih, hfirst]
    rfl

end Copies

/-! ## Reads -/

/-- The condition on a batched read, in the state its probes leave: whenever a promotion pushes
an entry off the bottom, some tier holds the key then, or a later promotion copies it. -/
def Spares (r : Router n) (s : Stack (MemoryTier K V) n) (keys : List K) : Prop :=
  match run (E := Infallible) (r.readTiers keys (List.finRange n) (fun _ => .miss)
      (List.finRange keys.length) []) s with
  | (.ok (statuses, _), probed) =>
    (copies n K V).Spares (tiersOf probed (List.finRange n)) (r.promotions keys statuses)
  | (.error _, _) => True

instance (r : Router n) (s : Stack (MemoryTier K V) n) (keys : List K) :
    Decidable (Spares r s keys) :=
  match h : run (E := Infallible) (r.readTiers keys (List.finRange n) (fun _ => .miss)
      (List.finRange keys.length) []) s with
  | (.ok (statuses, _), probed) =>
    decidable_of_iff ((copies n K V).Spares (tiersOf probed (List.finRange n))
      (r.promotions keys statuses)) (by rw [Spares, h])
  | (.error _, _) => isTrue (by rw [Spares, h]; trivial)

theorem mem_promotions {r : Router n} {keys : List K} {statuses : Fin keys.length → KeyStatus V}
    {key : K} (h : key ∈ (r.promotions keys statuses).flatMap (copies n K V).takes) :
    ∃ index v, keys.get index = key ∧ (statuses index).value = some v := by
  obtain ⟨copy, hcopy, hkey⟩ := List.mem_flatMap.1 h
  obtain ⟨tier, -, hcopy⟩ := List.mem_flatMap.1 hcopy
  split at hcopy
  · cases hcopy
  · obtain ⟨target, -, rfl⟩ := List.mem_map.1 hcopy
    obtain ⟨e, he, rfl⟩ := List.mem_map.1 hkey
    obtain ⟨index, -, hindex⟩ := List.mem_filterMap.1 he
    obtain ⟨v, hv, rfl⟩ := Option.map_eq_some_iff.1 hindex
    exact ⟨index, v, rfl, hv⟩

/-- A batched read keeps every key that is shown exactly when it spares what falls. -/
theorem readMany_keeps_iff (r : Router n) (hw : ∀ i, r.writable i = true)
    (hd : r.policy.demoteDisplaced = true) (s : Stack (MemoryTier K V) n) (keys : List K) :
    (∀ k v, s.shown k = some v →
      (run (E := Infallible) (r.readMany keys) s).2.shown k = some v) ↔ Spares r s keys := by
  have htracks := (readMany_tracks r hw hd MemoryTier.keeping_unbounded keys
    (⟨Within.refl False s.shown, False.elim⟩ : Tracks _ False s.shown s)).2.1
  obtain ⟨s', hund, hres⟩ := readTiers_spec r (fun e : Infallible => e.elim) keys []
    (List.finRange n) rfl s (fun _ => .miss) (List.finRange keys.length) (fun _ => rfl)
    (fun i => by simp [view, stacked])
  obtain ⟨statuses, unresolved, hstat, hrun⟩ | ⟨t, source, -⟩ := hres
  · have hfinal : (run (E := Infallible) (r.readMany keys) s).2 =
        (run (E := Infallible) (r.promoteBatch keys statuses) s').2 := by
      rw [Router.readMany, run_bind, hrun]
      simp only [List.isEmpty_nil, if_true, run_bind]
      rfl
    rw [hfinal] at htracks ⊢
    rw [Spares, hrun]
    dsimp only
    rw [Losses.System.spares_iff, ← run_promotions r hw hd, ← Router.promoteBatch_eq]
    generalize (run (E := Infallible) (r.promoteBatch keys statuses) s').2 = final at *
    constructor
    · intro hkeep key hkey
      have hshown : ∃ v, s.shown key = some v := by
        obtain hheld | htaken := hkey
        · rw [← hund.shown]
          exact Option.ne_none_iff_exists'.1 (heldBy_tiersOf.1 hheld)
        · obtain ⟨index, v, rfl, hv⟩ := mem_promotions htaken
          exact ⟨v, (hstat index).symm.trans hv⟩
      obtain ⟨v, hv⟩ := hshown
      refine heldBy_tiersOf.2 ?_
      rw [hkeep key v hv]
      exact Option.some_ne_none v
    · intro hkeep key v hv
      have hheld : HeldBy (tiersOf s' (List.finRange n)) key := by
        refine heldBy_tiersOf.2 ?_
        rw [hund.shown, hv]
        exact Option.some_ne_none v
      obtain ⟨w, hw⟩ := Option.ne_none_iff_exists'.1 (heldBy_tiersOf.1 (hkeep key (Or.inl hheld)))
      rw [hw, ← hv, htracks.1 key w hw]
  · exact source.elim

/-- A single-key read moves the tiers as a batched read of that key does. -/
theorem get_stack (r : Router n) (key : K) (s : Stack (MemoryTier K V) n) :
    (run (E := Infallible) (r.get key) s).2 = (run (E := Infallible) (r.readMany [key]) s).2 := by
  have h := (read_paths_agree MemoryTier.oneByOne r key s).2.1
  rw [h, TieredCache.get, TieredCache.lookup, Router.readOne, run_bind, run_bind]
  generalize run (E := Infallible) (r.readMany [key]) s = out
  obtain ⟨answer, s'⟩ := out
  cases answer <;> rfl

def Readable (r : Router n) (s : Stack (MemoryTier K V) n) (key : K) (value : V) : Prop :=
  (run (E := Infallible) (r.get key) s).1 = some (.ok (some value))

theorem readable_iff {r : Router n} (hw : ∀ i, r.writable i = true)
    (hd : r.policy.demoteDisplaced = true) {s : Stack (MemoryTier K V) n} {key : K} {value : V} :
    Readable r s key value ↔ s.shown key = some value := by
  have hget := (get_tracks r hw hd MemoryTier.keeping_unbounded key
    (⟨Within.refl False s.shown, False.elim⟩ : Tracks _ False s.shown s)).1
  rw [Readable, hget]
  simp

end Stack

namespace RouterOp

def reads {K V : Type} : RouterOp K V → Option (List K)
  | .get key => some [key]
  | .readMany keys => some keys
  | _ => none

end RouterOp

/-- In a run of a router over memory tiers with any bounds, no read loses a key that was
readable before it exactly when every read spares what it pushes off the bottom. -/
theorem reads_lose_nothing_iff {K V : Type} [DecidableEq K] {n : Nat} (r : Router n)
    (hw : ∀ i, r.writable i = true) (hd : r.policy.demoteDisplaced = true)
    (tiers : Fin n → MemoryTier K V) (ops : List (RouterOp K V)) :
    Runs.Along (Stack.perform r)
        (fun s op => op.reads ≠ none → ∀ key value, Stack.Readable r s key value →
          Stack.Readable r (Stack.perform r s op) key value) (Stack.build tiers) ops ↔
      Runs.Along (Stack.perform r) (fun s op => ∀ keys ∈ op.reads, Stack.Spares r s keys)
        (Stack.build tiers) ops := by
  have hread : ∀ (s : Stack (MemoryTier K V) n) (keys : List K),
      (∀ key value, Stack.Readable r s key value → Stack.Readable r
        (Stack.run (E := Infallible) (r.readMany keys) s).2 key value) ↔
      Stack.Spares r s keys := by
    intro s keys
    simp only [Stack.readable_iff hw hd]
    exact Stack.readMany_keeps_iff r hw hd s keys
  have hstep : ∀ (s : Stack (MemoryTier K V) n) (op : RouterOp K V),
      (op.reads ≠ none → ∀ key value, Stack.Readable r s key value →
        Stack.Readable r (Stack.perform r s op) key value) ↔
      ∀ keys ∈ op.reads, Stack.Spares r s keys := by
    intro s op
    cases op with
    | get key =>
      simp only [RouterOp.reads, Stack.perform, Stack.get_stack, hread]
      simp
    | readMany keys =>
      simp only [RouterOp.reads, Stack.perform, hread]
      simp
    | exists_ key => simp [RouterOp.reads]
    | put key value => simp [RouterOp.reads]
    | putMany entries => simp [RouterOp.reads]
    | delete key => simp [RouterOp.reads]
    | removeMany keys => simp [RouterOp.reads]
  exact ⟨fun h => h.imp fun op _ s => (hstep s op).1, fun h => h.imp fun op _ s => (hstep s op).2⟩

def oneOverTwo : Fin 2 → MemoryTier Nat Nat := fun i =>
  if i.val = 0 then .oneSlot else .bounded ⟨2, Nat.two_pos⟩

/-- The promotion pushes nothing off the bottom but the promoted key. -/
theorem reads_lose_nothing_rotating :
    Runs.Along (Stack.perform memoryCache)
      (fun s op => op.reads ≠ none → ∀ key value, Stack.Readable memoryCache s key value →
        Stack.Readable memoryCache (Stack.perform memoryCache s op) key value)
      (Stack.build oneOverTwo) [.put 2 20, .putMany [(3, 30), (4, 40)], .get 2] := by
  refine (reads_lose_nothing_iff memoryCache (fun _ => rfl) rfl oneOverTwo _).2 ?_
  decide +kernel

/-- The read of key 3 promotes it over key 4, which pushes key 2 off the bottom. -/
theorem read_loses_key :
    let s := Stack.performAll memoryCache (Stack.build oneOverTwo)
      [.put 2 20, .putMany [(3, 30), (4, 40)]]
    Stack.Readable memoryCache s 2 20 ∧
      (Stack.run (E := Infallible) (memoryCache.get 3) s).1 = some (.ok (some 30)) ∧
      ¬ Stack.Readable memoryCache (Stack.perform memoryCache s (.get 3)) 2 20 := by
  unfold Stack.Readable
  decide +kernel

end Tierstore
