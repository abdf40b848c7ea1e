import Tierstore.Gates
import Tierstore.Invalidate

/-! Concurrent writers and readers of one key over tiers that never displace: what the order
of their steps leaves in the tiers, and when the copies agree. -/
namespace Tierstore
open Overlay Effects

namespace TieredCache
variable {n : Nat} {T K V : Type}

/-- How far a call on one key is: a write-through has the tiers `rest` to write yet, a read
has what it hit, and where, in its hand. -/
inductive Phase (n : Nat) (V : Type) where
  | writing (rest : List (Fin n))
  | reading (hand : Option (Nat × V))

def Allowed (k : K) (call : CacheCall K V) : Phase n V → CacheQuery n K V → Prop
  | .writing (t :: _), .tier (t', .put key v) => t' = t ∧ key = k ∧ call = .put key v
  | .reading none, .tier (_, .getMany keys) => keys = [k]
  | .reading (some (tier, v)), .tier (t, .putMany entries) =>
    tier ≠ 0 ∧ t.val = 0 ∧ entries ≠ [] ∧ ∀ e ∈ entries, e = (k, v)
  | .reading none, .acquire _ => True
  | .reading _, .release _ => True
  | _, _ => False

/-- A put has one tier less to write, a hit is to be promoted, and a read that gives up its
gate has promoted what it had. -/
def advance : Phase n V → (q : CacheQuery n K V) → CacheAnswer n K V Infallible q → Phase n V
  | .writing (_ :: rest), .tier (_, .put _ _), _ => .writing rest
  | .reading _, .tier (t, .getMany _), .ok [some v] => .reading (some (t.val, v))
  | .reading _, .release _, _ => .reading none
  | phase, _, _ => phase

def KeptReply : (q : CacheQuery n K V) → CacheAnswer n K V Infallible q → Prop
  | .tier (_, .put _ _), .ok d => d = []
  | .tier (_, .putMany _), .ok d => d = []
  | .tier (_, .getMany keys), .ok found => found.length = keys.length
  | _, _ => True

abbrev Phased {α : Type} (k : K) (call : CacheCall K V) (post : Phase n V → α → Prop)
    (p : CacheM n K V Infallible α) (phase : Phase n V) : Prop :=
  p.Follows (Allowed k call) KeptReply advance post phase

abbrev PhasedRouter {α : Type} (k : K) (call : CacheCall K V) (post : Phase n V → α → Prop)
    (p : RouterM n K V Infallible α) (phase : Phase n V) : Prop :=
  p.Follows (fun g q => Allowed k call g (.tier q)) (fun q a => KeptReply (.tier q) a)
    (fun g q a => advance g (.tier q) a) post phase

theorem phased_lift {α : Type} {k : K} {call : CacheCall K V} {post : Phase n V → α → Prop}
    {p : RouterM n K V Infallible α} {phase : Phase n V} (h : PhasedRouter k call post p phase) :
    Phased k call post (lift p) phase := by
  refine Program.Follows.embed ?_ ?_ ?_ h
  · exact fun _ _ hq => hq
  · exact fun _ _ hr => hr
  · exact fun _ _ _ => rfl

variable (r : Router n) (hw : ∀ i, r.writable i = true) (hp : r.policy = defaultPolicy)

include hw in
theorem writeThrough_phased (k : K) (v : V) (rest : List (Fin n)) :
    PhasedRouter k (.put k v) (fun _ _ => True)
      (r.writeThrough (fun tier => putAt tier k v) rest []) (.writing rest) := by
  induction rest with
  | nil => trivial
  | cons t rest ih =>
    rw [Router.writeThrough]
    simp only [hw t, Bool.not_true, Bool.false_eq_true, if_false]
    refine ⟨⟨rfl, rfl, rfl⟩, fun a ha => ?_⟩
    cases a with
    | error e => exact e.elim
    | ok d =>
      obtain rfl : d = [] := ha
      exact ih

include hw hp in
theorem put_phased (k : K) (v : V) :
    PhasedRouter k (.put k v) (fun _ _ => True) (put r k v)
      (.writing (List.finRange n).reverse) := by
  have hmode : r.policy.write = .writeThrough := by rw [hp]; rfl
  rw [put, Router.put, hmode]
  dsimp only
  split
  · trivial
  · exact writeThrough_phased r hw k v _

/-- The probes of a lookup: at their end the hand is what was hit. -/
theorem readTiers_phased (k : K) (call : CacheCall K V) (tiers : List (Fin n))
    (statuses : Fin [k].length → KeyStatus V) (hmiss : ∀ i, (statuses i).value = none) :
    PhasedRouter k call
      (fun g a => ∃ hand statuses left, g = .reading hand ∧ a = .ok (statuses, left, []) ∧
        ∀ i tier v, statuses i = .hit tier v → hand = some (tier, v))
      (r.readTiers [k] tiers statuses (List.finRange [k].length) []) (.reading none) := by
  induction tiers with
  | nil =>
    refine ⟨none, statuses, _, rfl, rfl, fun i tier v hhit => ?_⟩
    have hnone := hmiss i
    rw [hhit] at hnone
    cases hnone
  | cons t below ih =>
    refine ⟨rfl, fun a ha => ?_⟩
    cases a with
    | error e => exact e.elim
    | ok found =>
      obtain ⟨answer, rfl⟩ := List.length_eq_one_iff.1 ha
      cases answer with
      | none => exact ih
      | some v =>
        have hdone : ∀ tiers : List (Fin n), r.readTiers (E := Infallible) [k] tiers
            (Function.update statuses 0 (.hit t v)) [] [] =
              .done (.ok (Function.update statuses 0 (.hit t v), [], [])) := by
          intro tiers
          cases tiers <;> rfl
        change PhasedRouter k call _ (r.readTiers [k] below
          (Function.update statuses 0 (.hit t v)) [] []) (.reading (some (t.val, v)))
        rw [hdone]
        refine ⟨some (t.val, v), _, _, rfl, rfl, fun i tier w hi => ?_⟩
        have hi0 : i = 0 := Fin.fin_one_eq_zero i
        rw [hi0, Function.update_self] at hi
        injection hi with htier hv
        rw [htier, hv]

include hw in
/-- A promotion of the value in hand to the top. -/
theorem promoteInto_phased {k : K} {call : CacheCall K V} {tier : Nat} {v : V}
    {entries : List (K × V)} (htier : tier ≠ 0) (hne : entries ≠ [])
    (hentries : ∀ e ∈ entries, e = (k, v)) {target : Fin n} (htop : target.val = 0) :
    PhasedRouter k call (fun g _ => g = .reading (some (tier, v)))
      (r.promoteInto target entries) (.reading (some (tier, v))) := by
  rw [Router.promoteInto, Router.promoteWith, if_pos (hw target)]
  refine ⟨⟨htier, htop, hne, hentries⟩, fun a ha => ?_⟩
  cases a with
  | error e => exact e.elim
  | ok d =>
    obtain rfl : d = [] := ha
    have hquiet : (r.policy.demoteDisplaced && !([] : List (K × V)).isEmpty) = false := by simp
    change PhasedRouter k call _ (if (r.policy.demoteDisplaced && !([] : List (K × V)).isEmpty)
      = true then _ else pure ()) _
    rw [hquiet]
    rfl

include hw in
theorem promoteAll_phased {k : K} {call : CacheCall K V} {tier : Nat} {v : V}
    {entries : List (K × V)} (htier : tier ≠ 0) (hne : entries ≠ [])
    (hentries : ∀ e ∈ entries, e = (k, v)) {targets : List (Fin n)}
    (htop : ∀ target ∈ targets, target.val = 0) :
    PhasedRouter k call (fun g _ => g = .reading (some (tier, v)))
      (targets.forM fun target => r.promoteInto target entries)
      (.reading (some (tier, v))) := by
  induction targets with
  | nil => rfl
  | cons target rest ih =>
    change PhasedRouter k call _ (r.promoteInto target entries >>= fun _ =>
      rest.forM fun target => r.promoteInto target entries) _
    refine (promoteInto_phased r hw htier hne hentries (htop target (by simp))).bind ?_
    rintro _ _ rfl
    exact ih fun t ht => htop t (List.mem_cons_of_mem _ ht)

include hp in
theorem promoteTargets_top {t target : Fin n} (h : target ∈ r.promoteTargets t) :
    target.val = 0 := by
  rw [Router.promoteTargets, hp] at h
  obtain ⟨i, hi, rfl⟩ := List.mem_take_iff_getElem.1 h
  have hi0 : i = 0 := by omega
  simp [hi0]

include hw hp in
theorem promoteTiers_phased {k : K} {call : CacheCall K V}
    {statuses : Fin [k].length → KeyStatus V} {hand : Option (Nat × V)}
    (hhand : ∀ i tier v, statuses i = .hit tier v → hand = some (tier, v))
    (tiers : List (Fin n)) :
    PhasedRouter k call (fun g _ => ∃ hand, g = .reading hand)
      (r.promoteTiers [k] statuses tiers) (.reading hand) := by
  induction tiers with
  | nil => exact ⟨hand, rfl⟩
  | cons t rest ih =>
    rw [Router.promoteTiers]
    dsimp only
    split
    · exact ih
    · next hsome =>
      obtain ⟨htier, hne⟩ := not_or.1 hsome
      have hhit : ∀ e ∈ Router.hitEntries [k] statuses t, e.1 = k ∧ hand = some (t.val, e.2) := by
        intro e he
        obtain ⟨i, hkey, hi⟩ := Router.hit_of_mem_hitEntries he
        exact ⟨by rw [← hkey]; simp, hhand i t.val e.2 hi⟩
      obtain ⟨e, he⟩ := List.exists_mem_of_ne_nil _ hne
      obtain ⟨-, rfl⟩ := hhit e he
      have hentries : ∀ e' ∈ Router.hitEntries [k] statuses t, e' = (k, e.2) := by
        intro e' he'
        obtain ⟨hk, hv⟩ := hhit e' he'
        exact Prod.ext hk (Prod.mk.inj (Option.some.inj hv)).2.symm
      refine (promoteAll_phased r hw htier hne hentries
        fun target h => promoteTargets_top r hp h).bind ?_
      rintro _ _ rfl
      exact ih

include hw hp in
theorem readOne_phased (k : K) (call : CacheCall K V) :
    PhasedRouter k call (fun g _ => ∃ hand, g = .reading hand) (r.readOne k)
      (.reading none) := by
  have hmany : PhasedRouter k call (fun g _ => ∃ hand, g = .reading hand) (r.readMany [k])
      (.reading none) := by
    refine (readTiers_phased r k call (List.finRange n) (fun _ => .miss) fun _ => rfl).bind ?_
    rintro _ _ ⟨hand, statuses, left, rfl, rfl, hhand⟩
    have hpromote : PhasedRouter k call (fun g _ => ∃ hand, g = .reading hand)
        (r.promoteBatch [k] statuses) (.reading hand) := by
      rw [Router.promoteBatch]
      split
      · exact ⟨hand, rfl⟩
      · exact promoteTiers_phased r hw hp hhand _
    exact hpromote.bind fun _ _ h => h
  refine hmany.bind fun g a hg => ?_
  cases a with
  | error e => exact hg
  | ok report => exact hg

def startPhase : CacheCall K V → Phase n V
  | .put _ _ => .writing (List.finRange n).reverse
  | _ => .reading none

include hw hp in
/-- The calls of the scenario keep to their phases. -/
theorem perform_phased (singleFlight : Bool) (k : K) (call : CacheCall K V)
    (hcall : call = .get k ∨ ∃ v, call = .put k v) :
    Phased k call (fun _ _ => True) (perform r singleFlight call) (startPhase call) := by
  obtain rfl | ⟨v, rfl⟩ := hcall
  · have hread := phased_lift (readOne_phased (K := K) (V := V) r hw hp k (.get k))
    have hlookup : Phased k (.get k) (fun _ _ => True) (lookupGated r singleFlight k)
        (.reading (n := n) (V := V) none) := by
      unfold lookupGated
      split
      · exact hread.mono fun _ _ _ => trivial
      · refine ⟨trivial, fun _ _ => hread.bind ?_⟩
        rintro _ _ ⟨hand, rfl⟩
        cases hand <;> exact ⟨trivial, fun _ _ => trivial⟩
    exact hlookup.bind fun _ _ _ => trivial
  · exact (phased_lift (put_phased r hw hp k v)).mono fun _ _ _ => trivial

include hw in
theorem writeThrough_must (k : K) (v : V) {t : Fin n} {tiers : List (Fin n)} (ht : t ∈ tiers)
    (evicted : Displaced K V) :
    (r.writeThrough (fun tier => putAt tier k v) tiers evicted :
      RouterM n K V Infallible _).Must (t, .put k v) := by
  induction tiers generalizing evicted with
  | nil => cases ht
  | cons tier above ih =>
    rw [Router.writeThrough]
    simp only [hw tier, Bool.not_true, Bool.false_eq_true, if_false]
    obtain rfl | habove := List.mem_cons.1 ht
    · exact Or.inl rfl
    · refine Or.inr fun a => ?_
      cases a with
      | error e => exact e.elim
      | ok displaced =>
        change Program.Must _ (if displaced.isEmpty then
            r.writeThrough (fun tier => putAt tier k v) above evicted
          else if r.policy.demoteDisplaced then r.demote tier displaced >>= fun out =>
            r.writeThrough (fun tier => putAt tier k v) above (evicted ++ out)
          else r.writeThrough (fun tier => putAt tier k v) above (evicted ++ displaced))
        split
        · exact ih habove _
        · split
          · exact Program.Must.bind fun _ => ih habove _
          · exact ih habove _

include hw hp in
theorem put_must (k : K) (v : V) (t : Fin n) :
    (put r k v : RouterM n K V Infallible _).Must (t, .put k v) := by
  have hmode : r.policy.write = .writeThrough := by rw [hp]; rfl
  rw [put, Router.put, hmode, Router.any_writable (hw t)]
  exact writeThrough_must r hw k v (by simp) []

/-! ## The order of the steps -/
section Order
variable {ι : Type}

/-- The value of the last put to write tier `t`. -/
def lastPut (t : Fin n) : List (ι × CacheQuery n K V) → Option V
  | [] => none
  | (_, .tier (t', .put _ w)) :: before => if t' = t then some w else lastPut t before
  | _ :: before => lastPut t before

/-- No put writes a tier of the thread `last`'s put after that one has. -/
def WritesBefore (last : ι) (k : K) (v : V) (before : List (ι × CacheQuery n K V))
    (e : ι × CacheQuery n K V) : Prop :=
  ∀ t w, e.2 = .tier (t, .put k w) → (last, .tier (t, .put k v)) ∉ before

variable [DecidableEq ι]

/-- What thread `i` last fetched from a tier that only puts write. -/
def lastFetch (start : Fin n → Option V) (i : ι) : List (ι × CacheQuery n K V) → Option V
  | [] => none
  | (j, .tier (t, .getMany _)) :: before =>
    if j = i then (lastPut t before).or (start t) else lastFetch start i before
  | _ :: before => lastFetch start i before

/-- What the last write of tier `t` wrote: a put its value, a promotion what its thread had
fetched. -/
def lastWrite (start : Fin n → Option V) (t : Fin n) : List (ι × CacheQuery n K V) → Option V
  | [] => start t
  | (_, .tier (t', .put _ w)) :: before => if t' = t then some w else lastWrite start t before
  | (i, .tier (t', .putMany _)) :: before =>
    if t' = t then lastFetch start i before else lastWrite start t before
  | _ :: before => lastWrite start t before

/-- Thread `i` last fetched from a tier that the thread `last`'s put had written. -/
def FetchedWritten (last : ι) (k : K) (v : V) (i : ι) : List (ι × CacheQuery n K V) → Prop
  | [] => False
  | (j, .tier (t, .getMany _)) :: before =>
    if j = i then (last, .tier (t, .put k v)) ∈ before else FetchedWritten last k v i before
  | _ :: before => FetchedWritten last k v i before

/-- What a read promotes into a tier that the thread `last`'s put has written, it fetched
from one that this put had written. -/
def PromotesFresh (last : ι) (k : K) (v : V) (before : List (ι × CacheQuery n K V))
    (e : ι × CacheQuery n K V) : Prop :=
  ∀ t entries, e.2 = .tier (t, .putMany entries) →
    (last, .tier (t, .put k v)) ∈ before → FetchedWritten last k v e.1 before

def PutsOf (calls : ι → CacheCall K V) (k : K) (log : List (ι × CacheQuery n K V)) : Prop :=
  ∀ i t key w, (i, .tier (t, .put key w)) ∈ log → key = k ∧ calls i = .put k w

section Log
variable {calls : ι → CacheCall K V} {k : K} {v : V} {last : ι} {start : Fin n → Option V}
  {log : List (ι × CacheQuery n K V)} {t : Fin n}

omit [DecidableEq ι] in
theorem PutsOf.tail {e : ι × CacheQuery n K V} (h : PutsOf calls k (e :: log)) :
    PutsOf calls k log :=
  fun i t key w hmem => h i t key w (List.mem_cons_of_mem _ hmem)

omit [DecidableEq ι] in
/-- A put that writes a tier after the last put did, or is it, is the last put. -/
theorem WritesBefore.value {i : ι} {key : K} {w : V}
    (h : WritesBefore last k v log (i, .tier (t, .put key w)))
    (hputs : PutsOf calls k ((i, .tier (t, .put key w)) :: log)) (hlast : calls last = .put k v)
    (hmem : (last, .tier (t, .put k v)) ∈ (i, .tier (t, .put key w)) :: log) : w = v := by
  obtain ⟨rfl, hcall⟩ := hputs i t key w List.mem_cons_self
  obtain heq | hlog := List.mem_cons.1 hmem
  · obtain rfl : last = i := congrArg Prod.fst heq
    rw [hlast] at hcall
    injection hcall with _ hv
    exact hv.symm
  · exact absurd hlog (h t w rfl)

omit [DecidableEq ι] in
theorem lastPut_eq (hlast : calls last = .put k v) (hputs : PutsOf calls k log)
    (hbefore : Each (WritesBefore last k v) log) (hmem : (last, .tier (t, .put k v)) ∈ log) :
    lastPut t log = some v := by
  induction log with
  | nil => cases hmem
  | cons e log ih =>
    have htail (hne : (last, .tier (t, .put k v)) ≠ e) : lastPut t log = some v :=
      ih hputs.tail hbefore.2 ((List.mem_cons.1 hmem).resolve_left hne)
    obtain ⟨i, q⟩ := e
    cases q with
    | acquire key => exact htail (by simp)
    | release key => exact htail (by simp)
    | tier q =>
      obtain ⟨t', c⟩ := q
      cases c with
      | put key w =>
        by_cases ht : t' = t
        · subst ht
          simpa [lastPut] using hbefore.1.value hputs hlast hmem
        · simpa [lastPut, ht] using htail (by simp [Ne.symm ht])
      | _ => exact htail (by simp)

omit [DecidableEq ι] in
theorem exists_lastPut (hputs : PutsOf calls k log) {i : ι}
    (hmem : (i, .tier (t, .put k v)) ∈ log) :
    ∃ j w, calls j = .put k w ∧ lastPut t log = some w := by
  induction log with
  | nil => cases hmem
  | cons e log ih =>
    have htail (hne : (i, .tier (t, .put k v)) ≠ e) :
        ∃ j w, calls j = .put k w ∧ lastPut t log = some w :=
      ih hputs.tail ((List.mem_cons.1 hmem).resolve_left hne)
    obtain ⟨j, q⟩ := e
    cases q with
    | acquire key => exact htail (by simp)
    | release key => exact htail (by simp)
    | tier q =>
      obtain ⟨t', c⟩ := q
      cases c with
      | put key w =>
        by_cases ht : t' = t
        · subst ht
          exact ⟨j, w, (hputs j t' key w List.mem_cons_self).2, by simp [lastPut]⟩
        · simpa [lastPut, ht] using htail (by simp [Ne.symm ht])
      | _ => exact htail (by simp)

theorem lastFetch_eq (hlast : calls last = .put k v) (hputs : PutsOf calls k log)
    (hbefore : Each (WritesBefore last k v) log) {i : ι}
    (hfetched : FetchedWritten last k v i log) : lastFetch start i log = some v := by
  induction log with
  | nil => exact hfetched.elim
  | cons e log ih =>
    obtain ⟨j, q⟩ := e
    have htail := ih hputs.tail hbefore.2
    cases q with
    | acquire key => exact htail hfetched
    | release key => exact htail hfetched
    | tier q =>
      obtain ⟨t, c⟩ := q
      cases c with
      | getMany keys =>
        rw [FetchedWritten] at hfetched
        rw [lastFetch]
        split at hfetched
        · next hji =>
          rw [if_pos hji, lastPut_eq hlast hputs.tail hbefore.2 hfetched, Option.some_or]
        · next hji =>
          rw [if_neg hji]
          exact htail hfetched
      | _ => exact htail hfetched

theorem lastWrite_eq (hlast : calls last = .put k v) (hputs : PutsOf calls k log)
    (hbefore : Each (WritesBefore last k v) log) (hfresh : Each (PromotesFresh last k v) log)
    (hmem : (last, .tier (t, .put k v)) ∈ log) : lastWrite start t log = some v := by
  induction log with
  | nil => cases hmem
  | cons e log ih =>
    have htail (hne : (last, .tier (t, .put k v)) ≠ e) : lastWrite start t log = some v :=
      ih hputs.tail hbefore.2 hfresh.2 ((List.mem_cons.1 hmem).resolve_left hne)
    obtain ⟨i, q⟩ := e
    cases q with
    | acquire key => exact htail (by simp)
    | release key => exact htail (by simp)
    | tier q =>
      obtain ⟨t', c⟩ := q
      cases c with
      | put key w =>
        by_cases ht : t' = t
        · subst ht
          simpa [lastWrite] using hbefore.1.value hputs hlast hmem
        · simpa [lastWrite, ht] using htail (by simp [Ne.symm ht])
      | putMany entries =>
        by_cases ht : t' = t
        · subst ht
          have hlog := (List.mem_cons.1 hmem).resolve_left (by simp)
          rw [lastWrite, if_pos rfl]
          exact lastFetch_eq hlast hputs.tail hbefore.2 (hfresh.1 t' entries rfl hlog)
        · rw [lastWrite, if_neg ht]
          exact htail (by simp)
      | _ => exact htail (by simp)

end Log

/-- Every tier holds what the order of the steps says, and a hit below the top is still in
the hand of its read. -/
structure Replays (calls : ι → CacheCall K V) (k : K) (start : Fin n → Option V)
    (log : List (ι × CacheQuery n K V)) (held : Fin n → K → Option V) (phase : ι → Phase n V) :
    Prop where
  putsOf : PutsOf calls k log
  copies : ∀ t, held t k = lastWrite start t log
  below : ∀ t, t.val ≠ 0 → lastWrite start t log = (lastPut t log).or (start t)
  inHand : ∀ i tier w, phase i = .reading (some (tier, w)) → tier ≠ 0 →
    lastFetch start i log = some w

section Steps
variable {calls : ι → CacheCall K V} {k : K} {start : Fin n → Option V}
  {log : List (ι × CacheQuery n K V)} {held held' : Fin n → K → Option V}
  {phase : ι → Phase n V} {i : ι}

omit [DecidableEq ι] in
/-- The next step is no put. -/
theorem PutsOf.cons {q : CacheQuery n K V} (h : PutsOf calls k log)
    (hq : ∀ t key w, q ≠ .tier (t, .put key w)) : PutsOf calls k ((i, q) :: log) := by
  intro j t key w hmem
  obtain heq | hmem := List.mem_cons.1 hmem
  · exact absurd (congrArg Prod.snd heq).symm (hq t key w)
  · exact h j t key w hmem

theorem Replays.put (h : Replays calls k start log held phase) {t : Fin n}
    {rest : List (Fin n)} {w : V} (hcall : calls i = .put k w) (hheld : held' t k = some w)
    (hothers : ∀ j ≠ t, held' j = held j) :
    Replays calls k start ((i, .tier (t, .put k w)) :: log) held'
      (Function.update phase i (.writing rest)) := by
  refine ⟨fun j t' key w' hmem => ?_, fun j => ?_, fun j hj => ?_, fun j tier w' hj htier => ?_⟩
  · obtain heq | hmem := List.mem_cons.1 hmem
    · cases heq
      exact ⟨rfl, hcall⟩
    · exact h.putsOf j t' key w' hmem
  · rw [lastWrite]
    split
    · next htj => rw [← htj, hheld]
    · next htj => rw [hothers j (Ne.symm htj), h.copies j]
  · rw [lastWrite, lastPut]
    split
    · rfl
    · exact h.below j hj
  · by_cases hji : j = i
    · rw [hji, Function.update_self] at hj
      cases hj
    · rw [Function.update_of_ne hji] at hj
      exact h.inHand j tier w' hj htier

theorem Replays.fetch (h : Replays calls k start log held phase) {t : Fin n} (keys : List K)
    (hheld : held' = held) :
    Replays calls k start ((i, .tier (t, .getMany keys)) :: log) held'
      (Function.update phase i (.reading ((held t k).map fun w => (t.val, w)))) := by
  subst hheld
  refine ⟨h.putsOf.cons (by simp), h.copies, h.below, fun j tier w hj htier => ?_⟩
  by_cases hji : j = i
  · subst hji
    rw [Function.update_self] at hj
    injection hj with hhit
    obtain ⟨w', hw', heq⟩ := Option.map_eq_some_iff.1 hhit
    cases heq
    rw [lastFetch, if_pos rfl, ← h.below t htier, ← h.copies t, hw']
  · rw [Function.update_of_ne hji] at hj
    rw [lastFetch, if_neg (Ne.symm hji)]
    exact h.inHand j tier w hj htier

theorem Replays.promote (h : Replays calls k start log held phase) {t : Fin n} {tier : Nat}
    {w : V} {entries : List (K × V)} (hi : phase i = .reading (some (tier, w)))
    (htier : tier ≠ 0) (htop : t.val = 0) (hheld : held' t k = some w)
    (hothers : ∀ j ≠ t, held' j = held j) :
    Replays calls k start ((i, .tier (t, .putMany entries)) :: log) held'
      (Function.update phase i (.reading (some (tier, w)))) := by
  have hphase : Function.update phase i (.reading (some (tier, w))) = phase := by
    rw [← hi, Function.update_eq_self]
  rw [hphase]
  refine ⟨h.putsOf.cons (by simp), fun j => ?_, fun j hj => ?_, h.inHand⟩
  · rw [lastWrite]
    split
    · next htj => rw [← htj, hheld, h.inHand i tier w hi htier]
    · next htj => rw [hothers j (Ne.symm htj), h.copies j]
  · have htj : t ≠ j := fun e => hj (e ▸ htop)
    rw [lastWrite, if_neg htj]
    exact h.below j hj

theorem Replays.gate (h : Replays calls k start log held phase) {q : CacheQuery n K V} {key : K}
    (hq : q = .acquire key ∨ q = .release key) (hheld : held' = held) :
    Replays calls k start ((i, q) :: log) held' (Function.update phase i (.reading none)) := by
  subst hheld
  have hhand (j : ι) (tier : Nat) (w : V)
      (hj : Function.update phase i (.reading none) j = .reading (some (tier, w)))
      (htier : tier ≠ 0) : lastFetch start j log = some w := by
    by_cases hji : j = i
    · rw [hji, Function.update_self] at hj
      cases hj
    · rw [Function.update_of_ne hji] at hj
      exact h.inHand j tier w hj htier
  obtain rfl | rfl := hq
  · exact ⟨h.putsOf.cons (by simp), h.copies, h.below, hhand⟩
  · exact ⟨h.putsOf.cons (by simp), h.copies, h.below, hhand⟩

end Steps
end Order

/-! ## The run -/
section Run
variable {ι : Type} [DecidableEq ι] [DecidableEq K] [Tier T K V Infallible] [LawfulTier T]
  {U : T → Prop} {calls : ι → CacheCall K V} {k : K} {start₀ : Fin n → Option V}

theorem call_kept (hU : Keeping U) {t : T} (ht : U t) (i : Fin n) (c : TierCall K V) :
    KeptReply (.tier (i, c)) (Tier.call t c).1 := by
  cases c with
  | get key => trivial
  | exists_ key => trivial
  | delete key => trivial
  | deleteMany keys => trivial
  | put key value =>
    have hput := hU.put t key value
    change KeptReply (.tier (i, .put key value)) (Tier.put t key value).1
    cases hres : (Tier.put t key value).1 with
    | error e => exact e.elim
    | ok d => exact hput d ht hres
  | putMany entries =>
    have hput := hU.putMany t entries
    change KeptReply (.tier (i, .putMany entries)) (Tier.putMany t entries).1
    cases hres : (Tier.putMany t entries).1 with
    | error e => exact e.elim
    | ok d => exact hput d ht hres
  | getMany keys =>
    have hget := LawfulTier.getMany_ok t keys
    change KeptReply (.tier (i, .getMany keys)) (Tier.getMany t keys).1
    cases hres : (Tier.getMany t keys).1 with
    | error e => exact e.elim
    | ok found =>
      rw [hget found hres]
      exact List.length_map _

theorem exec_kept (hU : Keeping U) {q : CacheQuery n K V} {s s' : Shared T K n}
    {a : CacheAnswer n K V Infallible q} (h : exec q s = some (a, s'))
    (hs : ∀ t, U (s.stack t).tier) : KeptReply q a ∧ ∀ t, U (s'.stack t).tier := by
  cases q with
  | acquire key =>
    refine ⟨trivial, fun t => ?_⟩
    rw [exec_of_ne h fun _ _ hq => by cases hq]
    exact hs t
  | release key =>
    refine ⟨trivial, fun t => ?_⟩
    rw [exec_of_ne h fun _ _ hq => by cases hq]
    exact hs t
  | tier q =>
    simp only [exec, Option.some.injEq, Prod.mk.injEq] at h
    obtain ⟨rfl, rfl⟩ := h
    refine ⟨call_kept hU (hs q.1) q.1 q.2, fun t => ?_⟩
    change U ((Stack.exec q s.stack).2 t).tier
    by_cases ht : t = q.1
    · rw [ht, Stack.exec_tier]
      exact hU.call _ q.2 (hs q.1)
    · rw [Stack.exec_other q s.stack ht]
      exact hs t

theorem exec_put (hU : Keeping U) {t : Fin n} {w : V} {s s' : Shared T K n}
    {a : Except Infallible (Displaced K V)}
    (h : exec (E := Infallible) (.tier (t, .put k w)) s = some (a, s'))
    (hs : ∀ t, U (s.stack t).tier) :
    s'.stack.held t k = some w ∧ ∀ j ≠ t, s'.stack.held j = s.stack.held j := by
  simp only [exec, Option.some.injEq, Prod.mk.injEq] at h
  obtain ⟨-, rfl⟩ := h
  refine ⟨?_, fun j hj => Stack.held_exec_other _ _ hj⟩
  rw [Stack.held_exec]
  change contents (Tier.put (s.stack t).tier k w).2 k = some w
  cases hres : (Tier.put (s.stack t).tier k w).1 with
  | error e => exact e.elim
  | ok d =>
    have hput := LawfulTier.put_ok (s.stack t).tier k w d hres
    rw [hU.put _ k w d (hs t) hres] at hput
    have hk := congrFun hput k
    rw [write_singleton, if_pos rfl] at hk
    simpa using hk

theorem exec_putMany (hU : Keeping U) {t : Fin n} {entries : List (K × V)} {s s' : Shared T K n}
    {a : Except Infallible (Displaced K V)}
    (h : exec (E := Infallible) (.tier (t, .putMany entries)) s = some (a, s'))
    (hs : ∀ t, U (s.stack t).tier) :
    s'.stack.held t = write (s.stack.held t) entries ∧
      ∀ j ≠ t, s'.stack.held j = s.stack.held j := by
  simp only [exec, Option.some.injEq, Prod.mk.injEq] at h
  obtain ⟨-, rfl⟩ := h
  refine ⟨?_, fun j hj => Stack.held_exec_other _ _ hj⟩
  rw [Stack.held_exec]
  change contents (Tier.putMany (s.stack t).tier entries).2 = _
  cases hres : (Tier.putMany (s.stack t).tier entries).1 with
  | error e => exact e.elim
  | ok d =>
    have hput := LawfulTier.putMany_ok (s.stack t).tier entries d hres
    rw [hU.putMany _ entries d (hs t) hres, latest_nil, atop_empty] at hput
    exact hput

theorem exec_getMany {t : Fin n} {s s' : Shared T K n} {a : Except Infallible (List (Option V))}
    (h : exec (E := Infallible) (.tier (t, .getMany [k])) s = some (a, s')) :
    a = .ok [s.stack.held t k] ∧ s'.stack.held = s.stack.held := by
  simp only [exec, Option.some.injEq, Prod.mk.injEq] at h
  obtain ⟨rfl, rfl⟩ := h
  refine ⟨?_, Stack.held_exec_read (LawfulTier.getMany_contents _ _)⟩
  rw [Stack.exec_answer]
  change (Tier.getMany (s.stack t).tier [k]).1 = _
  cases hres : (Tier.getMany (s.stack t).tier [k]).1 with
  | error e => exact e.elim
  | ok found =>
    rw [LawfulTier.getMany_ok _ _ found hres]
    rfl

omit [LawfulTier T] in
theorem exec_gate {q : CacheQuery n K V} {s s' : Shared T K n}
    {a : CacheAnswer n K V Infallible q} (h : exec q s = some (a, s'))
    (hq : ∀ t c, q ≠ .tier (t, c)) : s'.stack = s.stack :=
  funext fun _ => exec_of_ne h fun t c heq => absurd heq (hq t c)

omit [DecidableEq K] [Tier T K V Infallible] [LawfulTier T] in
/-- All the next query of a call on `k` can be. -/
theorem allowed_cases {call : CacheCall K V} {phase : Phase n V} {q : CacheQuery n K V}
    (h : Allowed k call phase q) :
    (∃ t rest w, phase = .writing (t :: rest) ∧ q = .tier (t, .put k w) ∧ call = .put k w) ∨
    (∃ t, phase = .reading none ∧ q = .tier (t, .getMany [k])) ∨
    (∃ tier w t entries, phase = .reading (some (tier, w)) ∧ q = .tier (t, .putMany entries) ∧
      tier ≠ 0 ∧ t.val = 0 ∧ entries ≠ [] ∧ ∀ e ∈ entries, e = (k, w)) ∨
    (∃ hand key, phase = .reading hand ∧ (q = .acquire key ∨ q = .release key) ∧
      ∀ a, advance phase q a = .reading none) := by
  cases phase with
  | writing rest =>
    cases rest with
    | nil => cases q <;> exact h.elim
    | cons t rest =>
      refine Or.inl ?_
      cases q with
      | acquire key => exact h.elim
      | release key => exact h.elim
      | tier q =>
        obtain ⟨t', c⟩ := q
        cases c with
        | put key w =>
          obtain ⟨rfl, rfl, hcall⟩ := h
          exact ⟨t', rest, w, rfl, rfl, hcall⟩
        | _ => exact h.elim
  | reading hand =>
    refine Or.inr ?_
    cases hand with
    | none =>
      cases q with
      | acquire key => exact Or.inr (Or.inr ⟨none, key, rfl, Or.inl rfl, fun _ => rfl⟩)
      | release key => exact Or.inr (Or.inr ⟨none, key, rfl, Or.inr rfl, fun _ => rfl⟩)
      | tier q =>
        obtain ⟨t, c⟩ := q
        cases c with
        | getMany keys =>
          obtain rfl : keys = [k] := h
          exact Or.inl ⟨t, rfl, rfl⟩
        | _ => exact h.elim
    | some hit =>
      obtain ⟨tier, w⟩ := hit
      cases q with
      | acquire key => exact h.elim
      | release key =>
        exact Or.inr (Or.inr ⟨some (tier, w), key, rfl, Or.inr rfl, fun _ => rfl⟩)
      | tier q =>
        obtain ⟨t, c⟩ := q
        cases c with
        | putMany entries => exact Or.inr (Or.inl ⟨tier, w, t, entries, rfl, rfl, h⟩)
        | _ => exact h.elim

/-- The calls keep to their phases, no tier ever displaces, and the order of the steps says
what every tier holds. -/
structure Converging (U : T → Prop) (k : K) (start₀ : Fin n → Option V)
    (c : CachePool n T K V Infallible calls) (phase : ι → Phase n V) : Prop where
  phased : ∀ i, Phased k (calls i) (fun _ _ => True) (c.threads i) (phase i)
  kept : ∀ t, U (c.shared.stack t).tier
  replays : Replays calls k start₀ c.log (heldBy c) phase

theorem converging_step (hU : Keeping U) {c : CachePool n T K V Infallible calls}
    {phase : ι → Phase n V} (hc : Converging U k start₀ c phase) (i : ι) :
    ∃ phase', Converging U k start₀ (Pool.step exec c i) phase' := by
  obtain hsame | ⟨q, next, a, s, hthread, hexec, heq⟩ := Pool.step_cases exec c i
  · exact ⟨phase, by rwa [hsame]⟩
  · rw [heq]
    obtain ⟨hreply, hkept⟩ := exec_kept hU hexec hc.kept
    have hphased : ∀ j, Phased k (calls j) (fun _ _ => True)
        (Function.update c.threads i (next a) j)
        (Function.update phase i (advance (phase i) q a) j) :=
      Pool.follows_step hc.phased hthread hreply
    have hallowed : Allowed k (calls i) (phase i) q := by
      have hi := hc.phased i
      rw [hthread] at hi
      exact hi.1
    refine ⟨_, hphased, hkept, ?_⟩
    have hrep := hc.replays
    obtain ⟨t, rest, w, hi, rfl, hcall⟩ | ⟨t, hi, rfl⟩ |
      ⟨tier, w, t, entries, hi, rfl, htier, htop, hne, hentries⟩ |
      ⟨hand, key, hi, hgate, hadvance⟩ := allowed_cases hallowed
    · obtain ⟨hheld, hothers⟩ := exec_put hU hexec hc.kept
      rw [hi]
      exact hrep.put hcall hheld hothers
    · obtain ⟨rfl, hheld⟩ := exec_getMany hexec
      have hadvance (x : Option V) :
          advance (.reading none) (.tier (t, .getMany [k])) (.ok [x]) =
            .reading (x.map fun w => (t.val, w)) := by
        cases x <;> rfl
      rw [hi, hadvance]
      exact hrep.fetch [k] hheld
    · obtain ⟨hheld, hothers⟩ := exec_putMany hU hexec hc.kept
      rw [hi]
      refine hrep.promote hi htier htop ?_ hothers
      change s.stack.held t k = some w
      rw [hheld]
      exact write_of_all_eq hne hentries
    · have hstack : s.stack = c.shared.stack := exec_gate hexec fun t c hq => by
        obtain rfl | rfl := hgate <;> cases hq
      rw [hadvance]
      exact hrep.gate hgate (congrArg Stack.held hstack)

theorem converging_start {r : Router n} (hw : ∀ i, r.writable i = true)
    (hp : r.policy = defaultPolicy) (singleFlight : Bool) {s : Stack T n}
    (hs : ∀ t, U (s t).tier) (hcalls : ∀ i, calls i = .get k ∨ ∃ v, calls i = .put k v) :
    Converging U k (fun t => s.held t k) (start r singleFlight calls s)
      fun i => startPhase (calls i) := by
  refine ⟨fun i => perform_phased r hw hp singleFlight k (calls i) (hcalls i), hs, ?_⟩
  refine ⟨fun _ _ _ _ hmem => (List.not_mem_nil hmem).elim, fun _ => rfl, fun _ _ => rfl, ?_⟩
  intro i tier w hi
  obtain hget | ⟨v, hput⟩ := hcalls i
  · rw [hget] at hi
    cases hi
  · rw [hput] at hi
    cases hi

theorem converging_run (hU : Keeping U) {c : CachePool n T K V Infallible calls}
    (hc : ∃ phase, Converging U k start₀ c phase) (schedule : List ι) :
    ∃ phase, Converging U k start₀ (Pool.run exec c schedule) phase :=
  Pool.run_keeps exec (fun c => ∃ phase, Converging U k start₀ c phase)
    (fun _ i ⟨_, hc⟩ => converging_step hU hc i) hc schedule

omit [LawfulTier T] in
/-- A put that has returned has written every tier. -/
theorem put_logged {r : Router n} (hw : ∀ i, r.writable i = true)
    (hp : r.policy = defaultPolicy) (singleFlight : Bool) {s : Stack T n} {i : ι} {v : V}
    (hput : calls i = .put k v) (schedule : List ι)
    (hdone : ((Pool.run exec (start (E := Infallible) r singleFlight calls s) schedule).threads
      i).Done) (t : Fin n) :
    (i, .tier (t, .put k v)) ∈
      (Pool.run exec (start (E := Infallible) r singleFlight calls s) schedule).log := by
  refine Pool.asked_of_done hdone (Pool.run_keeps exec
    (fun c : CachePool n T K V Infallible calls =>
      (c.threads i).Must (.tier (t, .put k v)) ∨ (i, .tier (t, .put k v)) ∈ c.log)
    (fun c j hc => Pool.must_step exec hc) (Or.inl ?_) schedule)
  change (perform r singleFlight (calls i)).Must (.tier (t, .put k v))
  rw [hput]
  exact (put_must r hw hp k v t).embed

end Run
end TieredCache

/-- Concurrent gets and puts of one key over tiers that never displace. In the end every copy
is one of the start's or a put's, a tier below the top holds what the last put to write it
put, and the top what its last write wrote. If one of the puts writes every tier last, it
settles the tiers below the top; it settles the top as well if every get that promotes after it
wrote the top fetched from a tier it had written. -/
theorem puts_and_gets_converge {T K V ι : Type} [DecidableEq K] [Tier T K V Infallible]
    [LawfulTier T] [DecidableEq ι] {U : T → Prop} (hU : Keeping U) {n : Nat} (r : Router n)
    (hw : ∀ i, r.writable i = true) (hp : r.policy = TieredCache.defaultPolicy)
    (singleFlight : Bool) (s : Stack T n) (hs : ∀ t, U (s t).tier) (k : K) (v₀ : V)
    (hagree : ∀ t w, s.held t k = some w → w = v₀) (calls : ι → CacheCall K V)
    (hcalls : ∀ i, calls i = .get k ∨ ∃ v, calls i = .put k v) (schedule : List ι) :
    let final := Pool.run TieredCache.exec (TieredCache.start r singleFlight calls s) schedule
    final.AllDone →
      (∀ t w, TieredCache.heldBy final t k = some w →
        (∃ t₀, s.held t₀ k = some w) ∨ ∃ i, calls i = .put k w) ∧
      ((∀ i v, calls i ≠ .put k v) → ∀ t w, TieredCache.heldBy final t k = some w → w = v₀) ∧
      (∀ t, TieredCache.heldBy final t k =
        TieredCache.lastWrite (fun t => s.held t k) t final.log) ∧
      (∀ t, t.val ≠ 0 →
        TieredCache.heldBy final t k = (TieredCache.lastPut t final.log).or (s.held t k)) ∧
      ((∃ i v, calls i = .put k v) →
        ∀ t, ∃ i v, calls i = .put k v ∧ TieredCache.lastPut t final.log = some v) ∧
      ∀ last v, calls last = .put k v → Each (TieredCache.WritesBefore last k v) final.log →
        (∀ t, t.val ≠ 0 → TieredCache.heldBy final t k = some v) ∧
        (Each (TieredCache.PromotesFresh last k v) final.log →
          ∀ t, TieredCache.heldBy final t k = some v) := by
  intro final hdone
  have hcopied (t : Fin n) (w : V) (hw : TieredCache.heldBy final t k = some w) :
      (∃ t₀, s.held t₀ k = some w) ∨ ∃ i, calls i = .put k w := by
    refine TieredCache.holds_run (c := TieredCache.start r singleFlight calls s)
      (P := fun x w => x = k → (∃ t₀, s.held t₀ k = some w) ∨ ∃ i, calls i = .put k w)
      ?_ (fun i => ?_) schedule t k w hw rfl
    · rintro t x w hstart rfl
      exact Or.inl ⟨t, hstart⟩
    · refine TieredCache.carries_perform r singleFlight (calls i) fun x w hput hx => ?_
      exact Or.inr ⟨i, hx ▸ hput⟩
  obtain ⟨phase, hc⟩ := TieredCache.converging_run hU
    ⟨_, TieredCache.converging_start hw hp singleFlight hs hcalls⟩ schedule
  have hrep := hc.replays
  have hlogged {i : ι} {v : V} (hput : calls i = .put k v) (t : Fin n) :=
    TieredCache.put_logged hw hp singleFlight (s := s) hput schedule (hdone i) t
  have hbelow (t : Fin n) (ht : t.val ≠ 0) :
      TieredCache.heldBy final t k = (TieredCache.lastPut t final.log).or (s.held t k) :=
    (hrep.copies t).trans (hrep.below t ht)
  refine ⟨hcopied, fun hnoput t w hw => ?_, hrep.copies, hbelow, ?_, ?_⟩
  · obtain ⟨t₀, hstart⟩ | ⟨i, hput⟩ := hcopied t w hw
    · exact hagree t₀ w hstart
    · exact absurd hput (hnoput i w)
  · rintro ⟨i, v, hput⟩ t
    exact TieredCache.exists_lastPut hrep.putsOf (hlogged hput t)
  · intro last v hlast hbefore
    refine ⟨fun t ht => ?_, fun hfresh t => ?_⟩
    · rw [hbelow t ht, TieredCache.lastPut_eq hlast hrep.putsOf hbefore (hlogged hlast t),
        Option.some_or]
    · exact (hrep.copies t).trans
        (TieredCache.lastWrite_eq hlast hrep.putsOf hbefore hfresh (hlogged hlast t))

def putsAndGet (i : Fin 3) : CacheCall Nat Nat :=
  if i.val = 0 then .put 1 11 else if i.val = 1 then .put 1 12 else .get 1

/-- The get fetches the second put's value below and promotes it after the put is done. -/
theorem puts_and_gets_converge_overlapping :
    let final := Pool.run TieredCache.exec
      (TieredCache.start memoryCache true putsAndGet lowerCopy) [2, 0, 1, 2, 2, 0, 1, 2, 2]
    TieredCache.heldBy final 0 1 = some 12 ∧ TieredCache.heldBy final 1 1 = some 12 := by
  intro final
  have hcalls : ∀ i, putsAndGet i = .get 1 ∨ ∃ v, putsAndGet i = .put 1 v := by
    intro i
    match i with
    | 0 => exact Or.inr ⟨11, rfl⟩
    | 1 => exact Or.inr ⟨12, rfl⟩
    | 2 => exact Or.inl rfl
  have hagree : ∀ t w, lowerCopy.held t 1 = some w → w = 10 := by
    intro t w hw
    match t with
    | 0 => cases hw
    | 1 => exact (Option.some.inj hw).symm
  have hunbounded : ∀ t, (lowerCopy t).tier.Unbounded := by
    intro t
    match t with
    | 0 => exact ⟨rfl, rfl⟩
    | 1 => exact ⟨rfl, rfl⟩
  have hlog : final.log = [(2, .release 1), (2, .tier (0, .putMany [(1, 12)])),
      (1, .tier (0, .put 1 12)), (0, .tier (0, .put 1 11)), (2, .tier (1, .getMany [1])),
      (2, .tier (0, .getMany [1])), (1, .tier (1, .put 1 12)), (0, .tier (1, .put 1 11)),
      (2, .acquire 1)] := by rfl
  obtain ⟨-, -, -, -, -, hlast⟩ := puts_and_gets_converge MemoryTier.keeping_unbounded memoryCache
    (fun _ => rfl) rfl true lowerCopy hunbounded 1 10 hagree putsAndGet
    hcalls [2, 0, 1, 2, 2, 0, 1, 2, 2] (by unfold Pool.AllDone; decide +kernel)
  have hconverge := (hlast 1 12 rfl
    (by rw [hlog]; simp [Each, TieredCache.WritesBefore])).2
    (by rw [hlog]; simp [Each, TieredCache.PromotesFresh, TieredCache.FetchedWritten])
  exact ⟨hconverge 0, hconverge 1⟩

def getAndPut (i : Fin 2) : CacheCall Nat Nat := if i.val = 0 then .get 1 else .put 1 11

/-- One put overtakes another between the tiers; a get promotes what it fetched before a
put. -/
theorem puts_and_gets_diverge :
    let crossed := Pool.run TieredCache.exec
      (TieredCache.start memoryCache true putsAndGet lowerCopy) [0, 1, 1, 0, 2, 2, 2]
    let lagging := Pool.run TieredCache.exec
      (TieredCache.start memoryCache true getAndPut lowerCopy) [0, 0, 0, 1, 1, 0, 0]
    ((∀ i, (crossed.threads i).Done) ∧ TieredCache.heldBy crossed 0 1 = some 11 ∧
      TieredCache.heldBy crossed 1 1 = some 12) ∧
    (∀ i, (lagging.threads i).Done) ∧ TieredCache.heldBy lagging 0 1 = some 10 ∧
      TieredCache.heldBy lagging 1 1 = some 11 := by
  decide +kernel

end Tierstore
