import Tierstore.Cache
import Tierstore.Lib.Simulate

/-! The flow-driven read of one key against the batched read of one key. -/
namespace Tierstore
open Effects

structure OneByOne (T : Type) {K V E : Type} [Tier T K V E] : Prop where
  getMany (t : T) (k : K) :
    Tier.getMany t [k] = ((Tier.get t k).1.map fun found => [found], (Tier.get t k).2)
  putMany (t : T) (k : K) (v : V) : Tier.putMany t [(k, v)] = Tier.put t k v

inductive SameCall {n : Nat} {K V E : Type} : (q q' : Query n K V) →
    (Answer n K V E q → Answer n K V E q' → Prop) → Prop where
  | read (t : Fin n) (k : K) :
    SameCall (t, .get k) (t, .getMany [k]) fun a a' => a' = a.map fun found => [found]
  | promote (t : Fin n) (k : K) (v : V) :
    SameCall (t, .put k v) (t, .putMany [(k, v)]) fun a a' => a' = a
  | demote (t : Fin n) (k : K) (v : V) : SameCall (t, .put k v) (t, .put k v) fun a a' => a' = a

namespace Router
variable {n : Nat} {K V E : Type} (r : Router n)

/-! ## Promotions -/

theorem demoteDown_same (tiers : List (Fin n)) (entries : Displaced K V) :
    Program.Sim SameCall Eq (r.demoteDown tiers entries : RouterM n K V E _)
      (r.demoteDown tiers entries) := by
  have hinto (t : Fin n) (entries next : Displaced K V) :
      Program.Sim SameCall Eq (demoteInto t entries next : RouterM n K V E _)
        (demoteInto t entries next) := by
    induction entries generalizing next with
    | nil => exact .done rfl
    | cons e rest ih =>
      refine .call (.demote t e.1 e.2) ?_
      rintro _ a rfl
      cases a with
      | ok displaced => exact ih _
      | error source => exact ih _
  induction tiers generalizing entries with
  | nil => exact .done rfl
  | cons t below ih =>
    rw [demoteDown]
    split
    · exact .done rfl
    · split
      · exact ih entries
      · refine (hinto t entries []).bind ?_
        rintro next _ rfl
        exact ih next

theorem promoteOne_same (target : Fin n) (key : K) (value : V) :
    Program.Sim SameCall Eq (r.promoteOne target key (some value) : RouterM n K V E _)
      (r.promoteInto target [(key, value)]) := by
  rw [promoteOne, promoteInto, promoteWith, promoteWith]
  split
  · refine .call (.promote target key value) ?_
    rintro _ a rfl
    cases a with
    | error source => exact .done rfl
    | ok displaced =>
      change Program.Sim SameCall Eq (if _ then _ else _ : RouterM n K V E Unit)
        (if _ then _ else _ : RouterM n K V E Unit)
      split
      · exact (r.demoteDown_same _ displaced).bind fun _ _ _ => .done rfl
      · exact .done rfl
  · exact .done rfl

theorem promotions_same (targets : List (Fin n)) (key : K) (value : V) :
    Program.Sim SameCall Eq
      (targets.forM fun target => r.promoteOne target key (some value) : RouterM n K V E _)
      (targets.forM fun target => r.promoteInto target [(key, value)]) := by
  induction targets with
  | nil => exact .done rfl
  | cons target rest ih => exact (r.promoteOne_same target key value).bind fun _ _ _ => ih

/-! ## The batch of one -/

def finishOne (key : K) : Except (RouterError E)
      ((Fin [key].length → KeyStatus V) × List (Fin [key].length) × List (TierFailure E)) →
    RouterM n K V E (Except (RouterError E) (Option V))
  | .error error => pure (.error error)
  | .ok (statuses, unresolved, failures) => do
    let statuses : Fin [key].length → KeyStatus V :=
      if failures.isEmpty then statuses
      else fun index => if index ∈ unresolved then .inconclusive else statuses index
    r.promoteBatch [key] statuses
    pure (TieredCache.answer (.ok ⟨statuses 0, failures⟩))

theorem cache_get_eq (key : K) : (TieredCache.get r key : RouterM n K V E _) =
    r.readTiers [key] (List.finRange n) (fun _ => .miss) [0] [] >>= r.finishOne key := by
  rw [TieredCache.get, TieredCache.lookup, readOne, readMany]
  simp only [bind_assoc]
  refine congrArg _ (funext fun probes => ?_)
  cases probes with
  | error e => rfl
  | ok probes =>
    obtain ⟨statuses, unresolved, failures⟩ := probes
    simp only [finishOne, bind_assoc]
    rfl

theorem hitEntries_one (key : K) (statuses : Fin [key].length → KeyStatus V) (t : Fin n) :
    hitEntries [key] statuses t =
      match statuses 0 with
      | .hit u v => if u = t.val then [(key, v)] else []
      | _ => [] := by
  have hone : List.finRange [key].length = [0] := rfl
  rw [hitEntries, hone]
  cases hstatus : statuses 0 with
  | hit u v =>
    by_cases hu : u = t.val <;>
      simp [hitAt, hstatus, KeyStatus.tier, KeyStatus.value, hu]
  | miss => simp [hitAt, hstatus, KeyStatus.tier]
  | inconclusive => simp [hitAt, hstatus, KeyStatus.tier]

theorem promoteTiers_none (key : K) {statuses : Fin [key].length → KeyStatus V}
    {tiers : List (Fin n)} (h : ∀ t ∈ tiers, hitEntries [key] statuses t = []) :
    (r.promoteTiers [key] statuses tiers : RouterM n K V E _) = pure () := by
  induction tiers with
  | nil => rfl
  | cons t rest ih =>
    rw [promoteTiers, h t (by simp), ih fun u hu => h u (List.mem_cons_of_mem t hu)]
    simp

theorem promoteBatch_none (key : K) (statuses : Fin [key].length → KeyStatus V)
    (h : ∀ t v, statuses 0 ≠ .hit t v) :
    (r.promoteBatch [key] statuses : RouterM n K V E _) = pure () := by
  rw [promoteBatch]
  split
  · rfl
  · refine r.promoteTiers_none key fun t _ => ?_
    rw [hitEntries_one]
    cases hstatus : statuses 0 with
    | hit u v => exact absurd hstatus (h u v)
    | _ => rfl

theorem promoteBatch_hit (key : K) (statuses : Fin [key].length → KeyStatus V) {t : Fin n} {v : V}
    (h : statuses 0 = .hit t v) : (r.promoteBatch [key] statuses : RouterM n K V E _) =
      (r.hitTargets t).forM fun target => r.promoteInto target [(key, v)] := by
  obtain ⟨above, below, hsplit⟩ := exists_split t
  have hentries (u : Fin n) : hitEntries [key] statuses u = if t = u then [(key, v)] else [] := by
    rw [hitEntries_one, h]
    simp only [Fin.ext_iff]
  have hnone (tiers : List (Fin n)) (ht : t ∉ tiers) :
      (r.promoteTiers [key] statuses tiers : RouterM n K V E _) = pure () := by
    refine r.promoteTiers_none key fun u hu => ?_
    rw [hentries, if_neg]
    rintro rfl
    exact ht hu
  have habove (tiers : List (Fin n)) (ht : t ∉ tiers) (rest : List (Fin n)) :
      (r.promoteTiers [key] statuses (tiers ++ rest) : RouterM n K V E _) =
        r.promoteTiers [key] statuses rest := by
    induction tiers with
    | nil => rfl
    | cons u tiers ih =>
      rw [List.mem_cons, not_or] at ht
      rw [List.cons_append, promoteTiers, hentries, if_neg ht.1, ih ht.2]
      simp
  obtain ⟨hbelow, hnot⟩ := not_mem_of_split hsplit
  rw [promoteBatch, hsplit, habove above hnot, promoteTiers, hnone below hbelow, hentries,
    if_pos rfl, hitTargets, promoteTargets]
  by_cases hnever : r.policy.read.promote = .never
  · simp [hnever]
  · rw [if_neg hnever]
    by_cases h0 : t.val = 0
    · simp [h0]
    · simp only [h0, List.cons_ne_self, false_or, if_false]
      exact bind_pure _

theorem readTiers_done (keys : List K) (tiers : List (Fin n))
    (statuses : Fin keys.length → KeyStatus V) (failures : List (TierFailure E)) :
    r.readTiers keys tiers statuses [] failures = pure (.ok (statuses, [], failures)) := by
  cases tiers with
  | nil => rfl
  | cons t below => rw [readTiers, List.isEmpty_nil, if_pos rfl]

theorem readDown_same (key : K) (tiers : List (Fin n)) (failures : List (TierFailure E)) :
    Program.Sim SameCall Eq (r.readDown key tiers failures : RouterM n K V E _)
      (r.readTiers [key] tiers (fun _ => .miss) [0] failures >>= r.finishOne key) := by
  induction tiers generalizing failures with
  | nil =>
    have hmiss := r.promoteBatch_none (E := E) (V := V) key (fun _ => .miss)
      fun _ _ h => by cases h
    cases failures with
    | nil =>
      rw [readTiers, pure_bind, finishOne, List.isEmpty_nil, if_pos rfl, hmiss]
      exact .done rfl
    | cons failure rest =>
      have hstuck := r.promoteBatch_none (E := E) (V := V) key
        (fun index => if index ∈ [0] then .inconclusive else .miss)
        fun t v h => by simp at h
      rw [readTiers, pure_bind, finishOne, List.isEmpty_cons, if_neg Bool.false_ne_true, hstuck]
      exact .done rfl
  | cons t below ih =>
    rw [readDown, readTiers]
    refine .call (.read t key) ?_
    rintro a _ rfl
    cases a with
    | error source =>
      cases r.policy.read.onError with
      | failFast => exact .done rfl
      | fallThrough => exact ih _
    | ok found =>
      cases found with
      | none => exact ih failures
      | some v =>
        have hhit := r.promoteBatch_hit (E := E) key (t := t) (v := v)
          (Function.update (fun _ => .miss) 0 (.hit t v)) (Function.update_self ..)
        change Program.Sim SameCall Eq (_ >>= fun _ => pure (.ok (some v)))
          (r.readTiers [key] below (Function.update (fun _ => .miss) 0 (.hit t v)) [] failures >>=
            r.finishOne key)
        rw [readTiers_done, pure_bind, finishOne]
        simp only [List.not_mem_nil, if_false, ite_self, hhit]
        refine (r.promotions_same _ key v).bind fun _ _ _ => .done ?_
        simp [TieredCache.answer]

theorem get_same (key : K) :
    Program.Sim SameCall (fun driven batched => driven = some batched)
      (r.get key : RouterM n K V E _) (TieredCache.get r key) := by
  have hpure := bind_pure (TieredCache.get r key : RouterM n K V E _)
  rw [get_eq, map_eq_pure_bind, ← hpure, cache_get_eq]
  refine (r.readDown_same key (List.finRange n) []).bind ?_
  rintro a _ rfl
  exact .done rfl

end Router

/-! ## Batches of one -/
section OneByOne
variable {T K V E : Type}

/-- The looping defaults run a batch of one as the single call. -/
theorem oneByOne_of_looping [Tier T K V E]
    (hget : ∀ (t : T) ks, Tier.getMany t ks = getManyDefault Tier.get t ks)
    (hput : ∀ (t : T) es, Tier.putMany t es = putManyDefault Tier.put t es) : OneByOne T where
  getMany t k := by
    rw [hget, getManyDefault]
    obtain ⟨a, t'⟩ := Tier.get t k
    cases a <;> rfl
  putMany t k v := by
    rw [hput, putManyDefault]
    obtain ⟨a, t'⟩ := Tier.put t k v
    cases a with
    | error e => rfl
    | ok displaced => simp [putManyDefault, Except.map]

theorem FlakyTier.oneByOne [Tier T K V E] : OneByOne (FlakyTier T) :=
  oneByOne_of_looping (fun _ _ => rfl) fun _ _ => rfl

theorem MemoryTier.oneByOne [DecidableEq K] : OneByOne (MemoryTier K V) where
  getMany t k := rfl
  putMany t k v := by
    simp [Tier.putMany, Tier.put, Inner.insertBatch]

end OneByOne

namespace Stack
variable {T K V E : Type} {n : Nat} [Tier T K V E]

/-- Calls that stand for each other are answered alike and leave the same stack, its counters
included. -/
theorem exec_same (hT : OneByOne T) (q q' : Query n K V)
    (ans : Answer n K V E q → Answer n K V E q' → Prop) (s s' : Stack T n)
    (hpair : SameCall q q' ans) (hs : s = s') :
    ans (exec q s).1 (exec q' s').1 ∧ (exec q s).2 = (exec q' s').2 := by
  subst hs
  cases hpair with
  | read t k =>
    simp only [exec, Tier.call, hT.getMany, true_and]
    obtain ⟨a, t'⟩ := Tier.get (s t).tier k
    cases a with
    | error e => rfl
    | ok found => cases found <;> simp [Counters.record, Except.map]
  | promote t k v =>
    simp only [exec, Tier.call, hT.putMany, true_and]
    obtain ⟨a, t'⟩ := Tier.put (s t).tier k v
    cases a <;> rfl
  | demote t k v => exact ⟨rfl, rfl⟩

/-- The read driven by the flow and the read of the cache through a batch of one return the
same, ask the same of the tiers in the same order and leave the same stack and counters. -/
theorem read_paths_agree (hT : OneByOne T) (r : Router n) (key : K) (s : Stack T n) :
    let driven := run (r.get key) s
    let batched := run (TieredCache.get r key) s
    driven.1 = some batched.1 ∧ driven.2 = batched.2 ∧
      List.Forall₂ (fun e e' => ∃ ans, SameCall e.1 e'.1 ans ∧ ans e.2 e'.2)
        ((r.get key).events exec s) ((TieredCache.get r key).events exec s) := by
  intro driven batched
  obtain ⟨hres, hstack⟩ := (r.get_same key).run (exec_same hT) (rfl : s = s)
  exact ⟨hres, hstack, (r.get_same key).events (exec_same hT) rfl⟩

end Stack

/-- The top tier fails its probe, and the value is promoted from below. -/
theorem read_paths_agree_faulty :
    let s := (Stack.run (memoryCache.put 1 10) (faultyOver 1 .unbounded)).2
    let driven := Stack.run (memoryCache.get 1) s
    let batched := Stack.run (TieredCache.get memoryCache 1) s
    driven.1 = some (.ok (some 10)) ∧ driven.1 = some batched.1 ∧ driven.2 = batched.2 := by
  intro s driven batched
  have h := Stack.read_paths_agree FlakyTier.oneByOne memoryCache 1 s
  exact ⟨by decide +kernel, h.1, h.2.1⟩

end Tierstore
