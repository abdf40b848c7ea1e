import Tierstore.Gates
import Tierstore.Infallible

/-! An invalidation among concurrent reads and writes of other keys: what can bring the key
back, and when it stays gone. -/
namespace Tierstore
open Overlay Effects

theorem Router.deleteTiers_must {n : Nat} {K V E : Type} (r : Router n)
    (hw : ∀ i, r.writable i = true) (key : K) {t : Fin n} {tiers : List (Fin n)} (ht : t ∈ tiers)
    (existed : Bool) (failures : List (TierFailure E)) :
    (r.deleteTiers key tiers existed failures : RouterM n K V E _).Must (t, .delete key) := by
  induction tiers generalizing existed failures with
  | nil => cases ht
  | cons tier below ih =>
    rw [deleteTiers]
    simp only [hw tier, Bool.not_true, Bool.false_eq_true, if_false]
    obtain rfl | hbelow := List.mem_cons.1 ht
    · exact Or.inl rfl
    · refine Or.inr fun a => ?_
      cases a with
      | ok present => exact ih hbelow _ _
      | error source => exact ih hbelow _ _

theorem Router.deleteTiers_only {n : Nat} {K V E : Type} (r : Router n) (key : K)
    (tiers : List (Fin n)) (existed : Bool) (failures : List (TierFailure E)) :
    (r.deleteTiers key tiers existed failures : RouterM n K V E _).Safe
      (fun q => ∃ t, q = (t, .delete key)) (fun _ _ => True) (fun _ => True) := by
  induction tiers generalizing existed failures with
  | nil =>
    rw [deleteTiers]
    split <;> trivial
  | cons tier below ih =>
    rw [deleteTiers]
    split
    · exact ih _ _
    · refine ⟨⟨tier, rfl⟩, fun a _ => ?_⟩
      cases a with
      | ok present => exact ih _ _
      | error source => exact ih _ _

namespace TieredCache
variable {n : Nat} {T K V : Type} {ι : Type} [DecidableEq ι] [DecidableEq K]
  [Tier T K V Infallible] [LawfulTier T]

def heldBy {calls : ι → CacheCall K V} (c : CachePool n T K V Infallible calls) (t : Fin n) :
    K → Option V := c.shared.stack.held t

def Rewritten (i₀ : ι) (k : K) (t : Fin n) (log : List (ι × CacheQuery n K V)) : Prop :=
  ∃ later before, log = later ++ (i₀, .tier (t, .delete k)) :: before ∧
    ∃ e ∈ later, WritesTo k t e.2

/-- The next step of the run, by thread `i`, is a step of the invalidation of thread `i₀` or
falls between its steps. -/
def Invalidating {E : Type} {calls : ι → CacheCall K V} (c : CachePool n T K V E calls)
    (i₀ i : ι) : Prop :=
  ¬ (c.threads i₀).Done ∧ (i = i₀ ∨ i₀ ∈ c.log.map Prod.fst)

/-- No call but `i₀` has a copy of `k` in hand that it may still write to a tier. -/
def NoCopyInHand {E : Type} {calls : ι → CacheCall K V} (c : CachePool n T K V E calls)
    (i₀ : ι) (k : K) : Prop :=
  ∀ j ≠ i₀, Carries (Other k) (c.threads j)

variable {calls : ι → CacheCall K V} {k : K} {i₀ : ι}

def Deletes (i₀ : ι) (k : K) (c : CachePool n T K V Infallible calls) : Prop :=
  ∀ t, (c.threads i₀).Must (.tier (t, .delete k)) ∨ (i₀, .tier (t, .delete k)) ∈ c.log

omit [LawfulTier T] in
theorem deletes_step {c : CachePool n T K V Infallible calls} (hc : Deletes i₀ k c) (i : ι) :
    Deletes i₀ k (Pool.step exec c i) := fun t => Pool.must_step exec (hc t)

/-- A tier `k` was deleted from is without it, or got a copy later. -/
def Explained (i₀ : ι) (k : K) (c : CachePool n T K V Infallible calls) : Prop :=
  ∀ t, (i₀, .tier (t, .delete k)) ∈ c.log → heldBy c t k = none ∨ Rewritten i₀ k t c.log

omit [DecidableEq ι] [DecidableEq K] in
theorem Rewritten.cons {t : Fin n} {log : List (ι × CacheQuery n K V)}
    (h : Rewritten i₀ k t log) (e : ι × CacheQuery n K V) : Rewritten i₀ k t (e :: log) := by
  obtain ⟨later, before, rfl, e', he', hw⟩ := h
  exact ⟨e :: later, before, rfl, e', List.mem_cons_of_mem e he', hw⟩

/-- A delete leaves its tier without the key. -/
theorem exec_delete {t : Fin n} {s s' : Shared T K n} {a : Except Infallible Bool}
    (h : exec (E := Infallible) (.tier (t, .delete k)) s = some (a, s')) :
    s'.stack.held t k = none := by
  simp only [exec, Option.some.injEq, Prod.mk.injEq] at h
  rw [← h.2, Stack.held_exec]
  have hok := LawfulTier.delete_ok (s.stack t).tier k
  change contents (Tier.delete (s.stack t).tier k).2 k = none
  cases hres : (Tier.delete (s.stack t).tier k).1 with
  | error e => exact e.elim
  | ok b =>
    rw [hok b hres]
    simp [erase]

theorem explained_step {c : CachePool n T K V Infallible calls} (hc : Explained i₀ k c) (i : ι) :
    Explained i₀ k (Pool.step exec c i) := by
  intro t ht
  obtain hsame | ⟨q, next, a, s, hthread, hexec, heq⟩ := Pool.step_cases exec c i
  · rw [hsame] at ht ⊢
    exact hc t ht
  · rw [heq] at ht ⊢
    obtain hnew | hold := List.mem_cons.1 ht
    · obtain ⟨rfl, rfl⟩ := Prod.mk.inj hnew
      exact Or.inl (exec_delete hexec)
    · obtain hnone | hrewritten := hc t hold
      · by_cases hw : WritesTo k t q
        · obtain ⟨later, before, hlog⟩ := List.append_of_mem hold
          refine Or.inr ⟨(i, q) :: later, before, by simp [hlog], (i, q), by simp, hw⟩
        · exact Or.inl (exec_absent hw hexec hnone)
      · exact Or.inr (hrewritten.cons (i, q))

/-! ## Once no tier holds the key -/

omit [DecidableEq ι] [DecidableEq K] [Tier T K V Infallible] [LawfulTier T] in
theorem holds_other {m : K → Option V} : Holds (Other k) m ↔ m k = none := by
  constructor
  · intro h
    cases hk : m k with
    | none => rfl
    | some v => exact absurd rfl (h k v hk)
  · rintro h x v hx rfl
    rw [h] at hx
    cases hx

omit [DecidableEq ι] in
/-- A key no tier holds is missed, in every later history that does not write it. -/
theorem later_get_none (r : Router n) {s : Stack T n} (hs : ∀ t, s.held t k = none)
    (ops : List (RouterOp K V)) (hops : ∀ op ∈ ops, k ∉ op.written.map Prod.fst) :
    (Stack.run (get r k) (Stack.performAll r s ops)).1 = .ok none := by
  have hQ : ∀ t, r.Spills t → True := fun _ _ => trivial
  have hstep : ∀ (q : Query n K V) (s : Stack T n), (∀ t, Holds (Other k) (s.held t)) →
      OkCall (fun _ => True) (fun _ => True) (Other k) q →
      OkAnswer (fun _ => True) (Other k) q (Stack.exec q s).1 ∧
        ∀ t, Holds (Other k) ((Stack.exec q s).2.held t) := by
    intro q s hs hq
    obtain ⟨hans, hholds⟩ := Stack.exec_clean (Q := fun _ => True) hq fun t _ => hs t
    exact ⟨hans, fun t => hholds t trivial⟩
  have hothers : ∀ op ∈ ops, Vouched (Other k) op.written := by
    intro op hop e he hek
    exact hops op hop (List.mem_map.2 ⟨e, he, hek⟩)
  have hlater := Stack.performAll_keeps r hQ hstep ops hothers fun t => holds_other.2 (hs t)
  have hclean := Stack.run_clean hstep (get_clean r (fun _ => trivial) hQ k) hlater
  obtain ⟨⟨found, hfound⟩, -⟩ := @Program.Safe.run _ _ _ _ _ _ Stack.exec (fun _ => True) _
    (fun _ _ _ _ => ⟨trivial, trivial⟩) _ (get_conclusive r k) (Stack.performAll r s ops) trivial
  cases found with
  | none => exact hfound
  | some v => exact absurd rfl (hclean.1 v hfound)

/-! ## The invalidation among the other calls -/

/-- While the invalidation runs, the tiers it has passed are without `k`; once it has
returned, no call has a copy of `k` in hand. -/
structure Gone (i₀ : ι) (k : K) (c : CachePool n T K V Infallible calls) : Prop where
  deletes : Deletes i₀ k c
  only : (c.threads i₀).Safe (fun q => ∃ t, q = .tier (t, .delete k)) (fun _ _ => True)
    (fun _ => True)
  absent : ∀ t, (i₀, .tier (t, .delete k)) ∈ c.log → heldBy c t k = none
  noCopy : (c.threads i₀).Done → NoCopyInHand c i₀ k

omit [DecidableEq ι] in
/-- Once the invalidation has returned no tier holds `k`. -/
theorem Gone.nowhere {c : CachePool n T K V Infallible calls} (hc : Gone i₀ k c)
    (hdone : (c.threads i₀).Done) (t : Fin n) : heldBy c t k = none :=
  hc.absent t (Pool.asked_of_done hdone (hc.deletes t))

theorem gone_step {c : CachePool n T K V Infallible calls} (hc : Gone i₀ k c) {i : ι}
    (hside : Invalidating c i₀ i → NoCopyInHand c i₀ k) : Gone i₀ k (Pool.step exec c i) := by
  have hdeletes := deletes_step hc.deletes i
  have honly : ((Pool.step exec c i).threads i₀).Safe (fun q => ∃ t, q = .tier (t, .delete k))
      (fun _ _ => True) (fun _ => True) :=
    Pool.safe_step (c := c) exec hc.only fun _ _ _ _ _ _ => trivial
  refine ⟨hdeletes, honly, fun t ht => ?_, fun hdone j hj => ?_⟩
  · obtain hsame | ⟨q, next, a, s, hthread, hexec, heq⟩ := Pool.step_cases exec c i
    · rw [hsame] at ht ⊢
      exact hc.absent t ht
    · rw [heq] at ht ⊢
      have hquiet : (i₀, .tier (t, .delete k)) ∈ c.log → ¬ WritesTo k t q := by
        intro hpassed
        by_cases hi : i = i₀
        · subst hi
          have hq := hc.only
          rw [hthread] at hq
          obtain ⟨t', rfl⟩ := hq.1
          exact fun hw => hw
        · refine not_writesTo ?_
          have hcarries : Carries (Other k) (c.threads i) := by
            by_cases hdone : (c.threads i₀).Done
            · exact hc.noCopy hdone i hi
            · exact hside ⟨hdone, Or.inr (List.mem_map_of_mem hpassed)⟩ i hi
          rw [hthread] at hcarries
          exact hcarries.1
      obtain hnew | hold := List.mem_cons.1 ht
      · obtain ⟨rfl, rfl⟩ := Prod.mk.inj hnew
        exact exec_delete hexec
      · exact exec_absent (hquiet hold) hexec (hc.absent t hold)
  · by_cases hbefore : (c.threads i₀).Done
    · refine Pool.safe_step (c := c) exec (hc.noCopy hbefore j hj) fun _ q a s hq hexec => ?_
      exact exec_reply hq hexec fun t => holds_other.2 (hc.nowhere hbefore t)
    · -- the step is the last one of the invalidation itself
      have hi : i = i₀ := by
        by_contra hne
        rw [Pool.threads_step_of_ne exec c (Ne.symm hne)] at hdone
        exact hbefore hdone
      rw [Pool.threads_step_of_ne exec c (by rwa [hi])]
      exact hside ⟨hbefore, Or.inl hi⟩ j hj

omit [DecidableEq K] in
/-- The invalidation, not started. -/
theorem perform_invalidate (r : Router n) (hw : ∀ i, r.writable i = true) (singleFlight : Bool) :
    ∀ call : CacheCall K V, call = .invalidate k →
      let p : CacheM n K V Infallible _ := perform r singleFlight call
      (∀ t, p.Must (.tier (t, .delete k))) ∧
        p.Safe (fun q => ∃ t, q = .tier (t, .delete k)) (fun _ _ => True) (fun _ => True) := by
  rintro _ rfl
  refine ⟨fun t => ?_, ?_⟩
  · exact (r.deleteTiers_must hw k (List.mem_finRange t) false []).embed
  · refine Program.Safe.embed ?_ ?_ (r.deleteTiers_only k (List.finRange n) false [])
    · rintro q ⟨t, rfl⟩
      exact ⟨t, rfl⟩
    · exact fun _ _ _ => trivial

omit [DecidableEq ι] in
theorem gone_start (hn : 0 < n) (r : Router n) (hw : ∀ i, r.writable i = true) (singleFlight : Bool)
    (hcall : calls i₀ = .invalidate k) (s : Stack T n) :
    Gone i₀ k (start r singleFlight calls s) := by
  obtain ⟨hmust, honly⟩ := perform_invalidate (n := n) r hw singleFlight (calls i₀) hcall
  refine ⟨fun t => Or.inl (hmust t), honly, fun t ht => ?_, fun hdone => ?_⟩
  · cases ht
  · cases Pool.asked_of_done hdone (Or.inl (hmust ⟨0, hn⟩))

end TieredCache

/-- Once an invalidation among any concurrent calls has returned, a tier that holds the key
again got a copy after it was deleted there. If no other call had a copy in hand while the
invalidation ran, no tier holds the key and every later read misses. -/
theorem invalidated_stays_gone {T K V ι : Type} [DecidableEq K] [Tier T K V Infallible]
    [LawfulTier T] [DecidableEq ι] {n : Nat} (hn : 0 < n) (r : Router n)
    (hw : ∀ i, r.writable i = true) (singleFlight : Bool) (s : Stack T n) (k : K)
    (calls : ι → CacheCall K V) (i₀ : ι) (hcall : calls i₀ = .invalidate k) (schedule : List ι)
    (hdone : ((Pool.run TieredCache.exec (TieredCache.start r singleFlight calls s)
      schedule).threads i₀).Done) :
    let init := TieredCache.start r singleFlight calls s
    let final := Pool.run TieredCache.exec init schedule
    (∀ t, TieredCache.heldBy final t k = none ∨ TieredCache.Rewritten i₀ k t final.log) ∧
      (Runs.Along (Pool.step TieredCache.exec)
        (fun c i => TieredCache.Invalidating c i₀ i → TieredCache.NoCopyInHand c i₀ k)
        init schedule →
        (∀ t, TieredCache.heldBy final t k = none) ∧
          ∀ ops : List (RouterOp K V), (∀ op ∈ ops, k ∉ op.written.map Prod.fst) →
            (Stack.run (TieredCache.get r k)
              (Stack.performAll r final.shared.stack ops)).1 = .ok none) := by
  intro init final
  have hstart := TieredCache.gone_start hn r hw singleFlight hcall s
  refine ⟨?_, fun hside => ?_⟩
  · have hrun : Runs.Along (Pool.step TieredCache.exec) (fun _ _ => True) init schedule :=
      Runs.along_of_forall (fun _ _ _ => trivial) init
    have hdeletes := @Runs.Along.keeps _ _ _ _ (TieredCache.Deletes i₀ k)
      (fun c i hc _ => TieredCache.deletes_step hc i) _ _ hrun hstart.deletes
    have hexplained := @Runs.Along.keeps _ _ _ _ (TieredCache.Explained i₀ k)
      (fun c i hc _ => TieredCache.explained_step hc i) _ _ hrun fun t ht => by cases ht
    exact fun t => hexplained t (Pool.asked_of_done hdone (hdeletes t))
  · have hgone : TieredCache.Gone i₀ k final :=
      hside.keeps (fun c i hc hs => TieredCache.gone_step hc hs) hstart
    have hnone := hgone.nowhere hdone
    exact ⟨hnone, fun ops hops => TieredCache.later_get_none r hnone ops hops⟩

def lowerCopy : Stack (MemoryTier Nat Nat) 2 :=
  Stack.build fun i => if i.val = 0 then .unbounded else (Tier.put .unbounded 1 10).2

def getAndInvalidate (i : Fin 2) : CacheCall Nat Nat := if i.val = 0 then .get 1 else .invalidate 1

theorem invalidated_stays_gone_overlapping :
    let final := Pool.run TieredCache.exec
      (TieredCache.start memoryCache true getAndInvalidate lowerCopy) [0, 1, 1, 0, 0, 0]
    (Stack.run (TieredCache.get memoryCache 1)
      (Stack.performAll memoryCache final.shared.stack [.put 2 20])).1 = .ok none := by
  intro final
  have hgone := (invalidated_stays_gone (by decide) memoryCache (fun _ => rfl) true lowerCopy 1
    getAndInvalidate 1 rfl [0, 1, 1, 0, 0, 0] (by decide +kernel)).2
  have hread : TieredCache.Carries (TieredCache.Other 1)
      (TieredCache.perform (V := Nat) (E := Infallible) memoryCache true (.get 1)) :=
    TieredCache.carries_perform memoryCache true (.get 1) fun _ _ h => by cases h
  have hempty : ∀ c : TieredCache.CachePool 2 (MemoryTier Nat Nat) Nat Nat Infallible
      getAndInvalidate, TieredCache.Carries (TieredCache.Other 1) (c.threads 0) →
        TieredCache.NoCopyInHand c 1 1 := by
    intro c hc j hj
    have hj0 : j = 0 := by omega
    rwa [hj0]
  refine (hgone ⟨?_, ?_, ?_, ?_, ?_, ?_, trivial⟩).2 [.put 2 20] (by simp [RouterOp.written])
  · exact fun _ => hempty _ hread
  · exact fun _ => hempty _ (hread.2 () trivial)
  · exact fun _ => hempty _ (hread.2 () trivial)
  · exact fun h => absurd (by decide +kernel) h.1
  · exact fun h => absurd (by decide +kernel) h.1
  · exact fun h => absurd (by decide +kernel) h.1

/-- A read fetches the key from the lower tier, an invalidation runs, and then the read
promotes what it fetched. -/
theorem invalidated_comes_back :
    let final := Pool.run TieredCache.exec
      (TieredCache.start memoryCache true getAndInvalidate lowerCopy) [0, 0, 0, 1, 1, 0, 0]
    (∀ i, (final.threads i).Done) ∧ TieredCache.heldBy final 0 1 = some 10 ∧
      (Stack.run (TieredCache.get memoryCache 1) final.shared.stack).1 = .ok (some 10) := by
  decide +kernel

end Tierstore
