import Tierstore.Honest
import Tierstore.Memory
import Tierstore.Stack

/-! Batched deletes over tiers that refuse to delete some of their keys. -/
namespace Tierstore
open Overlay Effects

/-- The flags of a batch of deletes: a repeated key is found gone. -/
def firstFlags {K : Type} [DecidableEq K] (held : K → Bool) : List K → List Bool
  | [] => []
  | k :: rest => held k :: firstFlags (Function.update held k false) rest

section Flags
variable {K : Type} [DecidableEq K]

theorem length_firstFlags (held : K → Bool) (ks : List K) :
    (firstFlags held ks).length = ks.length := by
  induction ks generalizing held with
  | nil => rfl
  | cons k rest ih => exact congrArg (· + 1) (ih _)

theorem firstFlags_get (held : K → Bool) (ks : List K) (i : Fin ks.length) :
    (firstFlags held ks)[i.val]? = some true ↔
      held (ks.get i) = true ∧ ks.get i ∉ ks.take i := by
  induction ks generalizing held with
  | nil => exact i.elim0
  | cons k rest ih =>
    refine Fin.cases ?_ (fun i => ?_) i
    · simp [firstFlags]
    · change (firstFlags (Function.update held k false) rest)[i.val]? = some true ↔
        held (rest.get i) = true ∧ rest.get i ∉ k :: rest.take i
      rw [ih, List.mem_cons, not_or]
      generalize rest.get i = x
      by_cases hx : x = k
      · simp [hx]
      · simp [hx]

theorem orFlags_get {a b : List Bool} (h : a.length = b.length) (i : Nat) :
    (Router.orFlags a b)[i]? = some true ↔ a[i]? = some true ∨ b[i]? = some true := by
  induction a generalizing b i with
  | nil =>
    obtain rfl := List.length_eq_zero_iff.1 h.symm
    simp [Router.orFlags]
  | cons x a ih =>
    cases b with
    | nil => cases h
    | cons y b =>
      cases i with
      | zero => simp [Router.orFlags]
      | succ i => simpa [Router.orFlags] using ih (Nat.succ.inj h) i

theorem length_orFlags {a b : List Bool} (h : a.length = b.length) :
    (Router.orFlags a b).length = a.length := by
  induction a generalizing b with
  | nil =>
    obtain rfl := List.length_eq_zero_iff.1 h.symm
    rfl
  | cons x a ih =>
    cases b with
    | nil => cases h
    | cons y b => exact congrArg (· + 1) (ih (Nat.succ.inj h))

end Flags

/-- Tiers that delete key by key: some keys are refused, and a batch with a refused key fails
after it has attempted some of the keys. -/
class DeletesByKey (T : Type) {K V E : outParam Type} [DecidableEq K] [Tier T K V E] where
  holds : T → K → Bool
  refuses : T → K → Bool
  attempted : T → List K → List K
  delete_ok (t : T) (k : K) : refuses t k = false →
    (Tier.delete t k).1 = .ok (holds t k) ∧
      holds (Tier.delete t k).2 = Function.update (holds t) k false
  delete_error (t : T) (k : K) : refuses t k = true →
    (∃ e, (Tier.delete t k).1 = .error e) ∧ holds (Tier.delete t k).2 = holds t
  deleteMany_ok (t : T) (ks : List K) : (∀ k ∈ ks, refuses t k = false) →
    (Tier.deleteMany t ks).1 = .ok (firstFlags (holds t) ks) ∧
      ∀ k, holds (Tier.deleteMany t ks).2 k = (holds t k && !decide (k ∈ ks))
  deleteMany_error (t : T) (ks : List K) : (∃ k ∈ ks, refuses t k = true) →
    (∃ e, (Tier.deleteMany t ks).1 = .error e) ∧
      ∀ k, holds (Tier.deleteMany t ks).2 k =
        (holds t k && !(decide (k ∈ attempted t ks) && !refuses t k))

export DeletesByKey (holds refuses attempted)

/-! ## The looping default -/
section Looping
variable {T K E : Type} [DecidableEq K] {delete : T → K → Except E Bool × T}
  {held refused : T → K → Bool}

/-- Every key is deleted when none is refused. -/
theorem deleteManyDefault_all
    (hok : ∀ t k, refused t k = false → (delete t k).1 = .ok (held t k) ∧
      held (delete t k).2 = Function.update (held t) k false)
    (hsteady : ∀ t k, refused (delete t k).2 = refused t) (t : T) (ks : List K)
    (h : ∀ k ∈ ks, refused t k = false) :
    (deleteManyDefault delete t ks).1 = .ok (firstFlags (held t) ks) ∧
      ∀ k, held (deleteManyDefault delete t ks).2 k = (held t k && !decide (k ∈ ks)) := by
  induction ks generalizing t with
  | nil => exact ⟨rfl, by simp [deleteManyDefault]⟩
  | cons k rest ih =>
    obtain ⟨hflag, hheld⟩ := hok t k (h k (by simp))
    have hrefused := hsteady t k
    rw [deleteManyDefault, firstFlags]
    generalize delete t k = out at *
    obtain ⟨a, t'⟩ := out
    obtain rfl : a = .ok (held t k) := hflag
    obtain ⟨hflags, hlater⟩ := ih t' fun x hx => by
      rw [show refused t' = refused t from hrefused]
      exact h x (List.mem_cons_of_mem _ hx)
    rw [show held t' = _ from hheld] at hflags hlater
    refine ⟨?_, fun x => ?_⟩
    · dsimp only
      rw [hflags]
      rfl
    · dsimp only
      rw [hlater x]
      by_cases hx : x = k
      · subst hx
        simp
      · simp [hx]

/-- The keys before the first refused one are deleted, and none after it. -/
theorem deleteManyDefault_stops
    (hok : ∀ t k, refused t k = false → (delete t k).1 = .ok (held t k) ∧
      held (delete t k).2 = Function.update (held t) k false)
    (herror : ∀ t k, refused t k = true → (∃ e, (delete t k).1 = .error e) ∧
      held (delete t k).2 = held t)
    (hsteady : ∀ t k, refused (delete t k).2 = refused t) (t : T) (ks : List K)
    (h : ∃ k ∈ ks, refused t k = true) :
    (∃ e, (deleteManyDefault delete t ks).1 = .error e) ∧
      ∀ k, held (deleteManyDefault delete t ks).2 k =
        (held t k && !(decide (k ∈ ks.takeWhile fun k => !refused t k) && !refused t k)) := by
  induction ks generalizing t with
  | nil =>
    obtain ⟨k, hk, -⟩ := h
    cases hk
  | cons k rest ih =>
    rw [deleteManyDefault]
    cases hk : refused t k with
    | true =>
      obtain ⟨⟨e, he⟩, hheld⟩ := herror t k hk
      generalize delete t k = out at *
      obtain ⟨a, t'⟩ := out
      obtain rfl : a = .error e := he
      refine ⟨⟨e, rfl⟩, fun x => ?_⟩
      dsimp only
      rw [show held t' = held t from hheld]
      simp [hk]
    | false =>
      obtain ⟨hflag, hheld⟩ := hok t k hk
      have hrefused := hsteady t k
      generalize delete t k = out at *
      obtain ⟨a, t'⟩ := out
      obtain rfl : a = .ok (held t k) := hflag
      have hsame : refused t' = refused t := hrefused
      obtain ⟨⟨e, he⟩, hlater⟩ := ih t' (by
        obtain ⟨x, hx, hbad⟩ := h
        obtain rfl | hx := List.mem_cons.1 hx
        · rw [hk] at hbad
          cases hbad
        · exact ⟨x, hx, by rw [hsame]; exact hbad⟩)
      refine ⟨⟨e, ?_⟩, fun x => ?_⟩
      · dsimp only
        rw [he]
        rfl
      · dsimp only
        rw [hlater x, hsame, show held t' = _ from hheld]
        by_cases hx : x = k
        · subst hx
          simp [hk]
        · simp [hk, hx]

end Looping

/-! ## The whole removal -/
namespace Stack
variable {T K V E : Type} {n : Nat} [DecidableEq K] [Tier T K V E] [DeletesByKey T]
  {r : Router n} {s : Stack T n} {ks : List K}

def RefusesSome (t : T) (ks : List K) : Prop := ∃ k ∈ ks, refuses t k = true

instance (t : T) (ks : List K) : Decidable (RefusesSome t ks) :=
  inferInstanceAs (Decidable (∃ k ∈ ks, refuses t k = true))

theorem not_refusesSome {t : T} : ¬ RefusesSome t ks ↔ ∀ k ∈ ks, refuses t k = false := by
  simp [RefusesSome]

structure Removed (r : Router n) (ks : List K) (tiers : List (Fin n)) (s s' : Stack T n)
    (removed removed' : List Bool) (failures failures' : List (TierFailure E)) : Prop where
  other : ∀ j, j ∉ tiers ∨ r.writable j = false → s' j = s j
  done : ∀ t ∈ tiers, r.writable t = true →
    (s' t).tier = (Tier.deleteMany (s t).tier ks).2
  length : removed'.length = ks.length
  flags : ∀ i : Fin ks.length, removed'[i.val]? = some true ↔ removed[i.val]? = some true ∨
    ks.get i ∉ ks.take i ∧ ∃ t ∈ tiers, r.writable t = true ∧
      ¬ RefusesSome (s t).tier ks ∧ holds (s t).tier (ks.get i) = true
  failures : failures'.map TierFailure.tier = failures.map TierFailure.tier ++
    (tiers.filter fun t => r.writable t && decide (RefusesSome (s t).tier ks)).map Fin.val

theorem Removed.skip {t : Fin n} {below : List (Fin n)} {s' : Stack T n}
    {removed removed' : List Bool} {failures failures' : List (TierFailure E)}
    (h : Removed r ks below s s' removed removed' failures failures')
    (hw : r.writable t = false) :
    Removed r ks (t :: below) s s' removed removed' failures failures' := by
  have hmem (u : Fin n) (hu : u ∈ t :: below) (hwu : r.writable u = true) : u ∈ below := by
    obtain rfl | hu := List.mem_cons.1 hu
    · rw [hw] at hwu
      cases hwu
    · exact hu
  refine ⟨fun j hj => h.other j ?_, fun u hu hwu => h.done u (hmem u hu hwu) hwu, h.length,
    fun i => ?_, ?_⟩
  · exact hj.imp_left fun hj hb => hj (List.mem_cons_of_mem t hb)
  · rw [h.flags i]
    refine or_congr_right (and_congr_right fun _ => exists_congr fun u => ?_)
    exact ⟨fun ⟨hu, hrest⟩ => ⟨List.mem_cons_of_mem t hu, hrest⟩,
      fun ⟨hu, hrest⟩ => ⟨hmem u hu hrest.1, hrest⟩⟩
  · rw [h.failures, List.filter_cons_of_neg (by simp [hw])]

theorem Removed.cons {t : Fin n} {below : List (Fin n)} {s₁ s' : Stack T n}
    {removed removed₁ removed' : List Bool} {failures failures₁ failures' : List (TierFailure E)}
    (h : Removed r ks below s₁ s' removed₁ removed' failures₁ failures')
    (hw : r.writable t = true) (hnew : t ∉ below) (hother : ∀ j, j ≠ t → s₁ j = s j)
    (hdone : (s₁ t).tier = (Tier.deleteMany (s t).tier ks).2)
    (hflags : ∀ i : Fin ks.length, removed₁[i.val]? = some true ↔ removed[i.val]? = some true ∨
      ks.get i ∉ ks.take i ∧ ¬ RefusesSome (s t).tier ks ∧ holds (s t).tier (ks.get i) = true)
    (hfailures : failures₁.map TierFailure.tier = failures.map TierFailure.tier ++
      if RefusesSome (s t).tier ks then [t.val] else []) :
    Removed r ks (t :: below) s s' removed removed' failures failures' := by
  have hne : ∀ u ∈ below, u ≠ t := fun u hu e => hnew (e ▸ hu)
  refine ⟨fun j hj => ?_, fun u hu hwu => ?_, h.length, fun i => ?_, ?_⟩
  · have hjt : j ≠ t := by
      rintro rfl
      obtain hj | hj := hj
      · exact hj (by simp)
      · rw [hw] at hj
        cases hj
    rw [h.other j (hj.imp_left fun hj hb => hj (List.mem_cons_of_mem t hb)), hother j hjt]
  · obtain rfl | hu := List.mem_cons.1 hu
    · rw [h.other u (Or.inl hnew), hdone]
    · rw [h.done u hu hwu, hother u (hne u hu)]
  · rw [h.flags i, hflags i, or_assoc, ← and_or_left]
    refine or_congr_right (and_congr_right fun _ => ?_)
    constructor
    · rintro (⟨hok, hheld⟩ | ⟨u, hu, hwu, hrest⟩)
      · exact ⟨t, by simp, hw, hok, hheld⟩
      · rw [hother u (hne u hu)] at hrest
        exact ⟨u, List.mem_cons_of_mem t hu, hwu, hrest⟩
    · rintro ⟨u, hu, hwu, hrest⟩
      obtain rfl | hu := List.mem_cons.1 hu
      · exact Or.inl hrest
      · refine Or.inr ⟨u, hu, hwu, ?_⟩
        rwa [hother u (hne u hu)]
  · have hsame : (below.filter fun u => r.writable u && decide (RefusesSome (s₁ u).tier ks)) =
        below.filter fun u => r.writable u && decide (RefusesSome (s u).tier ks) :=
      List.filter_congr fun u hu => by rw [hother u (hne u hu)]
    rw [h.failures, hfailures, hsame, List.append_assoc]
    by_cases hrefuse : RefusesSome (s t).tier ks <;> simp [hw, hrefuse]

theorem removeTiers_removed (r : Router n) (ks : List K) {tiers : List (Fin n)}
    (hnd : tiers.Nodup) (s : Stack T n) {removed : List Bool} (hlen : removed.length = ks.length)
    (failures : List (TierFailure E)) :
    Removed r ks tiers s (run (r.removeTiers ks tiers removed failures) s).2 removed
      (run (r.removeTiers ks tiers removed failures) s).1.removed failures
      (run (r.removeTiers ks tiers removed failures) s).1.failures := by
  induction tiers generalizing s removed failures with
  | nil => exact ⟨fun _ _ => rfl, by simp, hlen, by simp [Router.removeTiers], by
      simp [Router.removeTiers]⟩
  | cons t below ih =>
    obtain ⟨hnew, hnd⟩ := List.nodup_cons.1 hnd
    rw [Router.removeTiers]
    cases hw : r.writable t with
    | false => exact (ih hnd s hlen failures).skip hw
    | true =>
      have hother (j : Fin n) (hj : j ≠ t) : (exec (E := E) (t, .deleteMany ks) s).2 j = s j :=
        exec_other _ s hj
      have hdone := exec_tier (E := E) (t, .deleteMany ks) s
      have hanswer := exec_answer (E := E) (t, .deleteMany ks) s
      simp only [Bool.not_true, Bool.false_eq_true, if_false, run_bind, run_deleteManyAt]
      generalize exec (E := E) (t, .deleteMany ks) s = out at *
      obtain ⟨a, s₁⟩ := out
      by_cases hrefuse : RefusesSome (s t).tier ks
      · obtain ⟨e, he⟩ := (DeletesByKey.deleteMany_error (s t).tier ks hrefuse).1
        obtain rfl : a = .error e := hanswer.trans he
        refine (ih hnd s₁ hlen _).cons hw hnew hother hdone (fun i => ?_) ?_
        · simp [hrefuse]
        · rw [if_pos hrefuse, List.map_append]
          rfl
      · have hall := (DeletesByKey.deleteMany_ok (s t).tier ks (not_refusesSome.1 hrefuse)).1
        obtain rfl : a = .ok (firstFlags (holds (s t).tier) ks) := hanswer.trans hall
        have hlen' : removed.length = (firstFlags (holds (s t).tier) ks).length := by
          rw [hlen, length_firstFlags]
        refine (ih hnd s₁ ((length_orFlags hlen').trans hlen) _).cons hw hnew hother hdone
          (fun i => ?_) ?_
        · rw [orFlags_get hlen', firstFlags_get, and_comm (a := holds _ _ = true)]
          simp [hrefuse]
        · rw [if_neg hrefuse, List.append_nil]

theorem exists_first {k : K} (h : k ∈ ks) : ∃ i : Fin ks.length, ks.get i = k ∧ k ∉ ks.take i := by
  induction ks with
  | nil => cases h
  | cons x rest ih =>
    by_cases hk : k = x
    · exact ⟨⟨0, by simp⟩, hk.symm, by simp⟩
    · obtain ⟨i, hi, hfirst⟩ := ih ((List.mem_cons.1 h).resolve_left hk)
      refine ⟨i.succ, hi, ?_⟩
      change k ∉ x :: rest.take i
      rw [List.mem_cons, not_or]
      exact ⟨hk, hfirst⟩

/-- The removal skipped no key: the keys that could be deleted are gone, the flags say which
were there, and the failures name the tiers that refused some key. -/
structure SkipsNone (r : Router n) (ks : List K) (s : Stack T n) (report : DeleteReport E)
    (s' : Stack T n) : Prop where
  gone : ∀ t, r.writable t = true → ∀ k ∈ ks, refuses (s t).tier k = false →
    holds (s' t).tier k = false
  removed : ∀ i : Fin ks.length, report.removed[i.val]? = some true ↔
    ks.get i ∉ ks.take i ∧ ∃ t, r.writable t = true ∧
      holds (s t).tier (ks.get i) = true ∧ holds (s' t).tier (ks.get i) = false
  failures : report.failures.map TierFailure.tier =
    ((List.finRange n).filter fun t => r.writable t && decide (RefusesSome (s t).tier ks)).map
      Fin.val

/-- A removal skips no key exactly when every key that a tier with refusals holds and would
delete is attempted there, and is held too by a writable tier without refusals. -/
theorem removeMany_skips_none_iff (r : Router n) (ks : List K) (s : Stack T n) :
    SkipsNone r ks s (run (r.removeMany ks) s).1 (run (r.removeMany ks) s).2 ↔
      ∀ t, r.writable t = true → RefusesSome (s t).tier ks → ∀ k ∈ ks,
        refuses (s t).tier k = false → holds (s t).tier k = true →
          k ∈ attempted (s t).tier ks ∧
            ∃ u, r.writable u = true ∧ ¬ RefusesSome (s u).tier ks ∧ holds (s u).tier k = true := by
  have hrun := removeTiers_removed r ks (List.nodup_finRange n) s
    (List.length_replicate (n := ks.length) (a := false)) []
  rw [Router.removeMany]
  generalize run (r.removeTiers ks (List.finRange n) (List.replicate ks.length false) []) s = out
    at *
  obtain ⟨report, s'⟩ := out
  have hflags (i : Fin ks.length) : report.removed[i.val]? = some true ↔
      ks.get i ∉ ks.take i ∧ ∃ t, r.writable t = true ∧
        ¬ RefusesSome (s t).tier ks ∧ holds (s t).tier (ks.get i) = true := by
    simpa using hrun.flags i
  have hrefused {t : Fin n} (hw : r.writable t = true) (h : RefusesSome (s t).tier ks) (k : K) :
      holds (s' t).tier k = (holds (s t).tier k &&
        !(decide (k ∈ attempted (s t).tier ks) && !refuses (s t).tier k)) := by
    rw [hrun.done t (List.mem_finRange t) hw]
    exact (DeletesByKey.deleteMany_error (s t).tier ks h).2 k
  have hclean {t : Fin n} (hw : r.writable t = true) (h : ¬ RefusesSome (s t).tier ks) {k : K}
      (hk : k ∈ ks) : holds (s' t).tier k = false := by
    rw [hrun.done t (List.mem_finRange t) hw,
      (DeletesByKey.deleteMany_ok (s t).tier ks (not_refusesSome.1 h)).2 k]
    simp [hk]
  constructor
  · intro hskips t hw hrefuse k hk hok hheld
    have hgone := hskips.gone t hw k hk hok
    have hattempted : k ∈ attempted (s t).tier ks := by
      rw [hrefused hw hrefuse k, hheld, hok] at hgone
      simpa using hgone
    obtain ⟨i, rfl, hfirst⟩ := exists_first hk
    have htrue := (hskips.removed i).2 ⟨hfirst, t, hw, hheld, hgone⟩
    exact ⟨hattempted, ((hflags i).1 htrue).2⟩
  · intro hcond
    refine ⟨fun t hw k hk hok => ?_, fun i => ?_, hrun.failures⟩
    · by_cases hrefuse : RefusesSome (s t).tier ks
      · rw [hrefused hw hrefuse k]
        cases hheld : holds (s t).tier k with
        | false => rfl
        | true => simp [(hcond t hw hrefuse k hk hok hheld).1, hok]
      · exact hclean hw hrefuse hk
    · rw [hflags i]
      refine and_congr_right fun _ => ⟨?_, ?_⟩
      · rintro ⟨t, hw, hrefuse, hheld⟩
        exact ⟨t, hw, hheld, hclean hw hrefuse (List.get_mem ks i)⟩
      · rintro ⟨t, hw, hheld, hgone⟩
        by_cases hrefuse : RefusesSome (s t).tier ks
        · have hok : refuses (s t).tier (ks.get i) = false := by
            by_contra hbad
            rw [hrefused hw hrefuse, hheld, Bool.eq_true_of_not_eq_false hbad] at hgone
            simp at hgone
          exact (hcond t hw hrefuse _ (List.get_mem ks i) hok hheld).2
        · exact ⟨t, hw, hrefuse, hheld⟩

end Stack

/-! ## A memory tier that refuses some deletes -/

/-- A memory tier whose backend refuses to delete some keys; its batch methods loop. -/
structure RefusingTier (K V : Type) [DecidableEq K] where
  inner : MemoryTier K V
  refused : K → Bool

namespace RefusingTier
variable {K V : Type} [DecidableEq K]

def delete (t : RefusingTier K V) (k : K) : Except Unit Bool × RefusingTier K V :=
  if t.refused k then (.error (), t)
  else
    let out := t.inner.inner.remove k
    (.ok out.1, { t with inner := { t.inner with inner := out.2 } })

instance : Tier (RefusingTier K V) K V Unit where
  get t k :=
    let out := Tier.get t.inner k
    (out.1.mapError Empty.elim, { t with inner := out.2 })
  exists_ t k :=
    let out := Tier.exists_ t.inner k
    (out.1.mapError Empty.elim, { t with inner := out.2 })
  getMany t ks :=
    let out := Tier.getMany t.inner ks
    (out.1.mapError Empty.elim, { t with inner := out.2 })
  put t k v :=
    let out := Tier.put t.inner k v
    (out.1.mapError Empty.elim, { t with inner := out.2 })
  putMany t es :=
    let out := Tier.putMany t.inner es
    (out.1.mapError Empty.elim, { t with inner := out.2 })
  delete := delete
  deleteMany := deleteManyDefault delete

def held (t : RefusingTier K V) (k : K) : Bool := (t.inner.inner.values k).isSome

theorem delete_accepted (t : RefusingTier K V) (k : K) (h : t.refused k = false) :
    (delete t k).1 = .ok (t.held k) ∧
      (delete t k).2.held = Function.update t.held k false := by
  have hflag : (t.inner.inner.remove k).1 = t.held k := by
    rw [held, Inner.values, Inner.remove]
    cases t.inner.inner.map.lookup k <;> rfl
  have hvalues := Inner.values_remove t.inner.inner k
  simp only [delete, h, Bool.false_eq_true, if_false, hflag, true_and]
  funext x
  by_cases hx : x = k
  · subst hx
    simp [held, hvalues, erase]
  · simp [held, hvalues, erase, hx]

theorem delete_refused (t : RefusingTier K V) (k : K) (h : t.refused k = true) :
    (∃ e, (delete t k).1 = .error e) ∧ (delete t k).2.held = t.held := by
  simp [delete, h]

theorem delete_steady (t : RefusingTier K V) (k : K) : (delete t k).2.refused = t.refused := by
  unfold delete
  split <;> rfl

instance : DeletesByKey (RefusingTier K V) where
  holds := held
  refuses := refused
  attempted t ks := ks.takeWhile fun k => !t.refused k
  delete_ok := delete_accepted
  delete_error := delete_refused
  deleteMany_ok := deleteManyDefault_all delete_accepted delete_steady
  deleteMany_error := deleteManyDefault_stops delete_accepted delete_refused delete_steady

end RefusingTier

def refusingSecond : Stack (RefusingTier Nat Nat) 1 :=
  Stack.build fun _ =>
    { inner := (Tier.putMany MemoryTier.unbounded [(1, 10), (2, 20), (3, 30)]).2
      refused := fun k => k == 2 }

/-- Key 3 could be deleted but is skipped, and key 1 is deleted but not flagged. -/
theorem refused_key_spoils_batch :
    let out := Stack.run ((Router.uniform 1 "disk" Policy.default).removeMany [1, 2, 3])
      refusingSecond
    out.1 = ⟨[false, false, false], [⟨0, "disk", ()⟩]⟩ ∧
      refuses (refusingSecond 0).tier 3 = false ∧ holds (out.2 0).tier 3 = true ∧
      holds (refusingSecond 0).tier 1 = true ∧ holds (out.2 0).tier 1 = false ∧
      ¬ Stack.SkipsNone (Router.uniform 1 "disk" Policy.default) [1, 2, 3] refusingSecond out.1
        out.2 := by
  have hskipped : holds ((Stack.run ((Router.uniform 1 "disk" Policy.default).removeMany [1, 2, 3])
      refusingSecond).2 0).tier 3 = true := by
    decide +kernel
  refine ⟨by decide +kernel, by decide +kernel, hskipped, by decide +kernel, by decide +kernel,
    fun hskips => ?_⟩
  have hgone := hskips.gone 0 rfl 3 (by decide) (by decide +kernel)
  rw [hskipped] at hgone
  cases hgone

end Tierstore
