import Tierstore.Batched
import Tierstore.Codec
import Tierstore.Verified

/-! Batched reads against single-key reads, over tiers that fail key by key. -/
namespace Tierstore
open Overlay Effects

/-! ## Batches that fail with one of their keys -/
section Collects
variable {E F α : Type}

def Collects (answers : List (Except F α)) : Except E (List α) → Prop
  | .ok vs => answers = vs.map .ok
  | .error _ => ∃ e, .error e ∈ answers

theorem Collects.cons_ok {answers : List (Except F α)} {batch : Except E (List α)}
    (h : Collects answers batch) (v : α) : Collects (.ok v :: answers) (batch.map (v :: ·)) := by
  cases batch with
  | ok vs => exact congrArg (Except.ok v :: ·) h
  | error e =>
    obtain ⟨source, hmem⟩ := h
    exact ⟨source, List.mem_cons_of_mem _ hmem⟩

theorem Collects.cons_error (answers : List (Except F α)) (e : F) (e' : E) :
    Collects (.error e :: answers) (.error e' : Except E (List α)) :=
  ⟨e, by simp⟩

theorem Collects.mapError {answers : List (Except F α)} {batch : Except E (List α)}
    (h : Collects answers batch) {F' E' : Type} (f : F → F') (g : E → E') :
    Collects (answers.map (Except.mapError f)) (batch.mapError g) := by
  cases batch with
  | ok vs =>
    obtain rfl : answers = vs.map .ok := h
    change (vs.map Except.ok).map (Except.mapError f) = vs.map Except.ok
    rw [List.map_map]
    rfl
  | error e =>
    obtain ⟨source, hmem⟩ := h
    exact ⟨f source, List.mem_map_of_mem (f := Except.mapError f) hmem⟩

end Collects

/-- Reads do not change what a tier answers for a key, and a batch fails exactly when one of
its keys fails on its own. -/
class ReadsByKey (T : Type) {K V E : outParam Type} [Tier T K V E] : Prop where
  get_steady (t : T) (k k' : K) : (Tier.get (Tier.get t k).2 k').1 = (Tier.get t k').1
  getMany_steady (t : T) (ks : List K) (k' : K) :
    (Tier.get (Tier.getMany t ks).2 k').1 = (Tier.get t k').1
  getMany_collects (t : T) (ks : List K) :
    Collects (ks.map fun k => (Tier.get t k).1) (Tier.getMany t ks).1

namespace ReadsByKey
variable {T K V E : Type}

theorem getManyDefault_steady {get : T → K → Except E (Option V) × T}
    (hget : ∀ t k k', (get (get t k).2 k').1 = (get t k').1) (t : T) (ks : List K) (k' : K) :
    (get (getManyDefault get t ks).2 k').1 = (get t k').1 := by
  induction ks generalizing t with
  | nil => rfl
  | cons k rest ih =>
    have hk := hget t k k'
    rw [getManyDefault]
    generalize get t k = out at *
    obtain ⟨e | a, t'⟩ := out
    · exact hk
    · exact (ih t').trans hk

theorem getManyDefault_collects {get : T → K → Except E (Option V) × T}
    (hget : ∀ t k k', (get (get t k).2 k').1 = (get t k').1) (t : T) (ks : List K) :
    Collects (ks.map fun k => (get t k).1) (getManyDefault get t ks).1 := by
  induction ks generalizing t with
  | nil => rfl
  | cons k rest ih =>
    have hk := hget t k
    rw [getManyDefault, List.map_cons]
    generalize get t k = out at *
    obtain ⟨e | a, t'⟩ := out
    · exact Collects.cons_error _ e e
    · have hrest := ih t'
      rw [List.map_congr_left fun k' _ => hk k'] at hrest
      exact hrest.cons_ok a

/-- The looping default aborts at the first key that fails. -/
theorem of_looping [Tier T K V E]
    (hget : ∀ (t : T) (k k' : K), (Tier.get (Tier.get t k).2 k').1 = (Tier.get t k').1)
    (hloop : ∀ (t : T) (ks : List K), Tier.getMany t ks = getManyDefault Tier.get t ks) :
    ReadsByKey T where
  get_steady := hget
  getMany_steady t ks k' := by
    rw [hloop]
    exact getManyDefault_steady hget t ks k'
  getMany_collects t ks := by
    rw [hloop]
    exact getManyDefault_collects hget t ks

/-- A tier that cannot fail answers what it holds. -/
instance of_lawful [DecidableEq K] [Tier T K V Infallible] [LawfulTier T] : ReadsByKey T := by
  have hget (t : T) (k : K) : (Tier.get t k).1 = .ok (contents t k) := by
    cases h : (Tier.get t k).1 with
    | ok a => rw [LawfulTier.get_ok t k a h]
    | error e => exact e.elim
  refine ⟨fun t k k' => ?_, fun t ks k' => ?_, fun t ks => ?_⟩
  · rw [hget, hget, LawfulTier.get_contents]
  · rw [hget, hget, LawfulTier.getMany_contents]
  · cases h : (Tier.getMany t ks).1 with
    | error e => exact e.elim
    | ok vs =>
      rw [LawfulTier.getMany_ok t ks vs h]
      change ks.map _ = (ks.map _).map Except.ok
      rw [List.map_map]
      exact List.map_congr_left fun k _ => hget t k

section Wrapped
variable {U IK IV F : Type}

theorem releaseMany_cons (check : K → V → Except BoxError Unit) (k : K) (ks : List K)
    (v : Option V) (vs : List (Option V)) :
    VerifiedTier.releaseMany (E := E) check (k :: ks) (.ok (v :: vs)) =
      match VerifiedTier.release (E := E) check k (.ok v) with
      | .ok _ => (VerifiedTier.releaseMany check ks (.ok vs)).map (v :: ·)
      | .error e => .error e := by
  simp only [VerifiedTier.releaseMany, List.zip_cons_cons]
  cases v with
  | none =>
    simp only [VerifiedTier.firstCorrupt, VerifiedTier.release]
    cases VerifiedTier.firstCorrupt check (ks.zip vs) <;> rfl
  | some v =>
    simp only [VerifiedTier.firstCorrupt, VerifiedTier.release]
    cases check k v with
    | error e => rfl
    | ok _ => cases VerifiedTier.firstCorrupt check (ks.zip vs) <;> rfl

theorem releaseMany_collects {check : K → V → Except BoxError Unit} {ks : List K}
    {get : K → Except E (Option V)} {vs : List (Option V)} (h : ks.map get = vs.map .ok) :
    Collects (ks.map fun k => VerifiedTier.release check k (get k))
      (VerifiedTier.releaseMany (E := E) check ks (.ok vs)) := by
  induction ks generalizing vs with
  | nil =>
    obtain rfl := List.map_eq_nil_iff.1 h.symm
    rfl
  | cons k rest ih =>
    cases vs with
    | nil => cases h
    | cons v vs =>
      obtain ⟨hk, hrest⟩ := List.cons.inj h
      have hlater := ih hrest
      rw [List.map_cons, hk, releaseMany_cons]
      cases v with
      | none => exact hlater.cons_ok none
      | some v =>
        simp only [VerifiedTier.release]
        cases check k v with
        | error e => exact Collects.cons_error _ _ _
        | ok _ => exact hlater.cons_ok (some v)

instance [Tier U K V E] [ReadsByKey U] : ReadsByKey (VerifiedTier U K V) where
  get_steady t k k' := congrArg (VerifiedTier.release t.check k') (get_steady t.inner k k')
  getMany_steady t ks k' :=
    congrArg (VerifiedTier.release t.check k') (getMany_steady t.inner ks k')
  getMany_collects t ks := by
    have hinner := getMany_collects t.inner ks
    change Collects (ks.map fun k => VerifiedTier.release t.check k (Tier.get t.inner k).1)
      (VerifiedTier.releaseMany t.check ks (Tier.getMany t.inner ks).1)
    cases h : (Tier.getMany t.inner ks).1 with
    | ok vs =>
      rw [h] at hinner
      exact releaseMany_collects hinner
    | error e =>
      rw [h] at hinner
      obtain ⟨source, hmem⟩ := hinner
      obtain ⟨k, hk, hsource⟩ := List.mem_map.1 hmem
      refine ⟨.backend source, List.mem_map.2 ⟨k, hk, ?_⟩⟩
      rw [hsource]
      rfl

def decoded (decode : IV → Except BoxError (K × V)) :
    Except E (Option IV) → Except (CodecError E) (Option V)
  | .error e => .error (.backend e)
  | .ok found => CodecTier.decodeFound decode found

theorem get_decoded [Tier U IK IV E] (t : CodecTier U IK IV K V) (k : K) :
    (Tier.get t k).1 = decoded t.decode (Tier.get t.inner (t.toKey k)).1 := by
  simp only [Tier.get]
  cases (Tier.get t.inner (t.toKey k)).1 <;> rfl

theorem decodeAll_collects {decode : IV → Except BoxError (K × V)} {ks : List K}
    {get : K → Except E (Option IV)} {vs : List (Option IV)} (h : ks.map get = vs.map .ok) :
    Collects (ks.map fun k => decoded decode (get k)) (CodecTier.decodeAll (E := E) decode vs) := by
  induction ks generalizing vs with
  | nil =>
    obtain rfl := List.map_eq_nil_iff.1 h.symm
    rfl
  | cons k rest ih =>
    cases vs with
    | nil => cases h
    | cons v vs =>
      obtain ⟨hk, hrest⟩ := List.cons.inj h
      rw [List.map_cons, hk, CodecTier.decodeAll, decoded]
      cases CodecTier.decodeFound (E := E) decode v with
      | error e => exact Collects.cons_error _ e e
      | ok w => exact (ih hrest).cons_ok w

instance [Tier U IK IV E] [ReadsByKey U] : ReadsByKey (CodecTier U IK IV K V) where
  get_steady t k k' := by
    rw [get_decoded, get_decoded]
    exact congrArg (decoded t.decode) (get_steady t.inner (t.toKey k) (t.toKey k'))
  getMany_steady t ks k' := by
    rw [get_decoded, get_decoded]
    exact congrArg (decoded t.decode) (getMany_steady t.inner (ks.map t.toKey) (t.toKey k'))
  getMany_collects t ks := by
    have hinner := getMany_collects t.inner (ks.map t.toKey)
    rw [List.map_map] at hinner
    simp only [get_decoded]
    simp only [Tier.getMany]
    cases h : (Tier.getMany t.inner (ks.map t.toKey)).1 with
    | ok vs =>
      rw [h] at hinner
      exact decodeAll_collects hinner
    | error e =>
      rw [h] at hinner
      obtain ⟨source, hmem⟩ := hinner
      obtain ⟨k, hk, hsource⟩ := List.mem_map.1 hmem
      refine ⟨.backend source, List.mem_map.2 ⟨k, hk, ?_⟩⟩
      exact congrArg (decoded t.decode) hsource

instance {A B : Type} [Tier A K V E] [Tier B K V F] [ReadsByKey A] [ReadsByKey B] :
    ReadsByKey (A ⊕ B) := by
  refine ⟨fun t k k' => ?_, fun t ks k' => ?_, fun t ks => ?_⟩
  · cases t with
    | inl a => exact congrArg (Except.mapError Sum.inl) (get_steady a k k')
    | inr b => exact congrArg (Except.mapError Sum.inr) (get_steady b k k')
  · cases t with
    | inl a => exact congrArg (Except.mapError Sum.inl) (getMany_steady a ks k')
    | inr b => exact congrArg (Except.mapError Sum.inr) (getMany_steady b ks k')
  · cases t with
    | inl a =>
      have h := (getMany_collects a ks).mapError (Sum.inl (β := F)) (Sum.inl (β := F))
      rwa [List.map_map] at h
    | inr b =>
      have h := (getMany_collects b ks).mapError (Sum.inr (α := E)) (Sum.inr (α := E))
      rwa [List.map_map] at h

end Wrapped
end ReadsByKey

/-! ## The two reads of a stack -/
namespace Stack
variable {T K V E : Type} {n : Nat} [Tier T K V E]

def answer (s : Stack T n) (t : Fin n) (k : K) : Except E (Option V) := (Tier.get (s t).tier k).1

def Serves (s : Stack T n) (h : Fin n) (k : K) (v : V) : Prop :=
  s.answer h k = .ok (some v) ∧ ∀ u < h, ∀ w, s.answer u k ≠ .ok (some w)

def KeyedEvent (s : Stack T n) (e : Event n K V E) : Prop :=
  match e with
  | ⟨(t, .get k), a⟩ => a = s.answer t k
  | ⟨(t, .getMany ks), a⟩ => Collects (ks.map (s.answer t)) a
  | _ => True

variable [ReadsByKey T]

theorem exec_keyed {q : Query n K V} {s s' : Stack T n} (hs : s'.answer = s.answer)
    (hq : (∃ k, q.2 = .get k) ∨ ∃ ks, q.2 = .getMany ks) :
    s.KeyedEvent ⟨q, (exec q s').1⟩ ∧ (exec q s').2.answer = s.answer := by
  have hsame (t : Fin n) (c : TierCall K V)
      (h : ∀ k', (Tier.get (Tier.call (s' t).tier c).2 k').1 = (Tier.get (s' t).tier k').1) :
      (exec (t, c) s').2.answer = s.answer := by
    rw [← hs]
    funext j k'
    by_cases hj : j = t
    · subst hj
      rw [answer, exec_tier]
      exact h k'
    · rw [answer, exec_other (t, c) s' hj]
      rfl
  obtain ⟨t, c⟩ := q
  obtain ⟨k, rfl⟩ | ⟨ks, rfl⟩ := hq
  · refine ⟨?_, hsame t _ fun k' => ReadsByKey.get_steady _ k k'⟩
    change s'.answer t k = s.answer t k
    rw [hs]
  · refine ⟨?_, hsame t _ fun k' => ReadsByKey.getMany_steady _ ks k'⟩
    change Collects (ks.map (s.answer t)) (Tier.getMany (s' t).tier ks).1
    rw [← hs]
    exact ReadsByKey.getMany_collects (s' t).tier ks

end Stack

namespace Router
variable {n : Nat} {K V E : Type} {r : Router n}

theorem readTiers_reads (keys : List K) (tiers : List (Fin n))
    (statuses : Fin keys.length → KeyStatus V) (unresolved : List (Fin keys.length))
    (failures : List (TierFailure E)) :
    (r.readTiers keys tiers statuses unresolved failures).Safe
      (fun q => (∃ k, q.2 = .get k) ∨ ∃ ks, q.2 = .getMany ks) (fun _ _ => True)
      (fun _ => True) := by
  induction tiers generalizing statuses unresolved failures with
  | nil => trivial
  | cons t below ih =>
    rw [readTiers]
    split
    · trivial
    · refine ⟨Or.inr ⟨_, rfl⟩, fun a _ => ?_⟩
      cases a with
      | ok found => exact ih _ _ _
      | error source =>
        cases r.policy.read.onError with
        | failFast => trivial
        | fallThrough => exact ih _ _ _

theorem readMany_reads (hnever : r.policy.read.promote = .never) (keys : List K) :
    (r.readMany (V := V) (E := E) keys).Safe
      (fun q => (∃ k, q.2 = .get k) ∨ ∃ ks, q.2 = .getMany ks) (fun _ _ => True)
      (fun _ => True) := by
  refine (readTiers_reads keys _ _ _ _).bind fun probes _ => ?_
  cases probes with
  | error e => trivial
  | ok probes =>
    change (r.promoteBatch keys _ >>= _ : RouterM n K V E _).Safe _ _ _
    rw [promoteBatch, if_pos hnever]
    trivial

theorem get_reads (hnever : r.policy.read.promote = .never) (key : K) :
    (r.get (V := V) (E := E) key).Safe
      (fun q => (∃ k, q.2 = .get k) ∨ ∃ ks, q.2 = .getMany ks) (fun _ _ => True)
      (fun _ => True) := by
  have htargets (t : Fin n) : r.hitTargets t = [] := by
    rw [hitTargets, promoteTargets, hnever, ite_self]
  have hdown (tiers : List (Fin n)) (failures : List (TierFailure E)) :
      (r.readDown (V := V) key tiers failures).Safe
        (fun q => (∃ k, q.2 = .get k) ∨ ∃ ks, q.2 = .getMany ks) (fun _ _ => True)
        (fun _ => True) := by
    induction tiers generalizing failures with
    | nil => trivial
    | cons t below ih =>
      refine ⟨Or.inl ⟨_, rfl⟩, fun a _ => ?_⟩
      cases a with
      | ok found =>
        cases found with
        | some v =>
          change ((r.hitTargets t).forM _ >>= _ : RouterM n K V E _).Safe _ _ _
          rw [htargets]
          trivial
        | none => exact ih failures
      | error source =>
        cases r.policy.read.onError with
        | failFast => trivial
        | fallThrough => exact ih _
  rw [get_eq, map_eq_pure_bind]
  exact (hdown _ _).bind fun _ _ => trivial

end Router

def ReadReport.Failing {V E : Type} (report : ReadReport V E) (t : Nat) : Prop :=
  ∃ failure ∈ report.failures, failure.tier = t

namespace Stack
variable {T K V E : Type} {n : Nat} [Tier T K V E]

def Pending (s : Stack T n) (report : ReadReport V E) (k : K) (t : Fin n) : Prop :=
  ∀ u < t, report.Failing u ∨ s.answer u k = .ok none

/-- The status of a key is that of its own read over the tiers whose batches succeeded. -/
structure FollowsKeys (s : Stack T n) (keys : List K) (report : ReadReport V E) : Prop where
  length : report.statuses.length = keys.length
  failing : ∀ t : Fin n, report.Failing t ↔
    ∃ k ∈ keys, s.Pending report k t ∧ ∃ source, s.answer t k = .error source
  hit : ∀ (i : Fin keys.length) (tier : Nat) (v : V),
    report.statuses[i.val]? = some (.hit tier v) ↔ ∃ t : Fin n, t.val = tier ∧
      s.Pending report (keys.get i) t ∧ ¬ report.Failing t ∧ s.answer t (keys.get i) = .ok (some v)
  miss : ∀ i : Fin keys.length, report.statuses[i.val]? = some .miss ↔
    ∀ t : Fin n, ¬ report.Failing t ∧ s.answer t (keys.get i) = .ok none
  inconclusive : ∀ i : Fin keys.length, report.statuses[i.val]? = some .inconclusive ↔
    (∃ t : Fin n, report.Failing t) ∧
      ∀ t : Fin n, report.Failing t ∨ s.answer t (keys.get i) = .ok none

variable [ReadsByKey T]

theorem events_keyed {α : Type} {p : RouterM n K V E α} {post : α → Prop} (hp : p.Safe
    (fun q => (∃ k, q.2 = .get k) ∨ ∃ ks, q.2 = .getMany ks) (fun _ _ => True) post)
    (s : Stack T n) : ∀ e ∈ p.events exec s, s.KeyedEvent e := by
  have hrun := @Program.Safe.events _ _ _ _ exec _ (fun s' => s'.answer = s.answer) s.KeyedEvent
    post (fun _ _ hs hq => exec_keyed hs hq) p hp s rfl
  exact hrun.1

structure Slots (s : Stack T n) (keys : List K) (called : List (Fin n))
    (slots : Fin n → Except E (Fin keys.length → Option V)) : Prop where
  value : ∀ t ∈ called, ∀ values, slots t = .ok values → ∀ i ∈ Router.asked slots t,
    s.answer t (keys.get i) = .ok (values i)
  error : ∀ t ∈ called, ∀ e, slots t = .error e → ∃ i ∈ Router.asked slots t, ∃ source,
    s.answer t (keys.get i) = .error source

omit [ReadsByKey T] in
theorem slots_of_classified {r : Router n} {s : Stack T n} {keys : List K}
    {log : List (Event n K V E)} {result : Except (RouterError E) (ReadReport V E)}
    {slots : Fin n → Except E (Fin keys.length → Option V)} {called : List (Fin n)}
    {copies : List (Event n K V E)} (h : r.ClassifiedRead keys log result slots called copies)
    (hlog : ∀ e ∈ log, s.KeyedEvent e) : s.Slots keys called slots := by
  have hcall (t : Fin n) (ht : t ∈ called) :
      Collects (((Router.asked slots t).map keys.get).map (s.answer t))
        ((slots t).map fun values => (Router.asked slots t).map values) := by
    refine hlog (Router.batchCall keys slots (Router.asked slots t) t) ?_
    rw [h.calls]
    exact List.mem_append_left _ (List.mem_map_of_mem ht)
  refine ⟨fun t ht values hv i hi => ?_, fun t ht e he => ?_⟩
  · have hc := hcall t ht
    rw [hv, List.map_map] at hc
    change List.map _ _ = ((Router.asked slots t).map values).map Except.ok at hc
    rw [List.map_map] at hc
    exact List.map_inj_left.1 hc i hi
  · have hc := hcall t ht
    rw [he] at hc
    obtain ⟨source, hmem⟩ := hc
    obtain ⟨k, hk, hsource⟩ := List.mem_map.1 hmem
    obtain ⟨i, hi, rfl⟩ := List.mem_map.1 hk
    exact ⟨i, hi, source, hsource⟩

theorem mem_asked {m : Nat} {slots : Fin n → Except E (Fin m → Option V)} {t : Fin n} {i : Fin m} :
    i ∈ Router.asked slots t ↔ ∀ u < t, Router.given slots u i = none := by
  simp [Router.asked, Router.leftFor]

section Follows
variable {r : Router n} {s : Stack T n} {keys : List K} {log : List (Event n K V E)}
  {report : ReadReport V E} {slots : Fin n → Except E (Fin keys.length → Option V)}
  {called : List (Fin n)} {copies : List (Event n K V E)}
  (h : r.ClassifiedRead keys log (.ok report) slots called copies)
include h

omit [Tier T K V E] [ReadsByKey T] in
theorem called_of_failed {t : Fin n} {e : E} (he : slots t = .error e) : t ∈ called := by
  by_contra ht
  rw [h.silent t ht] at he
  cases he

omit [Tier T K V E] [ReadsByKey T] in
theorem failing_iff (t : Fin n) : report.Failing t ↔ ∃ e, slots t = .error e := by
  rw [ReadReport.Failing, h.failures report rfl]
  constructor
  · rintro ⟨failure, hmem, htier⟩
    obtain ⟨u, -, hu⟩ := List.mem_filterMap.1 hmem
    cases hout : slots u with
    | ok values => simp [hout] at hu
    | error e =>
      simp only [hout, Option.some.injEq] at hu
      obtain rfl : u = t := Fin.ext (by rw [← htier, ← hu]; rfl)
      exact ⟨e, hout⟩
  · rintro ⟨e, he⟩
    refine ⟨r.failure t e, List.mem_filterMap.2 ⟨t, called_of_failed h he, ?_⟩, rfl⟩
    rw [he]

variable (hfall : r.policy.read.onError = .fallThrough)
include hfall

omit [Tier T K V E] [ReadsByKey T] in
theorem called_of_asked {t : Fin n} {i : Fin keys.length} (hi : i ∈ Router.asked slots t) :
    t ∈ called := by
  refine (h.called_iff t).2 ⟨List.ne_nil_of_mem hi, fun hfast => ?_⟩
  rw [hfall] at hfast
  cases hfast

variable (hslots : s.Slots keys called slots)
include hslots

omit [ReadsByKey T] in
/-- What a tier gives for a position it was asked for is its own answer, unless its batch
failed. -/
theorem given_iff {t : Fin n} {i : Fin keys.length} (hi : i ∈ Router.asked slots t)
    (found : Option V) : Router.given slots t i = found ↔
      report.Failing t ∧ found = none ∨
        ¬ report.Failing t ∧ s.answer t (keys.get i) = .ok found := by
  rw [failing_iff h]
  cases hout : slots t with
  | ok values =>
    rw [hslots.value t (called_of_asked h hfall hi) values hout i hi]
    simp [Router.given, hout, Router.valueAt]
  | error e => simp [Router.given, hout, Router.valueAt, eq_comm]

omit [ReadsByKey T] in
theorem given_none_iff {t : Fin n} {i : Fin keys.length} (hi : i ∈ Router.asked slots t) :
    Router.given slots t i = none ↔ report.Failing t ∨ s.answer t (keys.get i) = .ok none := by
  rw [given_iff h hfall hslots hi]
  by_cases hf : report.Failing t
  · simp [hf]
  · simp [hf]

omit [ReadsByKey T] in
theorem asked_iff_pending (t : Fin n) (i : Fin keys.length) :
    i ∈ Router.asked slots t ↔ s.Pending report (keys.get i) t := by
  constructor
  · intro hi u hu
    have hiu : i ∈ Router.asked slots u := mem_asked.2 fun w hw => mem_asked.1 hi w (hw.trans hu)
    exact (given_none_iff h hfall hslots hiu).1 (mem_asked.1 hi u hu)
  · intro hp
    refine mem_asked.2 fun u hu => ?_
    -- By induction on the tier: a position no tier above `u` answered is asked of `u`.
    induction u using WellFoundedLT.induction with
    | ind u ih =>
      have hiu : i ∈ Router.asked slots u := mem_asked.2 fun w hw => ih w hw (hw.trans hu)
      exact (given_none_iff h hfall hslots hiu).2 (hp u hu)

omit [ReadsByKey T] in
theorem followsKeys_of_slots : s.FollowsKeys keys report := by
  have hfailing := failing_iff h
  have hcalled {t : Fin n} {i : Fin keys.length} (hi : i ∈ Router.asked slots t) : t ∈ called :=
    called_of_asked h hfall hi
  have hpending := asked_iff_pending h hfall hslots
  have hnone {t : Fin n} {i : Fin keys.length} (hi : i ∈ Router.asked slots t) :=
    given_none_iff h hfall hslots hi
  refine ⟨h.length report rfl, fun t => ?_, fun i tier v => ?_, fun i => ?_, fun i => ?_⟩
  · constructor
    · intro hf
      obtain ⟨e, he⟩ := (hfailing t).1 hf
      obtain ⟨i, hi, source, hsource⟩ := hslots.error t (called_of_failed h he) e he
      exact ⟨_, List.get_mem keys i, (hpending t i).1 hi, source, hsource⟩
    · rintro ⟨k, hk, hp, source, hsource⟩
      obtain ⟨i, rfl⟩ := List.get_of_mem hk
      have hi := (hpending t i).2 hp
      cases hout : slots t with
      | error e => exact (hfailing t).2 ⟨e, hout⟩
      | ok values =>
        rw [hslots.value t (hcalled hi) values hout i hi] at hsource
        cases hsource
  · rw [h.hit report rfl i tier v]
    refine exists_congr fun t => ?_
    constructor
    · rintro ⟨-, rfl, hv, habove⟩
      have hi := mem_asked.2 habove
      refine ⟨rfl, (hpending t i).1 hi, ?_⟩
      exact ((given_iff h hfall hslots hi (some v)).1 hv).resolve_left (by simp)
    · rintro ⟨rfl, hp, hv⟩
      have hi := (hpending t i).2 hp
      exact ⟨hcalled hi, rfl, (given_iff h hfall hslots hi (some v)).2 (.inr hv), mem_asked.1 hi⟩
  · rw [h.miss report rfl i]
    constructor
    · rintro ⟨hall, hmiss⟩ t
      have hi : i ∈ Router.asked slots t := mem_asked.2 fun u _ => by
        obtain ⟨values, hu, hnil⟩ := hmiss u
        simp [Router.given, hu, Router.valueAt, hnil]
      obtain ⟨values, ht, hnil⟩ := hmiss t
      refine ⟨fun hf => ?_, by rw [hslots.value t (hcalled hi) values ht i hi, hnil]⟩
      obtain ⟨e, he⟩ := (hfailing t).1 hf
      rw [ht] at he
      cases he
    · intro hmiss
      have hi (t : Fin n) : i ∈ Router.asked slots t :=
        (hpending t i).2 fun u _ => Or.inr (hmiss u).2
      refine ⟨?_, fun t => ?_⟩
      · refine h.order.eq_of_length_le ?_
        exact (List.subperm_of_subset (List.nodup_finRange n) fun t _ => hcalled (hi t)).length_le
      · cases hout : slots t with
        | error e => exact absurd ((hfailing t).2 ⟨e, hout⟩) (hmiss t).1
        | ok values =>
          have hv := hslots.value t (hcalled (hi t)) values hout i (hi t)
          rw [(hmiss t).2] at hv
          exact ⟨values, rfl, (Except.ok.inj hv).symm⟩
  · rw [h.inconclusive report rfl i]
    constructor
    · rintro ⟨hgone, t, -, e, he⟩
      exact ⟨⟨t, (hfailing t).2 ⟨e, he⟩⟩,
        fun u => (hnone (mem_asked.2 fun w _ => hgone w)).1 (hgone u)⟩
    · rintro ⟨⟨t, hf⟩, hgone⟩
      obtain ⟨e, he⟩ := (hfailing t).1 hf
      have hi (u : Fin n) : i ∈ Router.asked slots u := (hpending u i).2 fun w _ => hgone w
      exact ⟨fun u => (hnone (hi u)).2 (hgone u), t, called_of_failed h he, e, he⟩

end Follows

theorem readMany_followsKeys {r : Router n} (hfall : r.policy.read.onError = .fallThrough)
    (hnever : r.policy.read.promote = .never) (s : Stack T n) (keys : List K) :
    ∃ report, (run (r.readMany keys) s).1 = .ok report ∧ s.FollowsKeys keys report := by
  have htrace := Program.run_trace exec (r.readMany keys) s
  have hevents := events_keyed (Router.readMany_reads hnever keys) s
  obtain ⟨slots, called, copies, hread⟩ := Router.readMany_classifies r keys htrace
    fun t ks vs hmem => by
      have hlen := congrArg List.length (show _ = _ from hevents _ hmem)
      simpa using hlen.symm
  have hslots := slots_of_classified hread hevents
  change r.ClassifiedRead keys _ (run (r.readMany keys) s).1 slots called copies at hread
  cases hresult : (run (r.readMany keys) s).1 with
  | error e =>
    obtain ⟨hfast, -⟩ := (hread.failed e).1 hresult
    rw [hfall] at hfast
    cases hfast
  | ok report =>
    rw [hresult] at hread
    exact ⟨report, rfl, followsKeys_of_slots hread hfall hslots⟩

omit [ReadsByKey T] in
/-- Which other keys are in the batch matters only through the batches that fail. -/
theorem FollowsKeys.status_congr {s : Stack T n} {keys keys' : List K}
    {report report' : ReadReport V E} (h : s.FollowsKeys keys report)
    (h' : s.FollowsKeys keys' report')
    (hsame : ∀ t : Fin n, report.Failing t ↔ report'.Failing t) {i : Fin keys.length}
    {i' : Fin keys'.length} (hkey : keys.get i = keys'.get i') :
    report.statuses[i.val]? = report'.statuses[i'.val]? := by
  refine Option.ext fun status => ?_
  cases status with
  | hit tier v =>
    rw [h.hit i tier v, h'.hit i' tier v, hkey]
    simp only [Pending, hsame]
  | miss =>
    rw [h.miss i, h'.miss i', hkey]
    simp only [hsame]
  | inconclusive =>
    rw [h.inconclusive i, h'.inconclusive i', hkey]
    simp only [hsame]

omit [ReadsByKey T] in
theorem FollowsKeys.pending_of_serves {s : Stack T n} {keys : List K} {report : ReadReport V E}
    (hf : s.FollowsKeys keys report) {k : K} (hk : k ∈ keys) {h : Fin n} {v : V}
    (hserves : s.Serves h k v) : s.Pending report k h := by
  intro u hu
  -- By induction on the tier: a tier above the serving one misses the key or fails on it.
  induction u using WellFoundedLT.induction with
  | ind u ih =>
    cases hanswer : s.answer u k with
    | ok found =>
      cases found with
      | none => exact Or.inr rfl
      | some w => exact absurd hanswer (hserves.2 u hu w)
    | error source =>
      exact Or.inl ((hf.failing u).2 ⟨k, hk, fun w hw => ih w hw (hw.trans hu), source, hanswer⟩)

omit [ReadsByKey T] in
theorem FollowsKeys.hit_of_serves {s : Stack T n} {keys : List K} {report : ReadReport V E}
    (hf : s.FollowsKeys keys report) (i : Fin keys.length) {h : Fin n} {v : V}
    (hserves : s.Serves h (keys.get i) v) :
    (report.statuses[i.val]? = some (.hit h v) ↔ ¬ report.Failing h) ∧
      (report.Failing h →
        (∃ k ∈ keys, k ≠ keys.get i ∧ s.Pending report k h ∧
          ∃ source, s.answer h k = .error source) ∧
        (report.statuses[i.val]? = some .inconclusive ∨ ∃ t : Fin n, h < t ∧ ∃ w,
          report.statuses[i.val]? = some (.hit t w) ∧ s.answer t (keys.get i) = .ok (some w))) := by
  have hp := hf.pending_of_serves (List.get_mem keys i) hserves
  refine ⟨?_, fun hfail => ⟨?_, ?_⟩⟩
  · rw [hf.hit i h v]
    constructor
    · rintro ⟨t, ht, -, hok, -⟩
      rwa [← ht]
    · exact fun hok => ⟨h, rfl, hp, hok, hserves.1⟩
  · obtain ⟨k, hk, hpend, source, hsource⟩ := (hf.failing h).1 hfail
    refine ⟨k, hk, ?_, hpend, source, hsource⟩
    rintro rfl
    rw [hserves.1] at hsource
    cases hsource
  · obtain ⟨status, hstatus⟩ : ∃ status, report.statuses[i.val]? = some status := by
      have hlt : i.val < report.statuses.length := by
        rw [hf.length]
        exact i.isLt
      exact ⟨_, List.getElem?_eq_getElem hlt⟩
    cases status with
    | inconclusive => exact Or.inl hstatus
    | miss =>
      have hmiss := ((hf.miss i).1 hstatus h).2
      rw [hserves.1] at hmiss
      cases hmiss
    | hit tier w =>
      obtain ⟨t, rfl, -, hok, hw⟩ := (hf.hit i tier w).1 hstatus
      refine Or.inr ⟨t, ?_, w, hstatus, hw⟩
      obtain hlt | rfl | hgt := lt_trichotomy t h
      · exact absurd hw (hserves.2 t hlt w)
      · exact absurd hfail hok
      · exact hgt

theorem serves_of_get {r : Router n} (hnever : r.policy.read.promote = .never) {s : Stack T n}
    {k : K} {v : V}
    (hget : (run (r.get k) s).1 = some (.ok (some v))) : ∃ h, s.Serves h k v := by
  obtain ⟨⟨out, reached, copies, hread⟩, -⟩ :=
    Router.get_is_honest r k (Program.run_trace exec (r.get k) s)
  have hevents := events_keyed (Router.get_reads hnever k) s
  have hout (t : Fin n) (ht : t ∈ reached) : out t = s.answer t k := by
    refine hevents ⟨(t, .get k), out t⟩ ?_
    rw [hread.calls]
    exact List.mem_append_left _ (List.mem_map.2 ⟨t, ht, rfl⟩)
  obtain ⟨t, ht, hv⟩ := (hread.hit v).1 hget
  have hends : r.Ends (out t) := by
    rw [hv]
    trivial
  have hlast : reached = reached.dropLast ++ [t] := by
    have hne := List.ne_nil_of_mem ht
    have hsplit := List.dropLast_append_getLast hne
    rw [← hsplit] at ht
    obtain hbefore | hat := List.mem_append.1 ht
    · exact absurd hends (hread.goesOn t hbefore)
    · rw [List.mem_singleton.1 hat, hsplit]
  obtain ⟨below, hbelow⟩ := hread.order
  have hsplit : List.finRange n = reached.dropLast ++ t :: below := by
    rw [← hbelow, hlast]
    simp
  refine ⟨t, by rw [← hout t ht, hv], fun u hu w hw => ?_⟩
  have hmem := (Router.mem_above_iff hsplit).2 hu
  refine hread.goesOn u hmem ?_
  rw [hout u (List.dropLast_subset _ hmem), hw]
  trivial

/-- A hit of the single-key read is reported by the batched read exactly when the batch of the
tier that serves it succeeds, and that batch fails only if another of its keys does. -/
theorem batched_hits_follow_single {r : Router n} (hfall : r.policy.read.onError = .fallThrough)
    (hnever : r.policy.read.promote = .never) (s : Stack T n) (keys : List K) :
    ∃ report, (run (r.readMany keys) s).1 = .ok report ∧
      (∀ (i : Fin keys.length) (v : V), (run (r.get (keys.get i)) s).1 = some (.ok (some v)) →
        ∃ h, s.Serves h (keys.get i) v ∧
          (report.statuses[i.val]? = some (.hit h v) ↔ ¬ report.Failing h) ∧
          (report.Failing h →
            (∃ k ∈ keys, k ≠ keys.get i ∧ s.Pending report k h ∧
              ∃ source, s.answer h k = .error source) ∧
            (report.statuses[i.val]? = some .inconclusive ∨ ∃ t : Fin n, h < t ∧ ∃ w,
              report.statuses[i.val]? = some (.hit t w) ∧
                s.answer t (keys.get i) = .ok (some w)))) ∧
      ∀ (keys' : List K) (report' : ReadReport V E), (run (r.readMany keys') s).1 = .ok report' →
        (∀ t : Fin n, report.Failing t ↔ report'.Failing t) →
        ∀ (i : Fin keys.length) (i' : Fin keys'.length), keys.get i = keys'.get i' →
          report.statuses[i.val]? = report'.statuses[i'.val]? := by
  obtain ⟨report, hreport, hf⟩ := readMany_followsKeys hfall hnever s keys
  refine ⟨report, hreport, fun i v hget => ?_, fun keys' report' hreport' hsame i i' hkey => ?_⟩
  · obtain ⟨h, hserves⟩ := serves_of_get hnever hget
    exact ⟨h, hserves, hf.hit_of_serves i hserves⟩
  · obtain ⟨other, hother, hf'⟩ := readMany_followsKeys hfall hnever s keys'
    rw [hreport'] at hother
    cases hother
    exact hf.status_congr hf' hsame hkey

end Stack

def rejectedOne : Stack (VerifiedTier (MemoryTier Nat Nat) Nat Nat) 1 :=
  Stack.build fun _ =>
    { inner := (Tier.putMany MemoryTier.unbounded [(1, 99), (2, 20)]).2, check := belowFifty }

theorem batched_hits_follow_single_rejected : ∃ report h,
    (Stack.run ((Router.uniform 1 "verified" Policy.default).readMany [1, 2]) rejectedOne).1 =
        .ok report ∧
      rejectedOne.Serves h 2 20 ∧
      (report.statuses[1]? = some (.hit h 20) ↔ ¬ report.Failing h) := by
  have hget : (Stack.run ((Router.uniform 1 "verified" Policy.default).get 2) rejectedOne).1 =
      some (.ok (some 20)) := by
    decide +kernel
  obtain ⟨report, hreport, hsingle, -⟩ := Stack.batched_hits_follow_single
    (r := Router.uniform 1 "verified" Policy.default) rfl rfl rejectedOne [1, 2]
  obtain ⟨h, hserves, hhit, -⟩ := hsingle 1 20 hget
  exact ⟨report, h, hreport, hserves, hhit⟩

/-- The good key's single-key read is a hit; in a batch with the rejected one it is not. -/
theorem good_key_spoilt :
    let r := Router.uniform 1 "verified" Policy.default
    (Stack.run (r.get 2) rejectedOne).1 = some (.ok (some 20)) ∧
      (Stack.run (r.readMany [2]) rejectedOne).1 = .ok ⟨[.hit 0 20], []⟩ ∧
      (Stack.run (r.readMany [1, 2]) rejectedOne).1 =
        .ok ⟨[.inconclusive, .inconclusive], [⟨0, "verified", .corrupt "too large"⟩]⟩ := by
  decide +kernel

end Tierstore
