import Tierstore.Memory
import Tierstore.Soundness

/-! The verifying tier at the trust boundary, in a stack of otherwise trusted tiers. -/
namespace Tierstore
open Overlay Effects

/-! ## Tiers of two kinds in one stack -/
section Mixed
variable {A B K V E F : Type} [Tier A K V E] [Tier B K V F]

instance : Tier (A ⊕ B) K V (E ⊕ F) where
  get
    | .inl a, k => ((Tier.get a k).1.mapError .inl, .inl (Tier.get a k).2)
    | .inr b, k => ((Tier.get b k).1.mapError .inr, .inr (Tier.get b k).2)
  exists_
    | .inl a, k => ((Tier.exists_ a k).1.mapError .inl, .inl (Tier.exists_ a k).2)
    | .inr b, k => ((Tier.exists_ b k).1.mapError .inr, .inr (Tier.exists_ b k).2)
  getMany
    | .inl a, ks => ((Tier.getMany a ks).1.mapError .inl, .inl (Tier.getMany a ks).2)
    | .inr b, ks => ((Tier.getMany b ks).1.mapError .inr, .inr (Tier.getMany b ks).2)
  put
    | .inl a, k, v => ((Tier.put a k v).1.mapError .inl, .inl (Tier.put a k v).2)
    | .inr b, k, v => ((Tier.put b k v).1.mapError .inr, .inr (Tier.put b k v).2)
  delete
    | .inl a, k => ((Tier.delete a k).1.mapError .inl, .inl (Tier.delete a k).2)
    | .inr b, k => ((Tier.delete b k).1.mapError .inr, .inr (Tier.delete b k).2)
  putMany
    | .inl a, es => ((Tier.putMany a es).1.mapError .inl, .inl (Tier.putMany a es).2)
    | .inr b, es => ((Tier.putMany b es).1.mapError .inr, .inr (Tier.putMany b es).2)
  deleteMany
    | .inl a, ks => ((Tier.deleteMany a ks).1.mapError .inl, .inl (Tier.deleteMany a ks).2)
    | .inr b, ks => ((Tier.deleteMany b ks).1.mapError .inr, .inr (Tier.deleteMany b ks).2)

theorem call_inl (a : A) (c : TierCall K V) :
    Tier.call (Sum.inl a : A ⊕ B) c =
      ((Tier.call a c).1.mapError Sum.inl, Sum.inl (Tier.call a c).2) := by
  cases c <;> rfl

theorem call_inr (b : B) (c : TierCall K V) :
    Tier.call (Sum.inr b : A ⊕ B) c =
      ((Tier.call b c).1.mapError Sum.inr, Sum.inr (Tier.call b c).2) := by
  cases c <;> rfl

omit [Tier A K V E] [Tier B K V F] in
/-- Which error a failed call carries makes no difference to what it vouches for. -/
theorem okAnswer_mapError {n : Nat} {Q : Fin n → Prop} {P : K → V → Prop} {q : Query n K V}
    {f : E → F} {a : Except E q.2.Output} (h : OkAnswer Q P q a) :
    OkAnswer Q P q (a.mapError f) := by
  obtain ⟨t, c⟩ := q
  cases a with
  | error e => cases c <;> trivial
  | ok a =>
    cases c with
    | get k => cases a <;> exact h
    | exists_ k => trivial
    | getMany ks => exact h
    | put k v => exact h
    | delete k => trivial
    | putMany es => exact h
    | deleteMany ks => trivial

end Mixed

/-! ## The verifying tier -/

inductive VerifyError (E : Type) where
  | backend (error : E)
  | corrupt (error : BoxError)
  deriving DecidableEq, Repr

structure VerifiedTier (U K V : Type) where
  inner : U
  check : K → V → Except BoxError Unit

namespace VerifiedTier
variable {U K V E : Type}

def release (check : K → V → Except BoxError Unit) (key : K) :
    Except E (Option V) → Except (VerifyError E) (Option V)
  | .error e => .error (.backend e)
  | .ok none => .ok none
  | .ok (some value) =>
    match check key value with
    | .ok _ => .ok (some value)
    | .error e => .error (.corrupt e)

def firstCorrupt (check : K → V → Except BoxError Unit) : List (K × Option V) → Option BoxError
  | [] => none
  | (_, none) :: rest => firstCorrupt check rest
  | (key, some value) :: rest =>
    match check key value with
    | .ok _ => firstCorrupt check rest
    | .error e => some e

def releaseMany (check : K → V → Except BoxError Unit) (keys : List K) :
    Except E (List (Option V)) → Except (VerifyError E) (List (Option V))
  | .error e => .error (.backend e)
  | .ok values =>
    match firstCorrupt check (keys.zip values) with
    | none => .ok values
    | some e => .error (.corrupt e)

/-- Writes and existence checks pass through unverified. -/
instance [Tier U K V E] : Tier (VerifiedTier U K V) K V (VerifyError E) where
  get t key :=
    let out := Tier.get t.inner key
    (release t.check key out.1, { t with inner := out.2 })
  exists_ t key :=
    let out := Tier.exists_ t.inner key
    (out.1.mapError .backend, { t with inner := out.2 })
  getMany t keys :=
    let out := Tier.getMany t.inner keys
    (releaseMany t.check keys out.1, { t with inner := out.2 })
  put t key value :=
    let out := Tier.put t.inner key value
    (out.1.mapError .backend, { t with inner := out.2 })
  delete t key :=
    let out := Tier.delete t.inner key
    (out.1.mapError .backend, { t with inner := out.2 })
  putMany t entries :=
    let out := Tier.putMany t.inner entries
    (out.1.mapError .backend, { t with inner := out.2 })
  deleteMany t keys :=
    let out := Tier.deleteMany t.inner keys
    (out.1.mapError .backend, { t with inner := out.2 })

def Passes (check : K → V → Except BoxError Unit) (key : K) (value : V) : Prop :=
  check key value = .ok ()

theorem release_passes {check : K → V → Except BoxError Unit} {key : K}
    {answer : Except E (Option V)} {value : V}
    (h : release check key answer = .ok (some value)) : Passes check key value := by
  cases answer with
  | error e => cases h
  | ok found =>
    cases found with
    | none => cases h
    | some v =>
      simp only [release] at h
      split at h
      · next hok =>
        cases h
        exact hok
      · cases h

theorem firstCorrupt_none {check : K → V → Except BoxError Unit} {pairs : List (K × Option V)}
    (h : firstCorrupt check pairs = none) {key : K} {value : V}
    (hmem : (key, some value) ∈ pairs) : Passes check key value := by
  induction pairs with
  | nil => cases hmem
  | cons p rest ih =>
    obtain ⟨k, found⟩ := p
    cases found with
    | none =>
      have hrest : (key, some value) ∈ rest := by simpa using hmem
      exact ih h hrest
    | some v =>
      simp only [firstCorrupt] at h
      split at h
      · next hok =>
        obtain heq | hrest := List.mem_cons.1 hmem
        · simp only [Prod.mk.injEq, Option.some.injEq] at heq
          rw [heq.1, heq.2]
          exact hok
        · exact ih h hrest
      · cases h

theorem releaseMany_passes {check : K → V → Except BoxError Unit} {keys : List K}
    {answer : Except E (List (Option V))} {values : List (Option V)}
    (h : releaseMany check keys answer = .ok values) {key : K} {value : V}
    (hmem : (key, some value) ∈ keys.zip values) : Passes check key value := by
  cases answer with
  | error e => cases h
  | ok found =>
    simp only [releaseMany] at h
    split at h
    · next hnone =>
      cases h
      exact firstCorrupt_none hnone hmem
    · cases h

section Boundary
variable {W F : Type} {n : Nat} [DecidableEq K] [Tier U K V E] [Tier W K V F] [LawfulTier W]
  {check : K → V → Except BoxError Unit} {u : Fin n}

/-- Tier `u` is the verifying one, and every other tier holds only entries that pass. -/
structure Guarded (check : K → V → Except BoxError Unit) (u : Fin n)
    (s : Stack (VerifiedTier U K V ⊕ W) n) : Prop where
  boundary : ∃ t, (s u).tier = .inl t ∧ t.check = check
  trusted : ∀ i, i ≠ u → ∃ w, (s i).tier = .inr w ∧ Holds (Passes check) (contents w)

def DisplacesPassing (check : K → V → Except BoxError Unit) :
    (q : Query n K V) → Except E q.2.Output → Prop
  | (_, .put _ _), .ok displaced => Vouched (Passes check) displaced
  | (_, .putMany _), .ok displaced => Vouched (Passes check) displaced
  | _, _ => True

instance decideDisplacesPassing (check : K → V → Except BoxError Unit) :
    (q : Query n K V) → (a : Except E q.2.Output) → Decidable (DisplacesPassing check q a)
  | (_, .put _ _), .ok displaced =>
    inferInstanceAs (Decidable (∀ e ∈ displaced, check e.1 e.2 = .ok ()))
  | (_, .putMany _), .ok displaced =>
    inferInstanceAs (Decidable (∀ e ∈ displaced, check e.1 e.2 = .ok ()))
  | (_, .put _ _), .error _ => isTrue trivial
  | (_, .putMany _), .error _ => isTrue trivial
  | (_, .get _), _ => isTrue trivial
  | (_, .exists_ _), _ => isTrue trivial
  | (_, .getMany _), _ => isTrue trivial
  | (_, .delete _), _ => isTrue trivial
  | (_, .deleteMany _), _ => isTrue trivial

/-- Where tier `u` can spill into another tier, none of its calls displaces an entry that
fails the check. -/
def Discreet (r : Router n) (check : K → V → Except BoxError Unit) (u : Fin n)
    (s : Stack (VerifiedTier U K V ⊕ W) n) (op : RouterOp K V) : Prop :=
  r.Spills u → Stack.Calling
    (fun q s => q.1 = u → DisplacesPassing check q (Stack.exec q s).1) r s op

instance (r : Router n) (check : K → V → Except BoxError Unit) (u : Fin n)
    (s : Stack (VerifiedTier U K V ⊕ W) n) (op : RouterOp K V) :
    Decidable (Discreet r check u s op) :=
  inferInstanceAs (Decidable (_ → _))

omit [DecidableEq K] in
theorem boundary_answers {Q : Fin n → Prop} (t : VerifiedTier U K V) (c : TierCall K V)
    (hdis : Q u → DisplacesPassing t.check (u, c) (Tier.call t c).1) :
    OkAnswer Q (Passes t.check) (u, c) (Tier.call t c).1 := by
  cases c with
  | get k =>
    change OkAnswer Q _ (u, .get k) (release t.check k (Tier.get t.inner k).1)
    cases hres : release t.check k (Tier.get t.inner k).1 with
    | error e => trivial
    | ok a =>
      cases a with
      | none => trivial
      | some v => exact release_passes hres
  | getMany ks =>
    change OkAnswer Q _ (u, .getMany ks) (releaseMany t.check ks (Tier.getMany t.inner ks).1)
    cases hres : releaseMany t.check ks (Tier.getMany t.inner ks).1 with
    | error e => trivial
    | ok vs => exact fun k v hmem => releaseMany_passes hres hmem
  | put k v =>
    generalize (Tier.call t (.put k v)).1 = a at *
    cases a with
    | error e => trivial
    | ok d => exact hdis
  | putMany es =>
    generalize (Tier.call t (.putMany es)).1 = a at *
    cases a with
    | error e => trivial
    | ok d => exact hdis
  | exists_ k => cases (Tier.call t (.exists_ k)).1 <;> trivial
  | delete k => cases (Tier.call t (.delete k)).1 <;> trivial
  | deleteMany ks => cases (Tier.call t (.deleteMany ks)).1 <;> trivial

/-- One call keeps the boundary, if what the verifying tier displaces passes the check or
cannot reach another tier. -/
theorem exec_guarded (r : Router n) {q : Query n K V} {s : Stack (VerifiedTier U K V ⊕ W) n}
    (hs : Guarded check u s)
    (hq : OkCall (fun _ => True) (fun _ => True) (Passes check) q)
    (hside : r.Spills u → q.1 = u → DisplacesPassing check q (Stack.exec q s).1) :
    OkAnswer r.Spills (Passes check) q (Stack.exec q s).1 ∧
      Guarded check u (Stack.exec q s).2 := by
  obtain ⟨t, c⟩ := q
  have htier := Stack.exec_tier (t, c) s
  have hother := fun i (hi : i ≠ t) => Stack.exec_other (t, c) s hi
  have hans := Stack.exec_answer (t, c) s
  by_cases htu : t = u
  · subst htu
    obtain ⟨v, hv, hcheck⟩ := hs.boundary
    rw [hv, call_inl] at htier hans
    rw [hans] at hside ⊢
    refine ⟨okAnswer_mapError ?_, ⟨(Tier.call v c).2, htier, ?_⟩, fun i hi => ?_⟩
    · subst hcheck
      refine boundary_answers v c fun hspill => ?_
      have h := hside hspill rfl
      cases hres : (Tier.call v c).1 with
      | error e => cases c <;> trivial
      | ok a =>
        rw [hres] at h
        cases c <;> exact h
    · rw [← hcheck]
      cases c <;> rfl
    · rw [hother i hi]
      exact hs.trusted i hi
  · obtain ⟨w, hw, hholds⟩ := hs.trusted t htu
    rw [hw, call_inr] at htier hans
    rw [hans]
    have hcall := call_clean (Q := r.Spills) hq w hholds
    refine ⟨okAnswer_mapError hcall.1, ?_, fun i hi => ?_⟩
    · rw [hother u fun h => htu h.symm]
      exact hs.boundary
    · by_cases hit : i = t
      · subst hit
        exact ⟨(Tier.call w c).2, htier, hcall.2⟩
      · rw [hother i hit]
        exact hs.trusted i hi

end Boundary
end VerifiedTier

/-- In every history of entries that pass the check, as long as the untrusted tier displaces
no entry that fails it into another tier, no other tier comes to hold such an entry and no
read returns one. -/
theorem trust_boundary_holds {U W K V E F : Type} [DecidableEq K] [Tier U K V E]
    [Tier W K V F] [LawfulTier W] {n : Nat} (r : Router n)
    (check : K → V → Except BoxError Unit) (u : Fin n) (s : Stack (VerifiedTier U K V ⊕ W) n)
    (hs : VerifiedTier.Guarded check u s) (ops : List (RouterOp K V))
    (hops : ∀ op ∈ ops, Vouched (VerifiedTier.Passes check) op.written)
    (hdiscreet : Runs.Along (Stack.perform r) (VerifiedTier.Discreet r check u) s ops) :
    let later := Stack.performAll r s ops
    VerifiedTier.Guarded check u later ∧
    (∀ k, VerifiedTier.Discreet r check u later (.get k) → ∀ v,
      (Stack.run (r.get k) later).1 = some (.ok (some v)) → check k v = .ok ()) ∧
    ∀ ks, VerifiedTier.Discreet r check u later (.readMany ks) → ∀ report,
      (Stack.run (r.readMany ks) later).1 = .ok report →
        ∀ k v, (k, some v) ∈ ks.zip report.intoValues → check k v = .ok () := by
  intro later
  have hQ : ∀ t, r.Spills t → r.Spills t := fun _ h => h
  have hD : ∀ _ : Fin n, True := fun _ => trivial
  have hstep : ∀ (q : Query n K V) (s : Stack (VerifiedTier U K V ⊕ W) n),
      VerifiedTier.Guarded check u s →
      OkCall (fun _ => True) (fun _ => True) (VerifiedTier.Passes check) q →
      (r.Spills u → q.1 = u → VerifiedTier.DisplacesPassing check q (Stack.exec q s).1) →
      OkAnswer r.Spills (VerifiedTier.Passes check) q (Stack.exec q s).1 ∧
        VerifiedTier.Guarded check u (Stack.exec q s).2 :=
    fun q s hs hq hside => VerifiedTier.exec_guarded r hs hq hside
  have hcalling : ∀ (s : Stack (VerifiedTier U K V ⊕ W) n) (op : RouterOp K V),
      VerifiedTier.Discreet r check u s op → Stack.Calling (fun q s => r.Spills u → q.1 = u →
        VerifiedTier.DisplacesPassing check q (Stack.exec q s).1) r s op := by
    intro s op h
    by_cases hspill : r.Spills u
    · simpa [hspill] using h hspill
    · exact Stack.calling_of_forall (fun q s hs => absurd hs hspill) r s op
  have hlater : VerifiedTier.Guarded check u later := by
    have hrun : Runs.Along (Stack.perform r) (fun s op =>
        Vouched (VerifiedTier.Passes check) op.written ∧
          VerifiedTier.Discreet r check u s op) s ops :=
      hdiscreet.imp fun op hop s h => ⟨hops op hop, h⟩
    refine hrun.keeps (fun s op hs hop => ?_) hs
    exact Stack.perform_keeps_of r hQ hstep op hop.1 (hcalling s op hop.2) hs
  refine ⟨hlater, fun k hk v hv => ?_, fun ks hks report hrep k v hmem => ?_⟩
  · have hget := Stack.run_clean_of hstep (r.get_clean hD hQ k) (hcalling _ _ hk) hlater
    exact hget.1 v hv
  · have hread := Stack.run_clean_of hstep (r.readMany_clean hD hQ ks) (hcalling _ _ hks) hlater
    exact (hread.1 report hrep).2 k v hmem

def belowFifty (_ value : Nat) : Except BoxError Unit :=
  if value < 50 then .ok () else .error "too large"

def verifiedOver (inner : MemoryTier Nat Nat) :
    Stack (VerifiedTier (MemoryTier Nat Nat) Nat Nat ⊕ MemoryTier Nat Nat) 2 :=
  Stack.build fun i => if i.val = 0 then .inl { inner, check := belowFifty } else .inr .unbounded

theorem verifiedOver_guarded (inner : MemoryTier Nat Nat) :
    VerifiedTier.Guarded belowFifty 0 (verifiedOver inner) := by
  refine ⟨⟨_, rfl, rfl⟩, fun i hi => ⟨.unbounded, ?_, fun k v hv => ?_⟩⟩
  · obtain rfl : i = 1 := by omega
    rfl
  · cases hv

/-- The verified tier has one slot and already holds a value that fails the check. -/
def taintedOver : Stack (VerifiedTier (MemoryTier Nat Nat) Nat Nat ⊕ MemoryTier Nat Nat) 2 :=
  verifiedOver (Tier.put MemoryTier.oneSlot 1 99).2

def demoting : Router 2 := .uniform 2 "memory" { Policy.default with demoteDisplaced := true }

/-- Without demotion, and with a demotion of an entry that passes the check: the corrupt one stays
in the verified tier. -/
theorem trust_boundary_holds_tainted :
    (Stack.run ((Router.uniform 2 "memory" Policy.default).get 1)
      (Stack.performAll (Router.uniform 2 "memory" Policy.default) taintedOver
        [.put 2 20, .readMany [1, 2]])).1 ≠ some (.ok (some 99)) ∧
    let later := Stack.performAll demoting
      (verifiedOver (Tier.putMany (MemoryTier.bounded 2) [(1, 10), (9, 99)]).2)
      [.put 2 20, .readMany [1, 9]]
    (Stack.run (demoting.get 1) later).1 = some (.ok (some 10)) ∧
      (Stack.run (demoting.get 9) later).1 ≠ some (.ok (some 99)) := by
  have hops (ks : List Nat) : ∀ op ∈ [RouterOp.put 2 20, .readMany ks],
      Vouched (VerifiedTier.Passes belowFifty) op.written := by
    intro op hop e he
    simp only [List.mem_cons, List.not_mem_nil, or_false] at hop
    obtain rfl | rfl := hop
    · rw [List.mem_singleton.1 he]
      rfl
    · cases he
  refine ⟨fun h => ?_, by decide +kernel, fun h => ?_⟩
  · have hlater := (trust_boundary_holds (Router.uniform 2 "memory" Policy.default) belowFifty 0
      taintedOver (verifiedOver_guarded _) _ (hops [1, 2]) (by decide +kernel)).2.1
    exact absurd (hlater 1 (by decide +kernel) 99 h) (by decide)
  · have hlater := (trust_boundary_holds demoting belowFifty 0
      (verifiedOver (Tier.putMany (MemoryTier.bounded 2) [(1, 10), (9, 99)]).2)
      (verifiedOver_guarded _) _ (hops [1, 9]) (by decide +kernel)).2.1
    exact absurd (hlater 9 (by decide +kernel) 99 h) (by decide)

/-- With demotion on, a put through the verified tier rolls its corrupt entry over into the
trusted tier below, and the next read returns it. -/
theorem corrupt_rolls_over :
    let r := Router.uniform 2 "memory" { Policy.default with demoteDisplaced := true }
    belowFifty 2 20 = .ok () ∧
      (Stack.run (r.get 1) (Stack.perform r taintedOver (.put 2 20))).1 = some (.ok (some 99)) ∧
      belowFifty 1 99 ≠ .ok () := by
  decide +kernel

end Tierstore
