import Tierstore.Client
import Tierstore.Conserve
import Tierstore.Provenance

/-! Vouched entries stay vouched: if the tiers meet the contract and hold only entries with
some property, and the client writes only such, then so it stays in every history. -/
namespace Tierstore
open Overlay Effects

/-! ## Tiers that meet the contract -/

def Holds {K V : Type} (P : K → V → Prop) (m : K → Option V) : Prop :=
  ∀ k v, m k = some v → P k v

section Lawful
variable {T K V E : Type} {n : Nat} [DecidableEq K] [Tier T K V E] [LawfulTier T]
  {D Q : Fin n → Prop} {X : K → Prop} {P : K → V → Prop}

theorem holds_write {m : K → Option V} {k : K} {v : V} (hm : Holds P m) (hkv : P k v) :
    Holds P (write m [(k, v)]) := by
  intro x w hx
  rw [write_singleton] at hx
  by_cases hxk : x = k
  · subst hxk
    simp only [if_true, Option.some.injEq] at hx
    rwa [← hx]
  · simp only [hxk, if_false] at hx
    exact hm x w hx

theorem put_clean {t : T} {k : K} {v : V} (h : Holds P (write (contents t) [(k, v)])) {d}
    (hd : (Tier.put t k v).1 = .ok d) :
    Vouched P d ∧ Holds P (contents (Tier.put t k v).2) := by
  refine ⟨fun e he => h e.1 e.2 (LawfulTier.put_displaced t k v d hd e he), fun x w hx => ?_⟩
  refine h x w ?_
  rw [← LawfulTier.put_ok t k v d hd]
  exact atop_of_some hx _

/-- A tier that holds only vouched entries answers, displaces and keeps only such. -/
theorem call_clean {i : Fin n} {c : TierCall K V} (hc : OkCall D X P (i, c)) (t : T)
    (ht : Holds P (contents t)) :
    OkAnswer Q P (i, c) (Tier.call t c).1 ∧ Holds P (contents (Tier.call t c).2) := by
  cases c with
  | get k =>
    refine ⟨?_, ?_⟩
    · have hok := LawfulTier.get_ok t k
      change OkAnswer Q P (i, .get k) (Tier.get t k).1
      cases hres : (Tier.get t k).1 with
      | error e => trivial
      | ok a =>
        cases a with
        | none => trivial
        | some v => exact ht k v (hok (some v) hres).symm
    · change Holds P (contents (Tier.get t k).2)
      rw [LawfulTier.get_contents]
      exact ht
  | exists_ k =>
    refine ⟨?_, ?_⟩
    · change OkAnswer Q P (i, .exists_ k) (Tier.exists_ t k).1
      cases (Tier.exists_ t k).1 <;> trivial
    · change Holds P (contents (Tier.exists_ t k).2)
      rw [LawfulTier.exists_contents]
      exact ht
  | getMany ks =>
    refine ⟨?_, ?_⟩
    · have hok := LawfulTier.getMany_ok t ks
      change OkAnswer Q P (i, .getMany ks) (Tier.getMany t ks).1
      cases hres : (Tier.getMany t ks).1 with
      | error e => trivial
      | ok vs =>
        intro k v hkv
        have hself : ks.zip (ks.map (contents t)) = ks.map fun k => (k, contents t k) := by
          simpa using @List.zip_map' _ _ _ id (contents t) ks
        rw [hok vs hres, hself] at hkv
        obtain ⟨x, -, hx⟩ := List.mem_map.1 hkv
        simp only [Prod.mk.injEq] at hx
        obtain ⟨rfl, hv⟩ := hx
        exact ht x v hv
    · change Holds P (contents (Tier.getMany t ks).2)
      rw [LawfulTier.getMany_contents]
      exact ht
  | put k v =>
    have hw := holds_write ht hc.2
    have herr := LawfulTier.put_error t k v
    change OkAnswer Q P (i, .put k v) (Tier.put t k v).1 ∧ Holds P (contents (Tier.put t k v).2)
    cases hres : (Tier.put t k v).1 with
    | error e => exact ⟨trivial, by rw [herr e hres]; exact ht⟩
    | ok d =>
      obtain ⟨hd, hheld⟩ := put_clean hw hres
      exact ⟨fun _ => hd, hheld⟩
  | delete k =>
    have hok := LawfulTier.delete_ok t k
    have herr := LawfulTier.delete_error t k
    change OkAnswer Q P (i, .delete k) (Tier.delete t k).1 ∧
      Holds P (contents (Tier.delete t k).2)
    cases hres : (Tier.delete t k).1 with
    | error e => exact ⟨trivial, by rw [herr e hres]; exact ht⟩
    | ok b =>
      refine ⟨trivial, fun x w hx => ?_⟩
      rw [hok b hres] at hx
      by_cases hxk : x = k
      · simp [erase, hxk] at hx
      · simp only [erase, hxk, if_false] at hx
        exact ht x w hx
  | putMany es =>
    have hdis := LawfulTier.putMany_displaced t es
    have hcon := LawfulTier.putMany_contents t es
    change OkAnswer Q P (i, .putMany es) (Tier.putMany t es).1 ∧
      Holds P (contents (Tier.putMany t es).2)
    refine ⟨?_, fun x w hx => ?_⟩
    · cases hres : (Tier.putMany t es).1 with
      | error e => trivial
      | ok d =>
        intro _ e he
        obtain hmem | hold := hdis d hres e he
        · exact hc.2 e hmem
        · exact ht e.1 e.2 hold
    · obtain hmem | hold := hcon x w hx
      · exact hc.2 (x, w) hmem
      · exact ht x w hold
  | deleteMany ks =>
    have hok := LawfulTier.deleteMany_ok t ks
    have herr := LawfulTier.deleteMany_error t ks
    change OkAnswer Q P (i, .deleteMany ks) (Tier.deleteMany t ks).1 ∧
      Holds P (contents (Tier.deleteMany t ks).2)
    cases hres : (Tier.deleteMany t ks).1 with
    | error e =>
      refine ⟨trivial, fun x w hx => ?_⟩
      obtain hsame | ⟨-, hnone⟩ := herr e x hres
      · exact ht x w (hsame.symm.trans hx)
      · rw [hnone] at hx
        cases hx
    | ok bs =>
      refine ⟨trivial, fun x w hx => ?_⟩
      rw [hok bs hres] at hx
      by_cases hxk : x ∈ ks
      · simp [eraseAll, hxk] at hx
      · simp only [eraseAll, hxk, if_false] at hx
        exact ht x w hx

namespace Stack

theorem exec_clean {q : Query n K V} (hq : OkCall D X P q) {s : Stack T n}
    (hs : ∀ i, D i → Holds P (s.held i)) :
    OkAnswer Q P q (exec q s).1 ∧ ∀ i, D i → Holds P ((exec q s).2.held i) := by
  obtain ⟨t, c⟩ := q
  have hcall := call_clean (Q := Q) hq (s t).tier (hs t hq.tier)
  refine ⟨hcall.1, fun i hi => ?_⟩
  by_cases hit : i = t
  · subst hit
    have hheld := held_exec (i, c) s
    rw [hheld]
    exact hcall.2
  · rw [held_exec_other (t, c) s hit]
    exact hs i hi

end Stack
end Lawful

namespace Stack

/-! ## Whole operations -/
section Operations
variable {T K V E : Type} {n : Nat} [Tier T K V E]
  {D Q : Fin n → Prop} {X : K → Prop} {P : K → V → Prop}

/-- An invariant that clean calls keep, and that vouches for the answers, is kept by a
clean operation. -/
theorem run_clean {inv : Stack T n → Prop}
    (hstep : ∀ (q : Query n K V) (s : Stack T n), inv s → OkCall D X P q →
      OkAnswer Q P q (exec q s).1 ∧ inv (exec q s).2)
    {α : Type} {post : α → Prop} {p : RouterM n K V E α} (hp : Clean D X Q P post p)
    {s : Stack T n} (hs : inv s) : post (run p s).1 ∧ inv (run p s).2 :=
  Program.Safe.run hstep hp hs

/-- The same where the tiers are only known to vouch for calls that meet `side`. -/
theorem run_clean_of {inv : Stack T n → Prop} {side : Query n K V → Stack T n → Prop}
    (hstep : ∀ (q : Query n K V) (s : Stack T n), inv s → OkCall D X P q → side q s →
      OkAnswer Q P q (exec q s).1 ∧ inv (exec q s).2)
    {α : Type} {post : α → Prop} {p : RouterM n K V E α} (hp : Clean D X Q P post p)
    {s : Stack T n} (hside : p.Always exec side s) (hs : inv s) :
    post (run p s).1 ∧ inv (run p s).2 :=
  Program.Safe.run_of hstep hp hside hs

theorem perform_keeps_of (r : Router n) (hQ : ∀ t, r.Spills t → Q t) {inv : Stack T n → Prop}
    {side : Query n K V → Stack T n → Prop}
    (hstep : ∀ (q : Query n K V) (s : Stack T n), inv s →
      OkCall (fun _ => True) (fun _ => True) P q → side q s →
      OkAnswer Q P q (exec q s).1 ∧ inv (exec q s).2)
    (op : RouterOp K V) (hop : Vouched P op.written) {s : Stack T n}
    (hside : Calling side r s op) (hs : inv s) : inv (perform r s op) := by
  have hD : ∀ _ : Fin n, True := fun _ => trivial
  cases op with
  | get k => exact (run_clean_of hstep (r.get_clean hD hQ k) hside hs).2
  | exists_ k => exact (run_clean_of hstep (r.exists_clean hD k) hside hs).2
  | readMany ks => exact (run_clean_of hstep (r.readMany_clean hD hQ ks) hside hs).2
  | put k v =>
    have hkv : P k v := hop (k, v) (by simp [RouterOp.written])
    exact (run_clean_of hstep (r.put_clean hD hQ hkv trivial) hside hs).2
  | putMany es =>
    exact (run_clean_of hstep (r.putMany_clean hD hQ hop fun _ _ => trivial) hside hs).2
  | delete k => exact (run_clean_of hstep (r.delete_clean hD trivial) hside hs).2
  | removeMany ks =>
    exact (run_clean_of hstep (r.removeMany_clean hD fun _ _ => trivial) hside hs).2

theorem perform_keeps (r : Router n) (hQ : ∀ t, r.Spills t → Q t) {inv : Stack T n → Prop}
    (hstep : ∀ (q : Query n K V) (s : Stack T n), inv s →
      OkCall (fun _ => True) (fun _ => True) P q →
      OkAnswer Q P q (exec q s).1 ∧ inv (exec q s).2)
    (op : RouterOp K V) (hop : Vouched P op.written) {s : Stack T n} (hs : inv s) :
    inv (perform r s op) :=
  perform_keeps_of r hQ (fun q s hs hq _ => hstep q s hs hq) op hop
    (calling_of_forall (fun _ _ => trivial) r s op) hs

theorem performAll_keeps (r : Router n) (hQ : ∀ t, r.Spills t → Q t) {inv : Stack T n → Prop}
    (hstep : ∀ (q : Query n K V) (s : Stack T n), inv s →
      OkCall (fun _ => True) (fun _ => True) P q →
      OkAnswer Q P q (exec q s).1 ∧ inv (exec q s).2)
    (ops : List (RouterOp K V)) (hops : ∀ op ∈ ops, Vouched P op.written) {s : Stack T n}
    (hs : inv s) : inv (performAll r s ops) := by
  have hrun : Runs.Along (perform r) (fun _ op => Vouched P op.written) s ops :=
    Runs.along_of_forall (fun op ho _ => hops op ho) s
  exact hrun.keeps (fun s op hs hop => perform_keeps r hQ hstep op hop hs) hs

end Operations

/-! ## A write-through spreads what it writes -/
section Spread
variable {T K V E : Type} {n : Nat} [DecidableEq K] [Tier T K V E] [LawfulTier T]
  {X : K → Prop} {P : K → V → Prop}

/-- If every tier, taking the write in its state before the call, is left with vouched
entries and displaces such, then the whole stack is. `J` is any further fact that clean
calls keep. -/
theorem writeThrough_holds (r : Router n) (hw : ∀ i, r.writable i = true)
    (hd : r.policy.demoteDisplaced = true) (hE : E → r.policy.onWriteError = .bestEffort)
    {w : Fin n → RouterM n K V E (Except E (Displaced K V))} (s₀ : Stack T n)
    {J : Stack T n → Prop}
    (hJ : ∀ (q : Query n K V) (s : Stack T n), J s → OkCall (fun _ => True) X P q →
      J (exec q s).2)
    (hother : ∀ t (s : Stack T n) j, j ≠ t → (run (w t) s).2 j = s j)
    (ts done : List (Fin n)) (hsplit : List.finRange n = ts.reverse ++ done)
    (hput : ∀ t ∈ ts, ∀ s : Stack T n, s t = s₀ t →
      Holds P ((run (w t) s).2.held t) ∧ (∀ d, (run (w t) s).1 = .ok d → Vouched P d) ∧
      (J s → J (run (w t) s).2))
    (evicted : Displaced K V) (s : Stack T n) (habove : ∀ j ∈ ts, s j = s₀ j)
    (hdone : ∀ j ∈ done, Holds P (s.held j)) (hs : J s) :
    (∀ j, Holds P ((run (r.writeThrough w ts evicted) s).2.held j)) ∧
      J (run (r.writeThrough w ts evicted) s).2 := by
  induction ts generalizing done evicted s with
  | nil => exact ⟨fun j => hdone j (by simpa [hsplit] using List.mem_finRange j), hs⟩
  | cons t above ih =>
    have hsplit' : List.finRange n = above.reverse ++ t :: done := by
      rw [hsplit]
      simp
    have ht := habove t (by simp)
    obtain ⟨hheld, hdis, hJt⟩ := hput t (by simp) s ht
    have hframe := hother t s
    have hput' := fun j hj => hput j (List.mem_cons_of_mem t hj)
    obtain ⟨htd, hta⟩ := not_mem_of_split hsplit'
    rw [run_writeThrough_cons r hw hd]
    generalize run (w t) s = out at *
    obtain ⟨a, s₁⟩ := out
    have hs₁ : J s₁ := hJt hs
    have habove₁ : ∀ j ∈ above, s₁ j = s₀ j := fun j hj => by
      have hne : j ≠ t := fun h => hta (by simpa [← h] using hj)
      exact (hframe j hne).trans (habove j (List.mem_cons_of_mem t hj))
    have hdone₁ : ∀ j ∈ t :: done, Holds P (s₁.held j) := by
      intro j hj
      by_cases hjt : j = t
      · rw [hjt]
        exact hheld
      · have hjd : j ∈ done := by simpa [hjt] using hj
        have hsame : s₁.held j = s.held j := held_congr (hframe j hjt)
        rw [hsame]
        exact hdone j hjd
    cases a with
    | error source =>
      dsimp only
      rw [hE source]
      exact ih (t :: done) hsplit' hput' evicted s₁ habove₁ hdone₁ hs₁
    | ok d =>
      dsimp only
      have hinv : ∀ (q : Query n K V) (s : Stack T n),
          ((∀ j ∈ t :: done, Holds P (s.held j)) ∧ J s ∧ ∀ j ∈ above, s j = s₀ j) →
          OkCall (· ∈ done) X P q → OkAnswer (fun _ => True) P q (exec q s).1 ∧
          ((∀ j ∈ t :: done, Holds P ((exec q s).2.held j)) ∧ J (exec q s).2 ∧
            ∀ j ∈ above, (exec q s).2 j = s₀ j) := by
        intro q s ⟨h₁, h₂, h₃⟩ hq
        have hmono : OkCall (· ∈ t :: done) X P q :=
          hq.mono fun h => List.mem_cons_of_mem t h
        obtain ⟨hans, hclean⟩ := exec_clean (Q := fun _ => True) hmono h₁
        refine ⟨hans, hclean, hJ q s h₂ (hq.mono fun _ => trivial), fun j hj => ?_⟩
        have hj' : j ∉ done := (disjoint_of_split hsplit' (by simpa using hj)).2
        have hne : j ≠ q.1 := fun h => hj' (by rw [h]; exact hq.tier)
        rw [exec_other q s hne, h₃ j hj]
      have hdemote : Clean (· ∈ done) X (fun _ => True) P (fun _ => True)
          (r.demote t d : RouterM n K V E _) :=
        r.demote_clean t (fun j hj => by rwa [tiersBelow_of_split hsplit'] at hj)
          (fun _ _ => trivial) d fun _ => hdis d rfl
      obtain ⟨h₁, h₂, h₃⟩ := (run_clean hinv hdemote ⟨hdone₁, hs₁, habove₁⟩).2
      exact ih (t :: done) hsplit' hput' _ _ h₃ h₁ h₂

end Spread
end Stack
end Tierstore
