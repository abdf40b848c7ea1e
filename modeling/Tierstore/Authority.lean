import Tierstore.Soundness
import Tierstore.Transparency

/-! The bottom tier as the authority: under write-through, with an unbounded bottom tier,
every copy above agrees with it, as long as no batch displaces an outdated value of one of
its own keys. -/
namespace Tierstore
open Overlay Effects

namespace Stack
variable {T K V : Type} {n : Nat} [DecidableEq K] [Tier T K V Infallible] [LawfulTier T]

def Agrees (m : K → Option V) : K → V → Prop := fun k v => m k = some v

def Anchor (U : T → Prop) (b : Fin n) (m : K → Option V) (s : Stack T n) : Prop :=
  s.held b = m ∧ U (s b).tier

/-- Tier `b` holds `m`, and every other copy agrees with it. -/
def Anchored (U : T → Prop) (b : Fin n) (m : K → Option V) (s : Stack T n) : Prop :=
  (∀ i, Holds (Agrees m) (s.held i)) ∧ Anchor U b m s

theorem Anchored.shown {U : T → Prop} {b : Fin n} {m : K → Option V} {s : Stack T n}
    (h : Anchored U b m s) : s.shown = m := by
  obtain ⟨hall, hb, -⟩ := h
  funext k
  cases hk : s.shown k with
  | some v =>
    obtain ⟨i, -, hi⟩ := exists_layer_of_stacked hk
    exact (hall i k v hi).symm
  | none =>
    have hnone := stacked_eq_none.1 hk b (List.mem_finRange b)
    rw [hb] at hnone
    exact hnone.symm

section Step
variable {U : T → Prop} (hU : Keeping U) {b : Fin n} {m : K → Option V}
include hU

/-- A keeping tier takes a write in full. -/
theorem contents_put_keeping {t : T} (ht : U t) (k : K) (v : V) :
    contents (Tier.put t k v).2 = write (contents t) [(k, v)] := by
  have hok := LawfulTier.put_ok t k v
  have hkeep := hU.put t k v
  cases hres : (Tier.put t k v).1 with
  | error e => exact e.elim
  | ok d =>
    have hd := hkeep d ht hres
    subst hd
    simpa using hok [] hres

theorem contents_putMany_keeping {t : T} (ht : U t) (es : List (K × V)) :
    contents (Tier.putMany t es).2 = write (contents t) es := by
  have hok := LawfulTier.putMany_ok t es
  have hkeep := hU.putMany t es
  cases hres : (Tier.putMany t es).1 with
  | error e => exact e.elim
  | ok d =>
    have hd := hkeep d ht hres
    subst hd
    simpa using hok [] hres

/-- Calls that delete nothing and write only what `m` has leave the anchor in place. -/
theorem anchor_exec {D : Fin n → Prop} {q : Query n K V} {s : Stack T n}
    (hs : Anchor U b m s) (hq : OkCall D (fun _ => False) (Agrees m) q) :
    Anchor U b m (exec q s).2 := by
  obtain ⟨hheld, hroom⟩ := hs
  by_cases hb : b = q.1
  · subst hb
    refine ⟨?_, by rw [exec_tier]; exact hU.call _ _ hroom⟩
    rw [held_exec, ← hheld]
    obtain ⟨t, c⟩ := q
    cases c with
    | get k => exact LawfulTier.get_contents (s t).tier k
    | exists_ k => exact LawfulTier.exists_contents (s t).tier k
    | getMany ks => exact LawfulTier.getMany_contents (s t).tier ks
    | put k v =>
      refine (contents_put_keeping hU hroom k v).trans (write_of_agree fun e he => ?_)
      rw [List.mem_singleton.1 he]
      exact (congrFun hheld k).trans hq.2
    | putMany es =>
      refine (contents_putMany_keeping hU hroom es).trans (write_of_agree fun e he => ?_)
      exact (congrFun hheld e.1).trans (hq.2 e he)
    | delete k => exact hq.2.elim
    | deleteMany ks =>
      have hok := LawfulTier.deleteMany_ok (s t).tier ks
      have hnil : ks = [] := List.eq_nil_iff_forall_not_mem.2 hq.2
      subst hnil
      change contents (Tier.deleteMany (s t).tier []).2 = contents (s t).tier
      cases hres : (Tier.deleteMany (s t).tier []).1 with
      | error e => exact e.elim
      | ok bs =>
        rw [hok bs hres]
        funext x
        simp [eraseAll]
  · rw [Anchor, held_exec_other q s hb, exec_other q s hb]
    exact ⟨hheld, hroom⟩

theorem anchored_clean {α : Type} {post : α → Prop} {p : RouterM n K V Infallible α}
    (hp : Clean (fun _ => True) (fun _ => False) (fun _ => True) (Agrees m) post p)
    {s : Stack T n} (hs : Anchored U b m s) : Anchored U b m (run p s).2 := by
  refine (run_clean (fun q s hs hq => ?_) hp hs).2
  obtain ⟨hans, hclean⟩ := exec_clean (Q := fun _ => True) hq fun i _ => hs.1 i
  exact ⟨hans, fun i => hclean i trivial, anchor_exec hU hs.2 hq⟩

omit hU in
theorem anchored_erased {ks : List K} {s s' : Stack T n} (hs : Anchored U b m s)
    (herased : Erased ks (List.finRange n) s s') (hroom : U (s' b).tier) :
    Anchored U b (eraseAll m ks) s' := by
  obtain ⟨hall, hb, -⟩ := hs
  have hheld : ∀ i, s'.held i = eraseAll (s.held i) ks :=
    fun i => herased.gone i (List.mem_finRange i)
  refine ⟨fun i k v hk => ?_, by rw [hheld b, hb], hroom⟩
  rw [hheld i] at hk
  rw [Agrees]
  by_cases hmem : k ∈ ks
  · simp [eraseAll, hmem] at hk
  · simp only [eraseAll, hmem, if_false] at hk ⊢
    exact hall i k v hk

/-- The write-through, given that no upper tier displaces anything outdated. -/
theorem writeThrough_anchored (r : Router n) (hw : ∀ i, r.writable i = true)
    (hd : r.policy.demoteDisplaced = true)
    {w : Fin n → RouterM n K V Infallible (Except Infallible (Displaced K V))}
    {es : List (K × V)} (hwrites : Writes T w es)
    (hkeep : ∀ (s : Stack T n), U (s b).tier → (run (w b) s).1 = .ok [])
    {s : Stack T n} (hs : Anchored U b m s)
    (hdis : ∀ t, t ≠ b → ∀ s' : Stack T n, s' t = s t → ∀ d, (run (w t) s').1 = .ok d →
      Vouched (Agrees (write m es)) d) (hb : b.val + 1 = n) :
    Anchored U b (write m es) (run (r.writeThrough w (List.finRange n).reverse []) s).2 := by
  obtain ⟨hall, hheld, hroom⟩ := hs
  obtain ⟨above, below, hsplit⟩ := exists_split b
  have hnil : below = [] := by
    have hlen := length_of_split hsplit
    exact List.eq_nil_of_length_eq_zero (by omega)
  subst hnil
  have hrev : (List.finRange n).reverse = b :: above.reverse := by simp [hsplit]
  have hfirst := hkeep s hroom
  have hwrite := hwrites.conserves b s [] hfirst
  have hother := hwrites.other b s
  have hroom₁ : U ((run (w b) s).2 b).tier := run_keeps hU (w b) b hroom
  rw [hrev, run_writeThrough_cons r hw hd]
  generalize run (w b) s = out at *
  obtain ⟨a, s₁⟩ := out
  dsimp only at hfirst hwrite hother hroom₁
  subst hfirst
  dsimp only
  rw [run_demote_nil]
  rw [latest_nil, atop_empty, hheld] at hwrite
  have hba := (not_mem_of_split hsplit).2
  have hsplit' : List.finRange n = above.reverse.reverse ++ [b] := by simp [hsplit]
  have hspread := writeThrough_holds (X := fun _ => False) (P := Agrees (write m es))
    (J := Anchor U b (write m es)) r hw hd (fun e => e.elim) s
    (fun q s hs hq => anchor_exec hU hs hq) hwrites.other above.reverse [b] hsplit'
  refine hspread (fun t ht s' (hs' : s' t = s t) => ?_) _ s₁ ?_ ?_ ⟨hwrite, hroom₁⟩
  · have htb : t ≠ b := fun h => hba (by simpa [h] using ht)
    have hvouched := hdis t htb s' hs'
    refine ⟨fun k v hk => ?_, hvouched, fun hJ => ?_⟩
    · cases hres : (run (w t) s').1 with
      | error e => exact e.elim
      | ok d =>
        have hcons := hwrites.conserves t s' d hres
        have hk' : write (s'.held t) es k = some v := by
          rw [← hcons]
          exact atop_of_some hk _
        have hmono : Within False (s'.held t) m :=
          ⟨fun x u hx => hall t x u (by rwa [held_congr hs'] at hx), fun h => h.elim⟩
        exact (hmono.write es).1 k v hk'
    · have hfb := hwrites.other t s' b (Ne.symm htb)
      rw [Anchor, held_congr hfb, hfb]
      exact hJ
  · intro j hj
    exact hother j fun h => hba (by simpa [h] using hj)
  · intro j hj
    rw [List.mem_singleton.1 hj, hwrite]
    exact fun k v hk => hk

/-- A single put displaces only entries of the map it leaves behind. -/
theorem put_anchored (r : Router n) (hw : ∀ i, r.writable i = true)
    (hd : r.policy.demoteDisplaced = true) (hmode : r.policy.write = .writeThrough)
    (hb : b.val + 1 = n) (k : K) (v : V) {s : Stack T n} (hs : Anchored U b m s) :
    Anchored U b (write m [(k, v)]) (run (r.put k v) s).2 := by
  rw [Router.put_through hmode (hw b)]
  refine writeThrough_anchored hU r hw hd (writes_put k v) (fun s hs => ?_) hs
    (fun t _ s' hs' d hres e he => ?_) hb
  · cases hres : (run (putAt (E := Infallible) b k v) s).1 with
    | error e => exact e.elim
    | ok d => rw [hU.put (s b).tier k v d hs hres]
  · have hin := LawfulTier.put_displaced (s' t).tier k v d hres e he
    have hmono : Within False (contents (s' t).tier) m :=
      ⟨fun x u hx => hs.1 t x u (by rwa [hs'] at hx), fun h => h.elim⟩
    exact (hmono.write [(k, v)]).1 e.1 e.2 hin

/-- No upper tier, taking the batch in its present state, displaces a value of one of the
batch's keys that is not the batch's last one for that key. -/
def BatchSettles (b : Fin n) (s : Stack T n) (es : List (K × V)) : Prop :=
  ∀ t, t ≠ b → ∀ d, (Tier.putMany (s t).tier es).1 = .ok d →
    ∀ e ∈ d, ∀ v, latest es e.1 = some v → e.2 = v

theorem putMany_anchored (r : Router n) (hw : ∀ i, r.writable i = true)
    (hd : r.policy.demoteDisplaced = true) (hmode : r.policy.write = .writeThrough)
    (hb : b.val + 1 = n) {es : List (K × V)} {s : Stack T n} (hs : Anchored U b m s)
    (hes : BatchSettles b s es) : Anchored U b (write m es) (run (r.putMany es) s).2 := by
  rw [Router.putMany_through hmode (hw b)]
  refine writeThrough_anchored hU r hw hd (writes_putMany es) (fun s hs => ?_) hs
    (fun t ht s' hs' d hres e he => ?_) hb
  · cases hres : (run (putManyAt (E := Infallible) b es) s).1 with
    | error e => exact e.elim
    | ok d => rw [hU.putMany (s b).tier es d hs hres]
  · change (Tier.putMany (s' t).tier es).1 = .ok d at hres
    rw [hs'] at hres
    have hin := LawfulTier.putMany_displaced (s t).tier es d hres e he
    have hset := hes t ht d hres e he
    rw [Agrees, write]
    cases hlast : latest es e.1 with
    | some v => rw [atop_of_some hlast, hset v hlast]
    | none =>
      rw [atop_of_none hlast]
      obtain hmem | hold := hin
      · exact absurd (List.mem_map_of_mem hmem) (latest_eq_none.1 hlast)
      · exact hs.1 t e.1 e.2 hold

/-! ## Histories -/

theorem perform_anchored (r : Router n) (hw : ∀ i, r.writable i = true)
    (hd : r.policy.demoteDisplaced = true) (hmode : r.policy.write = .writeThrough)
    (hb : b.val + 1 = n) (op : RouterOp K V) {s : Stack T n} (hs : Anchored U b m s)
    (hop : ∀ es, op = .putMany es → BatchSettles b s es) :
    Anchored U b (op.applyTo m) (perform r s op) := by
  have hD : ∀ _ : Fin n, True := fun _ => trivial
  have hQ : ∀ t, r.Spills t → True := fun _ _ => trivial
  have hroom := hs.2.2
  cases op with
  | get k => exact anchored_clean hU (r.get_clean hD hQ k) hs
  | exists_ k => exact anchored_clean hU (r.exists_clean hD k) hs
  | readMany ks => exact anchored_clean hU (r.readMany_clean hD hQ ks) hs
  | put k v => exact put_anchored hU r hw hd hmode hb k v hs
  | putMany es => exact putMany_anchored hU r hw hd hmode hb hs (hop es rfl)
  | delete k =>
    have herased := (deleteTiers_erased r hw k (List.finRange n) false s).2
    rw [RouterOp.applyTo, ← eraseAll_singleton]
    exact anchored_erased hs herased (run_keeps hU _ b hroom)
  | removeMany ks =>
    have herased := removeTiers_erased r hw ks (List.finRange n)
      (List.replicate ks.length false) s
    exact anchored_erased hs herased (run_keeps hU _ b hroom)

theorem performAll_anchored (r : Router n) (hw : ∀ i, r.writable i = true)
    (hd : r.policy.demoteDisplaced = true) (hmode : r.policy.write = .writeThrough)
    (hb : b.val + 1 = n) (ops : List (RouterOp K V)) {s : Stack T n} (hs : Anchored U b m s)
    (hops : Runs.Along (perform r)
      (fun s op => ∀ es, op = .putMany es → BatchSettles b s es) s ops) :
    ∃ m', Anchored U b m' (performAll r s ops) := by
  have hstep : ∀ (s : Stack T n) (op : RouterOp K V), (∃ m, Anchored U b m s) →
      (∀ es, op = .putMany es → BatchSettles b s es) → ∃ m, Anchored U b m (perform r s op) :=
    fun s op ⟨m, hs⟩ hop => ⟨_, perform_anchored hU r hw hd hmode hb op hs hop⟩
  exact hops.keeps hstep ⟨m, hs⟩

end Step
end Stack

/-- Over memory tiers with an unbounded bottom, the upper ones empty at first: as long as
every batch settles, the bottom tier alone holds what the router answers. -/
theorem bottom_authoritative {K V : Type} [DecidableEq K] {n : Nat} (r : Router n)
    (hw : ∀ i, r.writable i = true) (hd : r.policy.demoteDisplaced = true)
    (hmode : r.policy.write = .writeThrough) (tiers : Fin n → MemoryTier K V) (b : Fin n)
    (hb : b.val + 1 = n) (hunb : (tiers b).Unbounded)
    (hupper : ∀ i, i ≠ b → (tiers i).inner = Inner.new) (ops : List (RouterOp K V))
    (hops : Runs.Along (Stack.perform r)
      (fun s op => ∀ es, op = .putMany es → Stack.BatchSettles b s es)
      (Stack.build tiers) ops) :
    let s := Stack.performAll r (Stack.build tiers) ops
    ∀ k, (Stack.run (r.get k) s).1 = some (.ok (s.held b k)) := by
  intro s k
  have hU := MemoryTier.keeping_unbounded (K := K) (V := V)
  have hstart : Stack.Anchored MemoryTier.Unbounded b ((Stack.build tiers).held b)
      (Stack.build tiers) := by
    refine ⟨fun i k v hk => ?_, rfl, hunb⟩
    by_cases hi : i = b
    · rw [← hi]
      exact hk
    · simp [Stack.held, Stack.build, LawfulTier.contents, hupper i hi] at hk
  obtain ⟨m, hs⟩ := Stack.performAll_anchored hU r hw hd hmode hb ops hstart hops
  have htracks : Stack.Tracks MemoryTier.Unbounded False s.shown s :=
    ⟨Within.refl _ _, fun h => h.elim⟩
  have hget := (Stack.get_tracks r hw hd hU k htracks).1
  have hshown : s.shown = s.held b := hs.shown.trans hs.2.1.symm
  rwa [hshown] at hget

def slotOverUnbounded : Fin 2 → MemoryTier Nat Nat :=
  fun i => if i.val = 0 then .oneSlot else .unbounded

def rollover : Router 2 :=
  .uniform 2 "memory" { Policy.default with demoteDisplaced := true }

theorem bottom_authoritative_settled :
    let ops := [RouterOp.put 1 10, .putMany [(1, 11), (2, 20)]]
    (Stack.run (rollover.get 1)
        (Stack.performAll rollover (Stack.build slotOverUnbounded) ops)).1 =
      some (.ok ((Stack.performAll rollover (Stack.build slotOverUnbounded) ops).held 1 1)) := by
  intro ops
  have hbatch : Stack.BatchSettles 1 (Stack.perform rollover (Stack.build slotOverUnbounded)
      (.put 1 10)) [(1, 11), (2, 20)] := by
    intro t ht d hd
    have h0 : t = 0 := by omega
    subst h0
    have hd' : d = [(1, 11)] := (Except.ok.inj hd).symm
    subst hd'
    decide
  have hops : Runs.Along (Stack.perform rollover)
      (fun s op => ∀ es, op = RouterOp.putMany es → Stack.BatchSettles 1 s es)
      (Stack.build slotOverUnbounded) ops := by
    refine ⟨fun es h => ?_, fun es h => ?_, trivial⟩
    · cases h
    · cases h
      exact hbatch
  have hupper : ∀ i, i ≠ 1 → (slotOverUnbounded i).inner = Inner.new := by
    intro i hi
    have h0 : i = 0 := by omega
    subst h0
    rfl
  exact bottom_authoritative rollover (fun _ => rfl) rfl rfl slotOverUnbounded 1 rfl ⟨rfl, rfl⟩
    hupper ops hops 1

/-- A batch that names a key twice rolls the key's first value over into the bottom tier:
the router still answers with the last value, the bottom tier holds the first. -/
theorem bottom_rolled_back :
    let s := Stack.perform rollover (Stack.build slotOverUnbounded)
      (.putMany [(1, 1), (2, 2), (1, 3)])
    (Stack.run (rollover.get 1) s).1 = some (.ok (some 3)) ∧ s.held 1 1 = some 1 := by
  exact ⟨rfl, rfl⟩

end Tierstore
