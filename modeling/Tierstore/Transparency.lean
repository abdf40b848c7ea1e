import Tierstore.Client
import Tierstore.Infallible
import Tierstore.Lookup
import Tierstore.Memory

/-! Tiering is transparent: over tiers that cannot fail, the stack shows a plain map, up to
what falls off a bounded bottom. -/
namespace Tierstore
open Overlay Effects

namespace Stack
variable {T K V : Type} {n : Nat} [DecidableEq K] [Tier T K V Infallible] [LawfulTier T]

/-- The stack shows `m` up to losses, and all of it when `exact` holds. -/
def Tracks (U : T → Prop) (exact : Prop) (m : K → Option V) (s : Stack T n) : Prop :=
  Within exact s.shown m ∧ (exact → Roomy U s)

section Step
variable {U : T → Prop} {exact : Prop} {m : K → Option V}

theorem Tracks.undisturbed (hU : Keeping U) {s s' : Stack T n} (h : Tracks U exact m s)
    (hund : Undisturbed s s') : Tracks U exact m s' := by
  refine ⟨?_, fun he b hb => hund.keeps U hU b (h.2 he b hb)⟩
  rw [hund.shown]
  exact h.1

omit [DecidableEq K] [LawfulTier T] in
theorem run_forM_keeps {ι : Type} (inv : Stack T n → Prop)
    {f : ι → RouterM n K V Infallible Unit} (l : List ι)
    (hstep : ∀ i ∈ l, ∀ s, inv s → inv (run (f i) s).2) {s : Stack T n} (hs : inv s) :
    inv (run (l.forM f) s).2 := by
  induction l generalizing s with
  | nil => exact hs
  | cons i l ih =>
    change inv (run (f i >>= fun _ => l.forM f) s).2
    rw [run_bind]
    exact ih (fun j hj => hstep j (List.mem_cons_of_mem i hj)) (hstep i (by simp) s hs)

variable (r : Router n) (hw : ∀ i, r.writable i = true)
  (hd : r.policy.demoteDisplaced = true)
include hw hd

omit [DecidableEq K] [LawfulTier T] in
theorem run_promoteWith (t : Fin n)
    (w : RouterM n K V Infallible (Except Infallible (Displaced K V))) (s : Stack T n) :
    ∃ d, (run w s).1 = .ok d ∧
      (run (r.promoteWith t w) s).2 = (run (r.demote t d) (run w s).2).2 := by
  rw [Router.promoteWith, if_pos (hw t)]
  simp only [run_bind]
  cases hres : (run w s).1 with
  | error e => exact e.elim
  | ok d =>
    refine ⟨d, rfl, ?_⟩
    cases d with
    | nil => simp [run_demote_nil]
    | cons e rest => simp [hd]

/-- Copying current entries upwards changes nothing but what falls off. -/
theorem promoteWith_tracks (hU : Keeping U)
    {w : Fin n → RouterM n K V Infallible (Except Infallible (Displaced K V))}
    {es : List (K × V)} (hwrites : Writes T w es)
    (hkeep : ∀ (t : Fin n) (s : Stack T n) (d : Displaced K V), U (s t).tier →
      (run (w t) s).1 = .ok d → d = []) (hes : ∀ e ∈ es, m e.1 = some e.2) (t : Fin n)
    {s : Stack T n} (hs : Tracks U exact m s) :
    Tracks U exact m (run (r.promoteWith t (w t)) s).2 := by
  refine ⟨?_, fun he => roomy_run hU _ (hs.2 he)⟩
  obtain ⟨above, below, hsplit⟩ := exists_split t
  obtain ⟨d, hok, hrun⟩ := run_promoteWith r hw hd t (w t) s
  have hrejects : Dispenses [] (above ++ [t]) below d (run (w t) s).2 :=
    dispenses_of_accepted r hw [] _ below d _ (allAccepted_infallible _ _)
  have hspill := funext fun x => spill_shows r hw hwrites hsplit hok hrejects (by simp : x ∉ [])
  have hlost : exact → (run (r.demote t d) (run (w t) s).2).1 = [] := by
    intro he
    refine demote_roomy hU r hw hsplit d _ (roomy_run hU _ (hs.2 he)) fun hb => ?_
    subst hb
    exact hkeep t s d ((hs.2 he).last hsplit) hok
  have hshown : atop (s.view above) (s.view (t :: below)) = s.shown := by
    rw [shown, hsplit, view_append]
  rw [hrun]
  refine (Within.of_conserved hspill hlost).trans (Within.atop_write ?_ hes)
  rw [hshown]
  exact hs.1

theorem promoteOne_tracks (hU : Keeping U) {k : K} {v : V} (hk : m k = some v) (t : Fin n)
    {s : Stack T n} (hs : Tracks U exact m s) :
    Tracks U exact m (run (r.promoteOne t k (some v)) s).2 :=
  promoteWith_tracks r hw hd hU (writes_put k v) (fun t s d => hU.put (s t).tier k v d)
    (by simpa using hk) t hs

theorem promoteInto_tracks (hU : Keeping U) {es : List (K × V)}
    (hes : ∀ e ∈ es, m e.1 = some e.2) (t : Fin n) {s : Stack T n} (hs : Tracks U exact m s) :
    Tracks U exact m (run (r.promoteInto t es) s).2 :=
  promoteWith_tracks r hw hd hU (writes_putMany es) (fun t s d => hU.putMany (s t).tier es d)
    hes t hs

/-! ## The router's reads -/

theorem get_tracks (hU : Keeping U) (k : K) {s : Stack T n} (hs : Tracks U exact m s) :
    (run (r.get k) s).1 = some (.ok (s.shown k)) ∧
      Tracks U exact m (run (r.get k) s).2 := by
  obtain ⟨s', hund, hres⟩ := readDown_spec r (fun e => e.elim) k [] (List.finRange n) rfl s rfl
  have hs' := hs.undisturbed hU hund
  rw [Router.get_eq, run_map]
  obtain ⟨t, v, hv, hrun⟩ | ⟨hv, hrun⟩ | ⟨t, source, -⟩ := hres
  · have hm : m k = some v := hs.1.1 k v hv
    rw [hrun, hv]
    refine ⟨rfl, run_forM_keeps (Tracks U exact m) _ (fun target _ s hs => ?_) hs'⟩
    exact promoteOne_tracks r hw hd hU hm target hs
  · rw [hrun, hv]
    exact ⟨rfl, hs'⟩
  · exact source.elim

omit hw hd in
theorem exists_tracks (hU : Keeping U) (k : K) {s : Stack T n} (hs : Tracks U exact m s) :
    (run (r.exists_ (V := V) k) s).1 = some (.ok (s.shown k).isSome) ∧
      Tracks U exact m (run (r.exists_ (V := V) k) s).2 := by
  obtain ⟨hund, hres⟩ :=
    existsDown_spec r (fun e => e.elim) k [] (List.finRange n) rfl s rfl
  rw [Router.exists_eq, run_map]
  obtain hres | ⟨t, source, -⟩ := hres
  · exact ⟨congrArg some hres, hs.undisturbed hU hund⟩
  · exact source.elim

omit [DecidableEq K] hw hd in
/-- The entries a batched read copies upwards are ones it has just read. -/
theorem hitEntries_agree {keys : List K} {statuses : Fin keys.length → KeyStatus V}
    (hstat : ∀ i v, (statuses i).value = some v → m (keys.get i) = some v) (t : Fin n) :
    ∀ e ∈ Router.hitEntries keys statuses t, m e.1 = some e.2 := by
  intro e he
  obtain ⟨i, hkey, hv⟩ := Router.mem_hitEntries he
  rw [← hkey]
  exact hstat i e.2 hv

theorem promoteBatch_tracks (hU : Keeping U) {keys : List K}
    {statuses : Fin keys.length → KeyStatus V}
    (hstat : ∀ i v, (statuses i).value = some v → m (keys.get i) = some v)
    {s : Stack T n} (hs : Tracks U exact m s) :
    Tracks U exact m (run (r.promoteBatch keys statuses) s).2 := by
  have hloop : ∀ (l : List (Fin n)) (s : Stack T n), Tracks U exact m s →
      Tracks U exact m (run (r.promoteTiers keys statuses l) s).2 := by
    intro l
    induction l with
    | nil => exact fun s hs => hs
    | cons t rest ih =>
      intro s hs
      rw [Router.promoteTiers]
      dsimp only
      split
      · exact ih s hs
      · rw [run_bind]
        refine ih _ (run_forM_keeps (Tracks U exact m) _ (fun target _ s hs => ?_) hs)
        exact promoteInto_tracks r hw hd hU (hitEntries_agree hstat t) target hs
  rw [Router.promoteBatch]
  split
  · exact hs
  · exact hloop _ s hs

theorem readMany_tracks (hU : Keeping U) (ks : List K) {s : Stack T n}
    (hs : Tracks U exact m s) :
    (∃ report, (run (r.readMany ks) s).1 = .ok report ∧ report.failures = [] ∧
      report.intoValues = ks.map s.shown) ∧
      Tracks U exact m (run (r.readMany ks) s).2 := by
  obtain ⟨s', hund, hres⟩ := readTiers_spec r (fun e => e.elim) ks [] (List.finRange n) rfl s
    (fun _ => .miss) (List.finRange ks.length) (fun i => rfl)
    (fun i => by simp [view, stacked])
  obtain ⟨statuses, unresolved, hstat, hrun⟩ | ⟨t, source, -⟩ := hres
  · rw [Router.readMany, run_bind, hrun]
    simp only [List.isEmpty_nil, if_true, run_bind]
    refine ⟨⟨_, rfl, rfl, ?_⟩, ?_⟩
    · rw [ReadReport.intoValues, List.map_ofFn]
      refine List.ext_get (by simp) fun i h₁ h₂ => ?_
      simp [hstat]
    · have hs' := hs.undisturbed hU hund
      refine promoteBatch_tracks r hw hd hU (fun i v hv => ?_) hs'
      exact hs.1.1 _ v ((hstat i).symm.trans hv)
  · exact source.elim

/-! ## Histories -/

theorem perform_tracks (hU : Keeping U) (hn : n ≠ 0) (op : RouterOp K V) {s : Stack T n}
    (hs : Tracks U exact m s) : Tracks U exact (op.applyTo m) (perform r s op) := by
  cases op with
  | get k => exact (get_tracks r hw hd hU k hs).2
  | exists_ k => exact (exists_tracks r hU k hs).2
  | readMany ks => exact (readMany_tracks r hw hd hU ks hs).2
  | put k v =>
    obtain ⟨d, -, h⟩ := put_within r hw hd hU hn k v s
    exact ⟨(h.mono hs.2).trans (hs.1.write [(k, v)]), fun he => roomy_run hU _ (hs.2 he)⟩
  | putMany es =>
    obtain ⟨d, -, h⟩ := putMany_within r hw hd hU hn es s
    exact ⟨(h.mono hs.2).trans (hs.1.write es), fun he => roomy_run hU _ (hs.2 he)⟩
  | delete k =>
    have h := (delete_shown r hw k s).2
    refine ⟨?_, fun he => roomy_run hU _ (hs.2 he)⟩
    rw [perform, h, RouterOp.applyTo, ← eraseAll_singleton]
    exact hs.1.eraseAll [k]
  | removeMany ks =>
    have h := removeMany_shown r hw ks s
    refine ⟨?_, fun he => roomy_run hU _ (hs.2 he)⟩
    rw [perform, h]
    exact hs.1.eraseAll ks

theorem performAll_tracks (hU : Keeping U) (hn : n ≠ 0) (ops : List (RouterOp K V))
    {s : Stack T n} (hs : Tracks U exact m s) :
    Tracks U exact (ops.foldl RouterOp.applyTo m) (performAll r s ops) := by
  induction ops generalizing m s with
  | nil => exact hs
  | cons op ops ih => exact ih (perform_tracks r hw hd hU hn op hs)

end Step
end Stack

/-- Over memory tiers that start empty, with any bounds, every read of every history
answers from one map: the client's own map less what fell off the bottom, and exactly the
client's own map when the bottom tier has no bound. -/
theorem tiering_transparent {K V : Type} [DecidableEq K] {n : Nat} (r : Router n)
    (hn : n ≠ 0) (hw : ∀ i, r.writable i = true) (hd : r.policy.demoteDisplaced = true)
    (tiers : Fin n → MemoryTier K V) (hempty : ∀ i, (tiers i).inner = Inner.new)
    (ops : List (RouterOp K V)) :
    ∃ seen : K → Option V,
      (∀ k v, seen k = some v → RouterOp.logical ops k = some v) ∧
      ((∀ b : Fin n, b.val + 1 = n → (tiers b).Unbounded) → seen = RouterOp.logical ops) ∧
      let s := Stack.performAll r (Stack.build tiers) ops
      (∀ k, (Stack.run (r.get k) s).1 = some (.ok (seen k))) ∧
      (∀ k, (Stack.run (r.exists_ k) s).1 = some (.ok (seen k).isSome)) ∧
      ∀ ks, ∃ report, (Stack.run (r.readMany ks) s).1 = .ok report ∧ report.failures = [] ∧
        report.intoValues = ks.map seen := by
  have hU := MemoryTier.keeping_unbounded (K := K) (V := V)
  have hstart : Stack.Tracks MemoryTier.Unbounded
      (Stack.Roomy MemoryTier.Unbounded (Stack.build tiers)) empty (Stack.build tiers) := by
    have hshown : (Stack.build tiers).shown = empty := by
      funext k
      refine stacked_eq_none.2 fun i _ => ?_
      simp [Stack.held, Stack.build, LawfulTier.contents, hempty i]
    exact ⟨by rw [hshown]; exact Within.refl _ _, fun h => h⟩
  have hs := Stack.performAll_tracks r hw hd hU hn ops hstart
  refine ⟨_, hs.1.1, fun hb => hs.1.2 hb, ?_, ?_, ?_⟩
  · exact fun k => (Stack.get_tracks r hw hd hU k hs).1
  · exact fun k => (Stack.exists_tracks r hU k hs).1
  · exact fun ks => (Stack.readMany_tracks r hw hd hU ks hs).1

theorem tiering_transparent_overflow :
    let r := Router.uniform 2 "memory"
      { Policy.default with
        read := { promote := .topOnly, onError := .fallThrough }, demoteDisplaced := true }
    let tiers : Fin 2 → MemoryTier Nat Nat := fun i => if i = 0 then .bounded 1 else .unbounded
    let ops := [RouterOp.put 1 10, .put 2 20, .get 1, .putMany [(1, 30), (3, 4), (1, 40)]]
    (Stack.run (r.get 1) (Stack.performAll r (Stack.build tiers) ops)).1 =
      some (.ok (some 40)) := by
  intro r tiers ops
  have hempty : ∀ i, (tiers i).inner = Inner.new := by
    intro i
    by_cases hi : i = 0 <;> simp [tiers, hi, MemoryTier.bounded, MemoryTier.unbounded]
  obtain ⟨seen, -, hexact, hget, -⟩ :=
    tiering_transparent r (by decide) (fun _ => rfl) rfl tiers hempty ops
  have hunb : ∀ b : Fin 2, b.val + 1 = 2 → (tiers b).Unbounded := by
    intro b hb
    have h1 : b = 1 := by omega
    subst h1
    exact ⟨rfl, rfl⟩
  rw [hget 1, hexact hunb]
  decide

end Tierstore
