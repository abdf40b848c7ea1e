import Tierstore.Lib.Runs
import Tierstore.Placed
import Tierstore.Stack
import Tierstore.Verified

/-! A router used as a tier of another router, against the one router over all the tiers. -/
namespace Tierstore
open Effects

/-! ## Entries that fall down a stack in two lots -/
namespace Stack
variable {T K V E : Type} {n : Nat} [Tier T K V E]

/-- What the entries displace from a tier, and what becomes of it, depends on that tier alone. -/
theorem demoteInto_local (t : Fin n) (entries : Displaced K V) (y : Slot T) :
    ∃ (out : Displaced K V) (x : Slot T), ∀ (next : Displaced K V) (s : Stack T n), s t = y →
      run (Router.demoteInto t entries next) s = (next ++ out, Function.update s t x) := by
  induction entries generalizing y with
  | nil =>
    refine ⟨[], y, fun next s hs => ?_⟩
    rw [← hs, Function.update_eq_self, List.append_nil]
    rfl
  | cons e rest ih =>
    let call := Tier.call y.tier (.put e.1 e.2)
    let y' : Slot T := ⟨call.2, y.counters.record (.put e.1 e.2) call.1⟩
    obtain ⟨out, x, hrest⟩ := ih y'
    have hexec (s : Stack T n) (hs : s t = y) :
        exec (t, .put e.1 e.2) s = (call.1, Function.update s t y') := by
      rw [exec, hs]
    cases hcall : call.1 with
    | ok displaced =>
      refine ⟨displaced ++ out, x, fun next s hs => ?_⟩
      rw [Router.demoteInto, run_bind, run_putAt, hexec s hs, hcall]
      dsimp only
      rw [hrest _ _ (Function.update_self t y' s), Function.update_idem, List.append_assoc]
    | error source =>
      refine ⟨out, x, fun next s hs => ?_⟩
      rw [Router.demoteInto, run_bind, run_putAt, hexec s hs, hcall]
      dsimp only
      rw [hrest _ _ (Function.update_self t y' s), Function.update_idem]

theorem demoteInto_append (t : Fin n) (entries more next : Displaced K V) :
    (Router.demoteInto (E := E) t (entries ++ more) next) =
      Router.demoteInto t entries next >>= Router.demoteInto t more := by
  induction entries generalizing next with
  | nil => rfl
  | cons e rest ih =>
    rw [List.cons_append, Router.demoteInto, Router.demoteInto, bind_assoc]
    refine congrArg _ (funext fun a => ?_)
    cases a with
    | ok displaced => exact ih _
    | error source => exact ih _

/-- Two lots of entries fall down the stack together as one after the other: every tier sees
the same puts in the same order. -/
theorem run_demoteDown_append (r : Router n) {tiers : List (Fin n)} (hnd : tiers.Nodup)
    (entries more : Displaced K V) (s : Stack T n) :
    run (r.demoteDown tiers (entries ++ more)) s =
      ((run (r.demoteDown tiers entries) s).1 ++
        (run (r.demoteDown tiers more) (run (r.demoteDown tiers entries) s).2).1,
      (run (r.demoteDown tiers more) (run (r.demoteDown tiers entries) s).2).2) := by
  induction tiers generalizing entries more s with
  | nil => rfl
  | cons t below ih =>
    obtain ⟨hnew, hnd⟩ := List.nodup_cons.1 hnd
    cases entries with
    | nil => simp [Router.demoteDown]
    | cons e entries =>
      cases more with
      | nil => simp [Router.demoteDown]
      | cons e' more =>
        by_cases hw : r.writable t = true
        · have hdown (es : Displaced K V) (hne : es.isEmpty = false) :
              (r.demoteDown (t :: below) es : RouterM n K V E _) =
                Router.demoteInto t es [] >>= r.demoteDown below := by
            rw [Router.demoteDown, hne]
            simp [hw]
          rw [hdown _ rfl, hdown _ rfl, hdown _ rfl, demoteInto_append, bind_assoc]
          obtain ⟨out, x, hfirst⟩ := demoteInto_local t (e :: entries) (s t)
          obtain ⟨out', x', hsecond⟩ := demoteInto_local t (e' :: more) x
          have hframe := run_update (r.demoteDown_avoids hnew out) (Function.update s t x) x'
          have htouch := run_untouched (r.demoteDown_avoids hnew out) (Function.update s t x)
          rw [Function.update_self] at htouch
          simp only [run_bind]
          rw [hfirst [] s rfl]
          dsimp only
          rw [hsecond _ _ (Function.update_self t x s), List.nil_append, ih hnd, hframe,
            hsecond [] _ htouch]
          rfl
        · have hskip (es : Displaced K V) :
              (r.demoteDown (t :: below) es : RouterM n K V E _) = r.demoteDown below es := by
            rw [Router.demoteDown]
            cases es with
            | nil => exact (r.demoteDown_nil below).symm
            | cons _ _ => simp [hw]
          rw [hskip, hskip, hskip]
          exact ih hnd _ _ s

end Stack

/-! ## Two stacks in one, side by side or nested -/

structure RouterTier (T : Type) (n : Nat) where
  router : Router n
  stack : Stack T n

theorem Router.get_isSome {T K V E : Type} {n : Nat} [Tier T K V E] (r : Router n) (key : K)
    (s : Stack T n) : (Stack.run (r.get key) s).1.isSome = true := by
  rw [Router.get_eq, Stack.run_map]
  rfl

theorem Router.exists_isSome {T K V E : Type} {n : Nat} [Tier T K V E] (r : Router n) (key : K)
    (s : Stack T n) : (Stack.run (r.exists_ key) s).1.isSome = true := by
  rw [Router.exists_eq, Stack.run_map]
  rfl

instance {T K V E : Type} {n : Nat} [Tier T K V E] : Tier (RouterTier T n) K V (RouterError E) where
  get t key :=
    let out := Stack.run (t.router.get key) t.stack
    (out.1.get (t.router.get_isSome key t.stack), { t with stack := out.2 })
  exists_ t key :=
    let out := Stack.run (t.router.exists_ key) t.stack
    (out.1.get (t.router.exists_isSome key t.stack), { t with stack := out.2 })
  getMany t keys :=
    let out := Stack.run (t.router.getMany keys) t.stack
    (out.1, { t with stack := out.2 })
  put t key value :=
    let out := Stack.run (t.router.put key value) t.stack
    (out.1, { t with stack := out.2 })
  delete t key :=
    let out := Stack.run (t.router.delete key) t.stack
    (out.1, { t with stack := out.2 })
  putMany t entries :=
    let out := Stack.run (t.router.putMany entries) t.stack
    (out.1, { t with stack := out.2 })
  deleteMany t keys :=
    let out := Stack.run (t.router.deleteMany keys) t.stack
    (out.1, { t with stack := out.2 })

section Shapes
variable {m p : Nat}

def Router.flat (a : Router m) (b : Router p) : Router (m + p) :=
  { writable := Fin.append a.writable b.writable
    name := Fin.append a.name b.name
    policy := a.policy }

def Router.nested (a : Router m) (b : Router p) : Router (p + 1) :=
  { writable := Fin.cons true b.writable, name := Fin.cons "router" b.name, policy := a.policy }

theorem finRange_add : List.finRange (m + p) =
    (List.finRange m).map (Fin.castAdd p) ++ (List.finRange p).map (Fin.natAdd m) := by
  rw [← List.ofFn_id, List.ofFn_add, ← List.ofFn_id, ← List.ofFn_id, List.map_ofFn, List.map_ofFn]
  rfl

theorem tiersBelow_castAdd (i : Fin m) : tiersBelow (Fin.castAdd p i) =
    (tiersBelow i).map (Fin.castAdd p) ++ (List.finRange p).map (Fin.natAdd m) := by
  obtain ⟨above, below, hsplit⟩ := exists_split i
  have hfull : List.finRange (m + p) = above.map (Fin.castAdd p) ++ Fin.castAdd p i ::
      (below.map (Fin.castAdd p) ++ (List.finRange p).map (Fin.natAdd m)) := by
    rw [finRange_add, hsplit, List.map_append, List.append_assoc]
    rfl
  rw [tiersBelow_of_split hfull, tiersBelow_of_split hsplit]

theorem tiersBelow_natAdd (j : Fin p) :
    tiersBelow (Fin.natAdd m j) = (tiersBelow j).map (Fin.natAdd m) := by
  obtain ⟨above, below, hsplit⟩ := exists_split j
  have hfull : List.finRange (m + p) =
      ((List.finRange m).map (Fin.castAdd p) ++ above.map (Fin.natAdd m)) ++
        Fin.natAdd m j :: below.map (Fin.natAdd m) := by
    rw [finRange_add, hsplit, List.map_append, List.append_assoc]
    rfl
  rw [tiersBelow_of_split hfull, tiersBelow_of_split hsplit]

theorem tiersBelow_succ (j : Fin p) : tiersBelow j.succ = (tiersBelow j).map Fin.succ := by
  obtain ⟨above, below, hsplit⟩ := exists_split j
  have hfull : List.finRange (p + 1) =
      (0 :: above.map Fin.succ) ++ j.succ :: below.map Fin.succ := by
    rw [List.finRange_succ, hsplit, List.map_append]
    rfl
  rw [tiersBelow_of_split hfull, tiersBelow_of_split hsplit]

theorem tiersBelow_zero : tiersBelow (0 : Fin (p + 1)) = (List.finRange p).map Fin.succ := by
  have hfull : List.finRange (p + 1) = [] ++ 0 :: (List.finRange p).map Fin.succ :=
    List.finRange_succ
  rw [tiersBelow_of_split hfull]

variable {T K V E : Type}

def Stack.nest (a : Router m) (counters : Counters) (U : Stack T m) (L : Stack T p) :
    Stack (RouterTier T m ⊕ T) (p + 1) :=
  Fin.cons ⟨.inl ⟨a, U⟩, counters⟩ fun j => ⟨.inr (L j).tier, (L j).counters⟩

namespace Stack
variable [Tier T K V E]

theorem append_update_castAdd (U : Stack T m) (L : Stack T p) (i : Fin m) (x : Slot T) :
    Function.update (Fin.append U L) (Fin.castAdd p i) x =
      Fin.append (Function.update U i x) L := by
  funext j
  refine Fin.addCases (fun k => ?_) (fun k => ?_) j
  · by_cases hk : k = i
    · subst hk
      simp
    · have hne : Fin.castAdd p k ≠ Fin.castAdd p i := fun e => hk (Fin.castAdd_injective m p e)
      rw [Function.update_of_ne hne, Fin.append_left, Fin.append_left, Function.update_of_ne hk]
  · have hne : Fin.natAdd m k ≠ Fin.castAdd p i := fun e => by
      have := congrArg Fin.val e
      simp at this
      omega
    rw [Function.update_of_ne hne, Fin.append_right, Fin.append_right]

theorem append_update_natAdd (U : Stack T m) (L : Stack T p) (j : Fin p) (x : Slot T) :
    Function.update (Fin.append U L) (Fin.natAdd m j) x =
      Fin.append U (Function.update L j x) := by
  funext k
  refine Fin.addCases (fun i => ?_) (fun i => ?_) k
  · have hne : Fin.castAdd p i ≠ Fin.natAdd m j := fun e => by
      have := congrArg Fin.val e
      simp at this
      omega
    rw [Function.update_of_ne hne, Fin.append_left, Fin.append_left]
  · by_cases hi : i = j
    · subst hi
      simp
    · have hne : Fin.natAdd m i ≠ Fin.natAdd m j := fun e => hi (Fin.natAdd_injective p m e)
      rw [Function.update_of_ne hne, Fin.append_right, Fin.append_right, Function.update_of_ne hi]

omit [Tier T K V E] in
theorem mapError_id {α : Type} (x : Except E α) : x.mapError id = x := by
  cases x <;> rfl

omit [Tier T K V E] in
theorem record_mapError {F : Type} (c : TierCall K V) (f : E → F) (x : Except E c.Output)
    (counters : Counters) : Counters.record c (x.mapError f) counters =
      Counters.record c x counters := by
  cases x with
  | error e => cases c <;> rfl
  | ok a =>
    cases c with
    | get key => cases a <;> rfl
    | exists_ key => cases a <;> rfl
    | _ => rfl

theorem run_upper {α β : Type} {post : α → β → Prop} {x : RouterM m K V E α}
    {x' : RouterM (m + p) K V E β}
    (h : Program.Sim (Router.Placed (Fin.castAdd p) id) post x x') (U : Stack T m)
    (L : Stack T p) :
    post (run x U).1 (run x' (Fin.append U L)).1 ∧
      (run x' (Fin.append U L)).2 = Fin.append (run x U).2 L := by
  have hstep : ∀ (q : Query m K V) (q' : Query (m + p) K V)
      (ans : Answer m K V E q → Answer (m + p) K V E q' → Prop) (s : Stack T m)
      (t : Stack T (m + p)), Router.Placed (Fin.castAdd p) id q q' ans → t = Fin.append s L →
      ans (exec q s).1 (exec q' t).1 ∧ (exec q' t).2 = Fin.append (exec q s).2 L := ?_
  · exact h.run hstep rfl
  rintro q q' ans s t ⟨i, c⟩ rfl
  have hslot : (Fin.append s L) (Fin.castAdd p i) = s i := Fin.append_left s L i
  refine ⟨?_, ?_⟩
  · change (Tier.call (Fin.append s L (Fin.castAdd p i)).tier c).1 = _
    rw [hslot]
    exact (mapError_id _).symm
  · change Function.update (Fin.append s L) (Fin.castAdd p i) _ = _
    rw [append_update_castAdd, hslot]
    rfl

theorem run_lower {α β : Type} {post : α → β → Prop} {x : RouterM p K V E α}
    {x' : RouterM (m + p) K V E β}
    (h : Program.Sim (Router.Placed (Fin.natAdd m) id) post x x') (U : Stack T m)
    (L : Stack T p) :
    post (run x L).1 (run x' (Fin.append U L)).1 ∧
      (run x' (Fin.append U L)).2 = Fin.append U (run x L).2 := by
  have hstep : ∀ (q : Query p K V) (q' : Query (m + p) K V)
      (ans : Answer p K V E q → Answer (m + p) K V E q' → Prop) (s : Stack T p)
      (t : Stack T (m + p)), Router.Placed (Fin.natAdd m) id q q' ans → t = Fin.append U s →
      ans (exec q s).1 (exec q' t).1 ∧ (exec q' t).2 = Fin.append U (exec q s).2 := ?_
  · exact h.run hstep rfl
  rintro q q' ans s t ⟨j, c⟩ rfl
  have hslot : (Fin.append U s) (Fin.natAdd m j) = s j := Fin.append_right U s j
  refine ⟨?_, ?_⟩
  · change (Tier.call (Fin.append U s (Fin.natAdd m j)).tier c).1 = _
    rw [hslot]
    exact (mapError_id _).symm
  · change Function.update (Fin.append U s) (Fin.natAdd m j) _ = _
    rw [append_update_natAdd, hslot]
    rfl

theorem run_under {α β : Type} {post : α → β → Prop} {x : RouterM p K V E α}
    {x' : RouterM (p + 1) K V (RouterError E ⊕ E) β}
    (h : Program.Sim (Router.Placed Fin.succ Sum.inr) post x x') (a : Router m)
    (counters : Counters) (U : Stack T m) (L : Stack T p) :
    post (run x L).1 (run x' (nest a counters U L)).1 ∧
      (run x' (nest a counters U L)).2 = nest a counters U (run x L).2 := by
  have hstep : ∀ (q : Query p K V) (q' : Query (p + 1) K V)
      (ans : Answer p K V E q → Answer (p + 1) K V (RouterError E ⊕ E) q' → Prop)
      (s : Stack T p) (t : Stack (RouterTier T m ⊕ T) (p + 1)),
      Router.Placed Fin.succ Sum.inr q q' ans → t = nest a counters U s →
      ans (exec q s).1 (exec q' t).1 ∧ (exec q' t).2 = nest a counters U (exec q s).2 := ?_
  · exact h.run hstep rfl
  rintro q q' ans s t ⟨j, c⟩ rfl
  have hcall : Tier.call (nest a counters U s j.succ).tier c =
      ((Tier.call (s j).tier c).1.mapError Sum.inr, .inr (Tier.call (s j).tier c).2) :=
    call_inr (s j).tier c
  refine ⟨congrArg Prod.fst hcall, ?_⟩
  change Function.update (nest a counters U s) j.succ _ = _
  rw [hcall]
  dsimp only
  rw [record_mapError, nest, ← Fin.cons_update]
  refine congrArg _ (funext fun k => ?_)
  by_cases hk : k = j
  · subst hk
    simp [exec]
  · rw [Function.update_of_ne hk, exec_other _ _ hk]

theorem SameKind.cross {F G α : Type} {x : Except (RouterError E) α} {y : Except (RouterError F) α}
    {z : Except (RouterError G) α} (h : SameKind x y) (h' : SameKind x z) : SameKind y z :=
  h.symm.trans h'

/-- The flat and the nested stack end alike: with results of one kind, and with the same upper
and the same lower tiers. -/
def EndAlike {α : Type} (a : Router m) (x : Except (RouterError E) α × Stack T (m + p))
    (y : Except (RouterError (RouterError E ⊕ E)) α × Stack (RouterTier T m ⊕ T) (p + 1)) : Prop :=
  SameKind x.1 y.1 ∧ ∃ counters U L, x.2 = Fin.append U L ∧ y.2 = nest a counters U L

variable {a : Router m} {b : Router p}

theorem flat_policy : (a.flat b).policy = a.policy := rfl
theorem nested_policy : (a.nested b).policy = a.policy := rfl

theorem flat_castAdd (i : Fin m) : (a.flat b).writable (Fin.castAdd p i) = a.writable i :=
  Fin.append_left a.writable b.writable i

theorem flat_natAdd (j : Fin p) : (a.flat b).writable (Fin.natAdd m j) = b.writable j :=
  Fin.append_right a.writable b.writable j

theorem nested_succ (j : Fin p) : (a.nested b).writable j.succ = b.writable j := rfl

/-- What two programs over the lower tiers end with, side by side and under the nested router. -/
theorem endAlike_lower {α : Type} {x : RouterM p K V E (Except (RouterError E) α)}
    {y : RouterM (m + p) K V E (Except (RouterError E) α)}
    {z : RouterM (p + 1) K V (RouterError E ⊕ E) (Except (RouterError (RouterError E ⊕ E)) α)}
    (hy : Program.Sim (Router.Placed (Fin.natAdd m) id) SameKind x y)
    (hz : Program.Sim (Router.Placed Fin.succ Sum.inr) SameKind x z) (counters : Counters)
    (U : Stack T m) (L : Stack T p) :
    EndAlike a (run y (Fin.append U L)) (run z (nest a counters U L)) := by
  obtain ⟨hflat, hstack⟩ := run_lower hy U L
  obtain ⟨hnest, hstack'⟩ := run_under hz a counters U L
  exact ⟨SameKind.cross hflat hnest, counters, U, (run x L).2, hstack, hstack'⟩

/-- What a program returns whatever it is answered, it returns in a run. -/
theorem post_of_safe {n : Nat} {α : Type} {x : RouterM n K V E α} {post : α → Prop}
    (h : x.Safe (fun _ => True) (fun _ _ => True) post) (s : Stack T n) : post (run x s).1 :=
  (h.trace (Program.run_trace exec x s) fun _ _ => trivial).2

/-! ### Single-key reads -/

theorem exec_top (counters : Counters) (U : Stack T m) (L : Stack T p) (c : TierCall K V) :
    ∃ counters', exec (0, c) (nest a counters U L) =
      ((Tier.call (⟨a, U⟩ : RouterTier T m) c).1.mapError Sum.inl,
        nest a counters' (Tier.call (⟨a, U⟩ : RouterTier T m) c).2.stack L) := by
  have hkeeps : (Tier.call (⟨a, U⟩ : RouterTier T m) c).2 =
      ⟨a, (Tier.call (⟨a, U⟩ : RouterTier T m) c).2.stack⟩ := by
    cases c <;> rfl
  have hcall : Tier.call (nest a counters U L 0).tier c =
      ((Tier.call (⟨a, U⟩ : RouterTier T m) c).1.mapError Sum.inl,
        .inl (Tier.call (⟨a, U⟩ : RouterTier T m) c).2) := call_inl (⟨a, U⟩ : RouterTier T m) c
  refine ⟨Counters.record c (Tier.call (nest a counters U L 0).tier c).1 counters, ?_⟩
  change ((Tier.call (nest a counters U L 0).tier c).1, Function.update (nest a counters U L) 0
    ⟨(Tier.call (nest a counters U L 0).tier c).2,
      Counters.record c (Tier.call (nest a counters U L 0).tier c).1 counters⟩) = _
  generalize Counters.record c (Tier.call (nest a counters U L 0).tier c).1 counters = counters'
  rw [hcall]
  dsimp only
  rw [nest, Fin.update_cons_zero, nest, ← hkeeps]

theorem probe_nested (hb : b.policy = a.policy) {c : TierCall K V} {found : c.Output → Bool}
    {miss : c.Output} (hmiss : found miss = false) {U : Stack T m}
    (hcall : Tier.call (⟨a, U⟩ : RouterTier T m) c =
      ((run (a.probeDown (fun t => Program.ask (t, c)) found miss (List.finRange m) []) U).1,
        ⟨a, (run (a.probeDown (fun t => Program.ask (t, c)) found miss (List.finRange m) []) U).2⟩))
    (counters : Counters) (L : Stack T p) :
    EndAlike a
      (run ((a.flat b).probeDown (fun t => Program.ask (t, c)) found miss
        (List.finRange (m + p)) []) (Fin.append U L))
      (run ((a.nested b).probeDown (fun t => Program.ask (t, c)) found miss
        (List.finRange (p + 1)) []) (nest a counters U L)) := by
  have hsim : Program.Sim (Router.Placed (Fin.castAdd p) id) SameKind
      (a.probeDown (fun t => Program.ask (t, c)) found miss (List.finRange m) [])
      ((a.flat b).probeDown (fun t => Program.ask (t, c)) found miss
        ((List.finRange m).map (Fin.castAdd p)) [] : RouterM (m + p) K V E _) :=
    Router.probeDown_placed flat_policy
      (fun i => Router.ask_placed i c) found miss _ Iff.rfl
  obtain ⟨hkind, hstack⟩ := run_upper hsim U L
  obtain ⟨counters', htop⟩ := exec_top (a := a) counters U L c
  rw [hcall] at htop
  have hlower {fs : List (TierFailure E)} {fs' : List (TierFailure (RouterError E ⊕ E))}
      (hfs : fs = [] ↔ fs' = []) (U' : Stack T m) : EndAlike a
        (run ((a.flat b).probeDown (fun t => Program.ask (t, c)) found miss
          ((List.finRange p).map (Fin.natAdd m)) fs) (Fin.append U' L))
        (run ((a.nested b).probeDown (fun t => Program.ask (t, c)) found miss
          ((List.finRange p).map Fin.succ) fs') (nest a counters' U' L)) := by
    refine endAlike_lower (x := b.probeDown (fun t => Program.ask (t, c)) found miss
      (List.finRange p) fs) ?_ ?_ counters' U' L
    · exact Router.probeDown_placed (flat_policy.trans hb.symm) (fun i => Router.ask_placed i c)
        found miss _ Iff.rfl
    · exact Router.probeDown_placed (nested_policy.trans hb.symm) (fun i => Router.ask_placed i c)
        found miss _ hfs
  have hinner : ∀ e, (run (a.probeDown (fun t => Program.ask (t, c)) found miss
      (List.finRange m) []) U).1 = .error e → _ :=
    post_of_safe (Router.probeDown_errors fun _ => rfl) U
  have houter : ∀ e, (run ((a.flat b).probeDown (fun t => Program.ask (t, c)) found miss
      ((List.finRange m).map (Fin.castAdd p)) []) (Fin.append U L)).1 = .error e → _ :=
    post_of_safe (Router.probeDown_errors fun _ => rfl) (Fin.append U L)
  rw [finRange_add, Router.probeDown_append _ _ hmiss, List.finRange_succ, Router.probeDown,
    run_bind, run_bind]
  generalize run (a.probeDown (fun t => Program.ask (t, c)) found miss (List.finRange m) []) U = out
    at *
  generalize run ((a.flat b).probeDown (fun t => Program.ask (t, c)) found miss
    ((List.finRange m).map (Fin.castAdd p)) []) (Fin.append U L) = out' at *
  obtain ⟨x, U'⟩ := out
  obtain ⟨x', s'⟩ := out'
  obtain rfl : s' = Fin.append U' L := hstack
  have hask : run (Program.ask (0, c)) (nest a counters U L) =
      (x.mapError Sum.inl, nest a counters' U' L) := htop
  rw [hask]
  cases x with
  | ok v =>
    obtain rfl : x' = .ok v := by
      cases x' with
      | ok w => cases hkind; rfl
      | error e => cases hkind
    change EndAlike a (run (if found v then _ else _ : RouterM (m + p) K V E _) _)
      (run (if found v then _ else _ : RouterM (p + 1) K V _ _) _)
    split
    · exact ⟨rfl, counters', U', L, rfl, rfl⟩
    · exact hlower (iff_of_true rfl rfl) U'
  | error e =>
    obtain ⟨e', rfl, hsame⟩ : ∃ e', x' = .error e' ∧ e.kind = e'.kind := by
      cases x' with
      | ok w => cases hkind
      | error e' => exact ⟨e', rfl, Except.error.inj hkind⟩
    obtain ⟨hfail, htier⟩ | ⟨hfail, fs, hfs, rfl⟩ := hinner e rfl
    · obtain ⟨f', rfl⟩ : ∃ f', e' = .tier f' := by
        rw [htier] at hsame
        cases e' with
        | tier f' => exact ⟨f', rfl⟩
        | _ => cases hsame
      rw [nested_policy, hfail]
      exact ⟨rfl, counters', U', L, rfl, rfl⟩
    · obtain ⟨fs', hfs', rfl⟩ : ∃ fs', fs' ≠ [] ∧ e' = .inconclusive fs' := by
        obtain ⟨hfast, -⟩ | ⟨-, h⟩ := houter e' rfl
        · rw [flat_policy, hfail] at hfast
          cases hfast
        · exact h
      rw [nested_policy, hfail]
      exact hlower (by simp [hfs']) U'

/-! ### Deletes -/

theorem delete_nested (key : K) (counters : Counters) (U : Stack T m) (L : Stack T p) :
    EndAlike a (run ((a.flat b).delete key) (Fin.append U L))
      (run ((a.nested b).delete key) (nest a counters U L)) := by
  have hsim : Program.Sim (Router.Placed (Fin.castAdd p) id) SameKind
      (a.deleteTiers key (List.finRange m) false [])
      ((a.flat b).deleteTiers key ((List.finRange m).map (Fin.castAdd p)) false [] :
        RouterM (m + p) K V E _) :=
    Router.deleteTiers_placed flat_castAdd key _ Iff.rfl fun _ => rfl
  obtain ⟨hkind, hstack⟩ := run_upper hsim U L
  obtain ⟨counters', htop⟩ := exec_top (a := a) counters U L (.delete key)
  have hlower {e e' : Bool} {fs : List (TierFailure E)}
      {fs' : List (TierFailure (RouterError E ⊕ E))} (hfs : fs = [] ↔ fs' = [])
      (he : fs = [] → e = e') (U' : Stack T m) : EndAlike a
        (run ((a.flat b).deleteTiers key ((List.finRange p).map (Fin.natAdd m)) e fs)
          (Fin.append U' L))
        (run ((a.nested b).deleteTiers key ((List.finRange p).map Fin.succ) e' fs')
          (nest a counters' U' L)) := by
    refine endAlike_lower (x := b.deleteTiers key (List.finRange p) e fs) ?_ ?_ counters' U' L
    · exact Router.deleteTiers_placed flat_natAdd key _ Iff.rfl fun _ => rfl
    · exact Router.deleteTiers_placed nested_succ key _ hfs he
  have hinner : ∀ e, (run (a.deleteTiers key (List.finRange m) false []) U).1 = .error e → _ :=
    post_of_safe (Router.deleteTiers_errors a key _ false []) U
  have houter : ∀ e, (run ((a.flat b).deleteTiers key ((List.finRange m).map (Fin.castAdd p)) false
      []) (Fin.append U L)).1 = .error e → _ :=
    post_of_safe (Router.deleteTiers_errors _ key _ false []) (Fin.append U L)
  have hcall : Tier.call (⟨a, U⟩ : RouterTier T m) (.delete key) =
      ((run (a.deleteTiers key (List.finRange m) false []) U).1,
        ⟨a, (run (a.deleteTiers key (List.finRange m) false []) U).2⟩) := rfl
  rw [hcall] at htop
  rw [Router.delete, Router.delete, finRange_add, Router.deleteTiers_append, List.finRange_succ,
    Router.deleteTiers]
  change EndAlike a (run (_ >>= _) _) (run (deleteAt 0 key >>= _) _)
  rw [run_bind, run_bind]
  generalize run (a.deleteTiers key (List.finRange m) false []) U = out at *
  generalize run ((a.flat b).deleteTiers key ((List.finRange m).map (Fin.castAdd p)) false [])
    (Fin.append U L) = out' at *
  obtain ⟨x, U'⟩ := out
  obtain ⟨x', s'⟩ := out'
  obtain rfl : s' = Fin.append U' L := hstack
  have hask : run (deleteAt 0 key) (nest a counters U L) =
      (x.mapError Sum.inl, nest a counters' U' L) := htop
  rw [hask]
  cases x with
  | ok existed =>
    obtain rfl : x' = .ok existed := by
      cases x' with
      | ok w => cases hkind; rfl
      | error e => cases hkind
    exact hlower (iff_of_true rfl rfl) (fun _ => (Bool.false_or existed).symm) U'
  | error e =>
    obtain ⟨fs, hfs, rfl⟩ := hinner e rfl
    obtain ⟨e', rfl⟩ : ∃ e', x' = .error e' := by
      cases x' with
      | ok w => cases hkind
      | error e' => exact ⟨e', rfl⟩
    obtain ⟨fs', hfs', rfl⟩ := houter e' rfl
    exact hlower (by simp [hfs']) (fun hnil => absurd hnil hfs') U'

/-! ### Writes -/

def fallOff (b : Router p) (demoted : Bool) (entries : Displaced K V) (L : Stack T p) :
    Displaced K V × Stack T p :=
  if demoted then run (b.demoteDown (List.finRange p) entries) L else (entries, L)

theorem fallOff_append (b : Router p) (demoted : Bool) (entries more : Displaced K V)
    (L : Stack T p) : fallOff b demoted (entries ++ more) L =
      ((fallOff b demoted entries L).1 ++
          (fallOff b demoted more (fallOff b demoted entries L).2).1,
        (fallOff b demoted more (fallOff b demoted entries L).2).2) := by
  cases demoted with
  | false => rfl
  | true => exact run_demoteDown_append b (List.nodup_finRange p) entries more L

theorem fallOff_nil (b : Router p) (demoted : Bool) (L : Stack T p) :
    fallOff b demoted ([] : Displaced K V) L = ([], L) := by
  cases demoted with
  | false => rfl
  | true => rw [fallOff, if_pos rfl, Router.demoteDown_nil]; rfl

/-- A demotion of the flat router goes through the upper tiers first. -/
theorem run_demote (i : Fin m) (entries : Displaced K V) (U : Stack T m) (L : Stack T p) :
    run ((a.flat b).demote (Fin.castAdd p i) entries) (Fin.append U L) =
      ((run (b.demoteDown (List.finRange p) (run (a.demote i entries) U).1) L).1,
        Fin.append (run (a.demote i entries) U).2
          (run (b.demoteDown (List.finRange p) (run (a.demote i entries) U).1) L).2) := by
  obtain ⟨hupper, hstack⟩ := run_upper
    (Router.demoteDown_placed (r := a.flat b) flat_castAdd (tiersBelow i) entries) U L
  obtain ⟨hlower, hstack'⟩ := run_lower
    (Router.demoteDown_placed (r := a.flat b) flat_natAdd (List.finRange p)
      (run (a.demote i entries) U).1) (run (a.demote i entries) U).2 L
  rw [Router.demote, tiersBelow_castAdd, Router.demoteDown_append, run_bind, hstack, ← hupper]
  exact Prod.ext hlower.symm hstack'

theorem writeThrough_accepted {n : Nat} {r : Router n}
    {write : Fin n → RouterM n K V E (Except E (Displaced K V))}
    (hok : ∀ t (s : Stack T n), AllAccepted (write t) s → ∃ d, (run (write t) s).1 = .ok d)
    {tiers : List (Fin n)} {evicted : Displaced K V} {s : Stack T n}
    (hacc : AllAccepted (r.writeThrough write tiers evicted) s) :
    ∃ out, (run (r.writeThrough write tiers evicted) s).1 = .ok out := by
  induction tiers generalizing evicted s with
  | nil => exact ⟨evicted, rfl⟩
  | cons t above ih =>
    rw [Router.writeThrough] at hacc ⊢
    split at hacc
    · next hw =>
      rw [if_pos hw]
      exact ih hacc
    · next hw =>
      rw [if_neg hw]
      obtain ⟨hput, hacc⟩ := (allAccepted_bind _ _ _).1 hacc
      obtain ⟨displaced, hdisplaced⟩ := hok t s hput
      rw [run_bind]
      rw [hdisplaced] at hacc ⊢
      dsimp only at hacc ⊢
      split at hacc
      · next hempty =>
        rw [if_pos hempty]
        exact ih hacc
      · next hempty =>
        rw [if_neg hempty]
        split at hacc
        · next hdemote =>
          rw [if_pos hdemote, run_bind]
          exact ih ((allAccepted_bind _ _ _).1 hacc).2
        · next hdemote =>
          rw [if_neg hdemote]
          exact ih hacc

section Writes
variable {writeA : Fin m → RouterM m K V E (Except E (Displaced K V))}
  {writeF : Fin (m + p) → RouterM (m + p) K V E (Except E (Displaced K V))}
  {writeB : Fin p → RouterM p K V E (Except E (Displaced K V))}
  {writeN : Fin (p + 1) → RouterM (p + 1) K V (RouterError E ⊕ E)
    (Except (RouterError E ⊕ E) (Displaced K V))}
  (hok : ∀ t (s : Stack T (m + p)), AllAccepted (writeF t) s → ∃ d, (run (writeF t) s).1 = .ok d)
  (hA : ∀ i, Program.Sim (Router.Placed (Fin.castAdd p) id) (fun a a' => a' = a.mapError id)
    (writeA i) (writeF (Fin.castAdd p i)))

include hok hA

/-- The writes of the upper tiers: what the upper router alone lets fall is what falls down the
lower tiers, tier by tier, in the flat router. -/
theorem writeThrough_upper (tiers : List (Fin m)) (kept evicted : Displaced K V) (U : Stack T m)
    (L : Stack T p)
    (hacc : AllAccepted ((a.flat b).writeThrough writeF (tiers.map (Fin.castAdd p)) evicted)
      (Fin.append U L)) :
    ∃ fallen, (run (a.writeThrough writeA tiers kept) U).1 = .ok (kept ++ fallen) ∧
      run ((a.flat b).writeThrough writeF (tiers.map (Fin.castAdd p)) evicted) (Fin.append U L) =
        (.ok (evicted ++ (fallOff b a.policy.demoteDisplaced fallen L).1),
          Fin.append (run (a.writeThrough writeA tiers kept) U).2
            (fallOff b a.policy.demoteDisplaced fallen L).2) := by
  induction tiers generalizing kept evicted U L with
  | nil =>
    refine ⟨[], by rw [List.append_nil]; rfl, ?_⟩
    rw [fallOff_nil, List.append_nil]
    rfl
  | cons i rest ih =>
    rw [List.map_cons, Router.writeThrough, flat_castAdd] at hacc
    rw [List.map_cons, Router.writeThrough, Router.writeThrough, flat_castAdd]
    cases hw : a.writable i with
    | false =>
      rw [hw] at hacc
      exact ih kept evicted U L hacc
    | true =>
      rw [hw] at hacc
      simp only [Bool.not_true, Bool.false_eq_true, if_false] at hacc ⊢
      obtain ⟨hput, hacc⟩ := (allAccepted_bind _ _ _).1 hacc
      obtain ⟨displaced, hdisplaced⟩ := hok _ _ hput
      obtain ⟨hanswer, hstack⟩ := run_upper (hA i) U L
      rw [run_bind, run_bind]
      generalize run (writeF (Fin.castAdd p i)) (Fin.append U L) = out' at *
      generalize run (writeA i) U = out at *
      obtain ⟨x, U₁⟩ := out
      obtain ⟨x', s'⟩ := out'
      obtain rfl : x' = .ok displaced := hdisplaced
      obtain rfl : s' = Fin.append U₁ L := hstack
      obtain rfl : x = .ok displaced := (mapError_id x).symm.trans hanswer.symm
      dsimp only at hacc ⊢
      by_cases hempty : displaced.isEmpty = true
      · rw [if_pos hempty] at hacc ⊢
        rw [if_pos hempty]
        exact ih kept evicted U₁ L hacc
      · rw [if_neg hempty] at hacc ⊢
        rw [if_neg hempty]
        by_cases hdemote : a.policy.demoteDisplaced = true
        · rw [flat_policy, if_pos hdemote] at hacc ⊢
          rw [if_pos hdemote]
          have hdown := run_demote (a := a) (b := b) i displaced U₁ L
          have hfall (es : Displaced K V) (L : Stack T p) :
              run (b.demoteDown (List.finRange p) es) L =
                fallOff b a.policy.demoteDisplaced es L := by
            rw [fallOff, if_pos hdemote]
          rw [hfall] at hdown
          obtain ⟨-, hacc⟩ := (allAccepted_bind _ _ _).1 hacc
          rw [run_bind, run_bind]
          rw [hdown] at hacc ⊢
          obtain ⟨fallen, hfallen, hrun⟩ :=
            ih (kept ++ (run (a.demote i displaced) U₁).1) _ _ _ hacc
          refine ⟨(run (a.demote i displaced) U₁).1 ++ fallen, ?_, ?_⟩
          · rw [hfallen, List.append_assoc]
          · rw [hrun, fallOff_append, List.append_assoc]
        · rw [flat_policy, if_neg hdemote] at hacc ⊢
          rw [if_neg hdemote]
          obtain ⟨fallen, hfallen, hrun⟩ := ih (kept ++ displaced) (evicted ++ displaced) U₁ L hacc
          refine ⟨displaced ++ fallen, by rw [hfallen, List.append_assoc], ?_⟩
          rw [hrun, fallOff_append]
          have hkeep : fallOff b a.policy.demoteDisplaced displaced L = (displaced, L) := by
            rw [fallOff, if_neg hdemote]
          rw [hkeep, List.append_assoc]

theorem write_nested (hb : b.policy = a.policy)
    (hB : ∀ j, Program.Sim (Router.Placed (Fin.natAdd m) id) (fun a a' => a' = a.mapError id)
      (writeB j) (writeF (Fin.natAdd m j)))
    (hN : ∀ j, Program.Sim (Router.Placed Fin.succ Sum.inr) (fun a a' => a' = a.mapError Sum.inr)
      (writeB j) (writeN j.succ))
    (counters : Counters) (U : Stack T m) (L : Stack T p)
    (htop : ∀ L : Stack T p, ∃ counters', run (writeN 0) (nest a counters U L) =
      ((run (a.writeThrough writeA (List.finRange m).reverse []) U).1.mapError Sum.inl,
        nest a counters' (run (a.writeThrough writeA (List.finRange m).reverse []) U).2 L))
    (hacc : AllAccepted ((a.flat b).writeThrough writeF (List.finRange (m + p)).reverse [])
      (Fin.append U L)) :
    EndAlike a
      (run ((a.flat b).writeThrough writeF (List.finRange (m + p)).reverse []) (Fin.append U L))
      (run ((a.nested b).writeThrough writeN (List.finRange (p + 1)).reverse [])
        (nest a counters U L)) := by
  have hrev : (List.finRange (m + p)).reverse =
      (List.finRange p).reverse.map (Fin.natAdd m) ++
        (List.finRange m).reverse.map (Fin.castAdd p) := by
    rw [finRange_add, List.reverse_append, List.map_reverse, List.map_reverse]
  have hrev' : (List.finRange (p + 1)).reverse = (List.finRange p).reverse.map Fin.succ ++ [0] := by
    rw [List.finRange_succ, List.reverse_cons, List.map_reverse]
  rw [hrev, Router.writeThrough_append] at hacc
  rw [hrev, hrev', Router.writeThrough_append, Router.writeThrough_append, run_bind, run_bind]
  obtain ⟨hlow, hacc⟩ := (allAccepted_bind _ _ _).1 hacc
  obtain ⟨evicted, hevicted⟩ := writeThrough_accepted hok hlow
  obtain ⟨hkind, hstack⟩ := run_lower (Router.writeThrough_placed (flat_policy.trans hb.symm)
    flat_natAdd tiersBelow_natAdd hB (List.finRange p).reverse []) U L
  obtain ⟨hkind', hstack'⟩ := run_under (Router.writeThrough_placed (nested_policy.trans hb.symm)
    nested_succ tiersBelow_succ hN (List.finRange p).reverse []) a counters U L
  generalize run (b.writeThrough writeB (List.finRange p).reverse []) L = low at *
  generalize run ((a.flat b).writeThrough writeF ((List.finRange p).reverse.map (Fin.natAdd m)) [])
    (Fin.append U L) = flat at *
  generalize run ((a.nested b).writeThrough writeN ((List.finRange p).reverse.map Fin.succ) [])
    (nest a counters U L) = nested at *
  obtain ⟨x, L₁⟩ := low
  obtain ⟨x', s'⟩ := flat
  obtain ⟨x'', s''⟩ := nested
  obtain rfl : x' = .ok evicted := hevicted
  obtain rfl : s' = Fin.append U L₁ := hstack
  obtain rfl : s'' = nest a counters U L₁ := hstack'
  obtain rfl : x = .ok evicted := by
    cases x with
    | ok v => cases hkind; rfl
    | error e => cases hkind
  obtain rfl : x'' = .ok evicted := by
    cases x'' with
    | ok v => cases hkind'; rfl
    | error e => cases hkind'
  obtain ⟨fallen, hfallen, hflat⟩ := writeThrough_upper hok hA _ [] evicted U L₁ hacc
  obtain ⟨counters', htop⟩ := htop L₁
  dsimp only
  rw [hflat]
  have hfirst : (a.nested b).writable 0 = true := rfl
  rw [Router.writeThrough, hfirst]
  simp only [Bool.not_true, Bool.false_eq_true, if_false]
  rw [List.nil_append] at hfallen
  rw [run_bind, htop, hfallen]
  change EndAlike a _ (run (if fallen.isEmpty then _ else _ : RouterM (p + 1) K V _ _)
    (nest a counters' (run (a.writeThrough writeA (List.finRange m).reverse []) U).2 L₁))
  by_cases hempty : fallen.isEmpty = true
  · obtain rfl := List.isEmpty_iff.1 hempty
    rw [if_pos hempty, fallOff_nil, List.append_nil]
    exact ⟨rfl, counters', _, _, rfl, rfl⟩
  · rw [if_neg hempty]
    by_cases hdemote : a.policy.demoteDisplaced = true
    · rw [nested_policy, if_pos hdemote, run_bind, Router.demote, tiersBelow_zero, fallOff,
        if_pos hdemote]
      obtain ⟨hout, hdown⟩ := run_under
        (Router.demoteDown_placed (r := a.nested b) nested_succ (List.finRange p) fallen)
        a counters'
        (run (a.writeThrough writeA (List.finRange m).reverse []) U).2 L₁
      rw [hdown, ← hout]
      exact ⟨rfl, counters', _, _, rfl, rfl⟩
    · rw [nested_policy, if_neg hdemote, fallOff, if_neg hdemote]
      exact ⟨rfl, counters', _, _, rfl, rfl⟩

end Writes

/-! ### One call -/

theorem call_get (r : Router m) (key : K) (s : Stack T m) :
    Tier.call (⟨r, s⟩ : RouterTier T m) (.get key) =
      ((run (r.readDown key (List.finRange m) []) s).1,
        ⟨r, (run (r.readDown key (List.finRange m) []) s).2⟩) := by
  have hrun : run (r.get key) s = (some (run (r.readDown key (List.finRange m) []) s).1,
      (run (r.readDown key (List.finRange m) []) s).2) := by
    rw [Router.get_eq, run_map]
  refine Prod.ext ?_ (congrArg (fun out => RouterTier.mk r out) (congrArg Prod.snd hrun))
  exact Option.get_of_eq_some _ (congrArg Prod.fst hrun)

theorem call_exists (r : Router m) (key : K) (s : Stack T m) :
    Tier.call (⟨r, s⟩ : RouterTier T m) (.exists_ key) =
      ((run (r.existsDown key (List.finRange m) []) s).1,
        ⟨r, (run (r.existsDown key (List.finRange m) []) s).2⟩) := by
  have hrun : run (r.exists_ key) s = (some (run (r.existsDown key (List.finRange m) []) s).1,
      (run (r.existsDown key (List.finRange m) []) s).2) := by
    rw [Router.exists_eq, run_map]
  refine Prod.ext ?_ (congrArg (fun out => RouterTier.mk r out) (congrArg Prod.snd hrun))
  exact Option.get_of_eq_some _ (congrArg Prod.fst hrun)

/-- A write all of whose tier calls succeed, or any single-key read or delete. -/
def Nestable (t : RouterTier T m) : TierCall K V → Prop
  | .get _ => True
  | .exists_ _ => True
  | .delete _ => True
  | .put key value => AllAccepted (t.router.put key value) t.stack
  | .putMany entries => AllAccepted (t.router.putMany entries) t.stack
  | .getMany _ => False
  | .deleteMany _ => False

def Nests (a : Router m) (b : Router p) (x : RouterTier T (m + p))
    (y : RouterTier (RouterTier T m ⊕ T) (p + 1)) : Prop :=
  ∃ counters U L, x = ⟨a.flat b, Fin.append U L⟩ ∧ y = ⟨a.nested b, nest a counters U L⟩

theorem EndAlike.nests {c : TierCall K V} {x : RouterTier T (m + p)}
    {y : RouterTier (RouterTier T m ⊕ T) (p + 1)}
    {out : Except (RouterError E) c.Output × Stack T (m + p)}
    {out' : Except (RouterError (RouterError E ⊕ E)) c.Output × Stack (RouterTier T m ⊕ T) (p + 1)}
    (hx : Tier.call x c = (out.1, ⟨a.flat b, out.2⟩))
    (hy : Tier.call y c = (out'.1, ⟨a.nested b, out'.2⟩)) (h : EndAlike a out out') :
    SameKind (Tier.call x c).1 (Tier.call y c).1 ∧
      Nests a b (Tier.call x c).2 (Tier.call y c).2 := by
  obtain ⟨hkind, counters, U, L, hU, hL⟩ := h
  rw [hx, hy]
  exact ⟨hkind, counters, U, L, by rw [hU], by rw [hL]⟩

theorem allAccepted_putManyAt {t : Fin m} {entries : List (K × V)} {s : Stack T m}
    (h : AllAccepted (putManyAt t entries) s) : ∃ d, (exec (t, .putMany entries) s).1 = .ok d := h.1

theorem call_nested (hb : b.policy = a.policy) (hnever : a.policy.read.promote = .never)
    (hthrough : a.policy.write = .writeThrough) {i : Fin m} (hw : a.writable i = true)
    {x : RouterTier T (m + p)} {y : RouterTier (RouterTier T m ⊕ T) (p + 1)} (h : Nests a b x y)
    {c : TierCall K V} (hc : Nestable x c) :
    SameKind (Tier.call x c).1 (Tier.call y c).1 ∧
      Nests a b (Tier.call x c).2 (Tier.call y c).2 := by
  obtain ⟨counters, U, L, rfl, rfl⟩ := h
  have hneverF : (a.flat b).policy.read.promote = .never := hnever
  have hneverN : (a.nested b).policy.read.promote = .never := hnever
  have hthroughF : (a.flat b).policy.write = .writeThrough := hthrough
  have hthroughN : (a.nested b).policy.write = .writeThrough := hthrough
  have hwF : (a.flat b).writable (Fin.castAdd p i) = true := (flat_castAdd i).trans hw
  have hwN : (a.nested b).writable 0 = true := rfl
  cases c with
  | get key =>
    have hcall := call_get a key U
    have hx := call_get (a.flat b) key (Fin.append U L)
    have hy := call_get (a.nested b) key (nest a counters U L)
    rw [Router.readDown_eq_probeDown hnever] at hcall
    rw [Router.readDown_eq_probeDown hneverF] at hx
    rw [Router.readDown_eq_probeDown hneverN] at hy
    exact EndAlike.nests hx hy (probe_nested hb rfl hcall counters L)
  | exists_ key =>
    have hcall := call_exists a key U
    have hx := call_exists (a.flat b) key (Fin.append U L)
    have hy := call_exists (a.nested b) key (nest a counters U L)
    rw [Router.existsDown_eq_probeDown] at hcall hx hy
    exact EndAlike.nests hx hy (probe_nested hb rfl hcall counters L)
  | delete key => exact EndAlike.nests rfl rfl (delete_nested key counters U L)
  | put key value =>
    refine EndAlike.nests rfl rfl ?_
    change AllAccepted ((a.flat b).put key value) _ at hc
    rw [Router.put_through hthroughF hwF] at hc
    rw [Router.put_through hthroughF hwF, Router.put_through hthroughN hwN]
    refine write_nested (fun t s hs => allAccepted_putAt hs) (Router.putAt_placed key value) hb
      (Router.putAt_placed key value) (Router.putAt_placed key value) counters U L (fun L => ?_) hc
    obtain ⟨counters', htop⟩ := exec_top (a := a) counters U L (.put key value)
    refine ⟨counters', ?_⟩
    rw [← Router.put_through hthrough hw]
    exact htop
  | putMany entries =>
    refine EndAlike.nests rfl rfl ?_
    change AllAccepted ((a.flat b).putMany entries) _ at hc
    rw [Router.putMany_through hthroughF hwF] at hc
    rw [Router.putMany_through hthroughF hwF, Router.putMany_through hthroughN hwN]
    refine write_nested (fun t s hs => allAccepted_putManyAt hs) (Router.putManyAt_placed entries)
      hb (Router.putManyAt_placed entries) (Router.putManyAt_placed entries) counters U L
      (fun L => ?_) hc
    obtain ⟨counters', htop⟩ := exec_top (a := a) counters U L (.putMany entries)
    refine ⟨counters', ?_⟩
    rw [← Router.putMany_through hthrough hw]
    exact htop
  | getMany keys => exact hc.elim
  | deleteMany keys => exact hc.elim

end Stack

/-- Nesting routers equals flattening them: after every sequence of reads, deletes and writes
whose tier calls succeed, the tiers are in the same states, and the next such call answers the
same. -/
theorem nesting_flattens [Tier T K V E] (a : Router m) (b : Router p) (hb : b.policy = a.policy)
    (hnever : a.policy.read.promote = .never) (hthrough : a.policy.write = .writeThrough)
    (hw : ∃ i, a.writable i = true) (counters : Counters) (U : Stack T m) (L : Stack T p)
    (calls : List (TierCall K V))
    (hcalls : Runs.Along (fun t c => (Tier.call t c).2) Stack.Nestable
      (⟨a.flat b, Fin.append U L⟩ : RouterTier T (m + p)) calls) :
    let x := calls.foldl (fun t c => (Tier.call t c).2)
      (⟨a.flat b, Fin.append U L⟩ : RouterTier T (m + p))
    let y := calls.foldl (fun t c => (Tier.call t c).2)
      (⟨a.nested b, Stack.nest a counters U L⟩ : RouterTier (RouterTier T m ⊕ T) (p + 1))
    Stack.Nests a b x y ∧
      ∀ c, Stack.Nestable x c → SameKind (Tier.call x c).1 (Tier.call y c).1 := by
  obtain ⟨i, hi⟩ := hw
  have hstart : Stack.Nests a b (⟨a.flat b, Fin.append U L⟩ : RouterTier T (m + p))
      ⟨a.nested b, Stack.nest a counters U L⟩ := ⟨counters, U, L, rfl, rfl⟩
  generalize (⟨a.flat b, Fin.append U L⟩ : RouterTier T (m + p)) = x at *
  generalize (⟨a.nested b, Stack.nest a counters U L⟩ :
    RouterTier (RouterTier T m ⊕ T) (p + 1)) = y at *
  induction calls generalizing x y with
  | nil =>
    exact ⟨hstart, fun c hc => (Stack.call_nested hb hnever hthrough hi hstart hc).1⟩
  | cons c rest ih =>
    exact ih _ hcalls.2 _ (Stack.call_nested hb hnever hthrough hi hstart hcalls.1).2

theorem nesting_flattens_overflow :
    let policy := { Policy.default with demoteDisplaced := true }
    let a := Router.uniform 1 "memory" policy
    let b := Router.uniform 2 "memory" policy
    let U : Stack (MemoryTier Nat Nat) 1 := Stack.build fun _ => .bounded 1
    let L : Stack (MemoryTier Nat Nat) 2 := Stack.build fun _ => .bounded 1
    let calls : List (TierCall Nat Nat) := [.put 1 10, .put 2 20, .delete 1, .putMany [(3, 30)]]
    Stack.Nests a b
      (calls.foldl (fun t c => (Tier.call t c).2)
        (⟨a.flat b, Fin.append U L⟩ : RouterTier (MemoryTier Nat Nat) (1 + 2)))
      (calls.foldl (fun t c => (Tier.call t c).2)
        (⟨a.nested b, Stack.nest a .zero U L⟩ :
          RouterTier (RouterTier (MemoryTier Nat Nat) 1 ⊕ MemoryTier Nat Nat) (2 + 1))) := by
  intro policy a b U L calls
  refine (nesting_flattens a b rfl rfl rfl ⟨0, rfl⟩ .zero U L calls ?_).1
  refine ⟨?_, ?_, trivial, ?_, trivial⟩
  all_goals exact Stack.allAccepted_infallible _ _

end Shapes
end Tierstore
