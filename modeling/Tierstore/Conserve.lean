import Tierstore.Stack

/-! Conservation: as long as the entries that tiers reject on the move are shown anyway, demotions
only shift entries down, and what leaves the stack is what the router returns. -/
namespace Tierstore
open Overlay Effects

namespace Router
variable {n : Nat} {K V E : Type} (r : Router n)

theorem demoteDown_nil (tiers : List (Fin n)) :
    (r.demoteDown tiers [] : RouterM n K V E _) = pure [] := by
  cases tiers <;> rfl

theorem demoteDown_append (above below : List (Fin n)) (entries : Displaced K V) :
    (r.demoteDown (above ++ below) entries : RouterM n K V E _) =
      r.demoteDown above entries >>= r.demoteDown below := by
  induction above generalizing entries with
  | nil => rfl
  | cons t above ih =>
    rw [List.cons_append, demoteDown, demoteDown]
    split
    · next hempty =>
      obtain rfl := List.isEmpty_iff.1 hempty
      exact (r.demoteDown_nil below).symm
    · split
      · exact ih entries
      · rw [bind_assoc]
        exact congrArg _ (funext fun next => ih next)

theorem demoteInto_avoids {t target : Fin n} (h : target ≠ t) (current next : Displaced K V) :
    (demoteInto (E := E) target current next).Safe (fun q => q.1 ≠ t) (fun _ _ => True)
      (fun _ => True) := by
  induction current generalizing next with
  | nil => trivial
  | cons e rest ih =>
    refine ⟨h, fun answer _ => ?_⟩
    cases answer with
    | ok displaced => exact ih _
    | error source => exact ih _

theorem demoteDown_avoids {t : Fin n} {tiers : List (Fin n)} (h : t ∉ tiers)
    (entries : Displaced K V) :
    (r.demoteDown (E := E) tiers entries).Safe (fun q => q.1 ≠ t) (fun _ _ => True)
      (fun _ => True) := by
  induction tiers generalizing entries with
  | nil => trivial
  | cons target below ih =>
    obtain ⟨hne, hbelow⟩ := not_or.1 (mt List.mem_cons.2 h)
    rw [demoteDown]
    split
    · trivial
    · split
      · exact ih hbelow entries
      · exact (demoteInto_avoids (Ne.symm hne) entries []).bind fun next _ => ih hbelow next

end Router

namespace Stack
variable {T K V E : Type} {n : Nat} [DecidableEq K] [Tier T K V E] [LawfulTier T]

theorem put_conserves {s : Stack T n} {t : Fin n} {k : K} {v : V} {d : Displaced K V}
    (h : (exec (t, .put k v) s).1 = .ok d) :
    atop ((exec (t, .put k v) s).2.held t) (latest d) = write (s.held t) [(k, v)] := by
  have ht := held_exec (t, .put k v) s
  rw [ht]
  exact LawfulTier.put_ok (s t).tier k v d h

theorem putMany_conserves {s : Stack T n} {t : Fin n} {es : List (K × V)} {d : Displaced K V}
    (h : (exec (t, .putMany es) s).1 = .ok d) :
    atop ((exec (t, .putMany es) s).2.held t) (latest d) = write (s.held t) es := by
  have ht := held_exec (t, .putMany es) s
  rw [ht]
  exact LawfulTier.putMany_ok (s t).tier es d h

theorem put_rejected {s : Stack T n} {t : Fin n} {k : K} {v : V} {e : E}
    (h : (exec (t, .put k v) s).1 = .error e) : (exec (t, .put k v) s).2.held = s.held :=
  held_exec_read (LawfulTier.put_error (s t).tier k v e h)

/-! ## Demotion -/

omit [DecidableEq K] [LawfulTier T] in
theorem run_demote_nil (r : Router n) (t : Fin n) (s : Stack T n) :
    run (r.demote t ([] : Displaced K V) : RouterM n K V E _) s = ([], s) := by
  rw [Router.demote, Router.demoteDown_nil]
  rfl

/-- The stack shows `e` without it: a tier of `above` has its key, or `target`, the entries `next`
that it has displaced and the tiers below it show its value. -/
def Dispensable (above : List (Fin n)) (target : Fin n) (below : List (Fin n))
    (next : Displaced K V) (s : Stack T n) (e : K × V) : Prop :=
  s.view above e.1 = none → atop (s.held target) (atop (latest next) (s.view below)) e.1 = some e.2

/-- Every entry that `target` rejects is dispensable or under a key of `free`. -/
def DispensesInto (free : List K) (above : List (Fin n)) (target : Fin n) (below : List (Fin n)) :
    Displaced K V → Displaced K V → Stack T n → Prop
  | [], _, _ => True
  | e :: rest, next, s =>
    match exec (target, .put e.1 e.2) s with
    | (.ok displaced, s') => DispensesInto free above target below rest (next ++ displaced) s'
    | (.error _, s') =>
      (e.1 ∉ free → Dispensable above target below next s e) ∧
        DispensesInto free above target below rest next s'

/-- The same at every tier that `demoteDown` passes. -/
def Dispenses (free : List K) : List (Fin n) → List (Fin n) → Displaced K V → Stack T n → Prop
  | _, [], _, _ => True
  | above, target :: below, current, s =>
    DispensesInto free above target below current [] s ∧
      Dispenses free (above ++ [target]) below (run (Router.demoteInto target current []) s).1
        (run (Router.demoteInto target current []) s).2

section Rejections
variable {free : List K} {above below : List (Fin n)} {target : Fin n}

/-- The entries put into `target` and the ones it displaces keep their order; what it rejects, the
stack shows anyway. -/
theorem demoteInto_shows (ha : target ∉ above) (hb : target ∉ below)
    (current next : Displaced K V) (s : Stack T n)
    (hrejects : DispensesInto free above target below current next s) {x : K} (hx : x ∉ free) :
    let out := run (Router.demoteInto target current next) s
    atop (s.view above) (atop (out.2.held target) (atop (latest out.1) (s.view below))) x =
      atop (s.view above) (atop (write (s.held target) current)
        (atop (latest next) (s.view below))) x := by
  induction current generalizing next s with
  | nil => simp [Router.demoteInto]
  | cons e rest ih =>
    have hother (tiers : List (Fin n)) (h : target ∉ tiers) :
        (exec (E := E) (target, .put e.1 e.2) s).2.view tiers = s.view tiers :=
      view_congr fun j hj =>
        exec_other (target, .put e.1 e.2) s fun heq : j = target => h (heq ▸ hj)
    have habove := hother above ha
    have hbelow := hother below hb
    simp only [Router.demoteInto, run_bind, run_putAt]
    rw [DispensesInto] at hrejects
    cases hexec : exec (E := E) (target, .put e.1 e.2) s with
    | mk answer s₁ =>
    rw [hexec] at hrejects habove hbelow
    dsimp only at habove hbelow
    cases answer with
    | ok displaced =>
      have hput := put_conserves (congrArg Prod.fst hexec)
      rw [hexec] at hput
      have hrest := ih (next ++ displaced) s₁ hrejects
      rw [habove, hbelow, latest_append, atop_assoc, ← atop_assoc (write _ _), ← write_atop, hput,
        ← write_cons] at hrest
      exact hrest
    | error source =>
      have hheld := put_rejected (congrArg Prod.fst hexec)
      rw [hexec] at hheld
      have hrest := ih next s₁ hrejects.2
      rw [habove, hbelow, hheld] at hrest
      refine hrest.trans (atop_write_cons_of_shown fun heq hnone => ?_).symm
      exact heq ▸ hrejects.1 (heq ▸ hx) (heq ▸ hnone)

/-- Entries on the move end in the tiers below or are returned. -/
theorem demoteDown_shows (r : Router n) (hw : ∀ i, r.writable i = true)
    (hnd : (above ++ below).Nodup) (current : Displaced K V) (s : Stack T n)
    (hrejects : Dispenses free above below current s) {x : K} (hx : x ∉ free) :
    let out := run (r.demoteDown below current) s
    atop (out.2.view (above ++ below)) (latest out.1) x =
      atop (s.view above) (write (s.view below) current) x := by
  induction below generalizing above current s with
  | nil => simp [Router.demoteDown, view, stacked, write]
  | cons target below ih =>
    obtain ⟨hinto, hdown⟩ := hrejects
    have happend : above ++ target :: below = (above ++ [target]) ++ below := by simp
    obtain ⟨-, htb, hdisjoint⟩ := List.nodup_append.1 hnd
    have ha : target ∉ above := fun h => hdisjoint target h target (by simp) rfl
    have hb : target ∉ below := (List.nodup_cons.1 htb).1
    have hshows := demoteInto_shows ha hb current [] s hinto hx
    have hframe (j : Fin n) (hj : j ≠ target) :
        (run (Router.demoteInto target current []) s).2 j = s j :=
      run_untouched (Router.demoteInto_avoids (Ne.symm hj) current []) s
    have hrun : run (r.demoteDown (target :: below) current) s =
        run (r.demoteDown below (run (Router.demoteInto target current []) s).1)
          (run (Router.demoteInto target current []) s).2 := by
      rw [Router.demoteDown]
      split
      next hempty =>
        obtain rfl := List.isEmpty_iff.1 hempty
        exact congrArg (fun p => run p s) (r.demoteDown_nil below).symm
      next => simp [hw target]
    rw [hrun, happend]
    have hrest := ih (happend ▸ hnd) _ _ hdown
    generalize run (Router.demoteInto target current []) s = into at *
    obtain ⟨next, s₁⟩ := into
    dsimp only at *
    have hsame (tiers : List (Fin n)) (h : target ∉ tiers) : s₁.view tiers = s.view tiers :=
      view_congr fun j hj => hframe j fun heq => h (heq ▸ hj)
    rw [hrest, view_append, view_singleton, hsame above ha, hsame below hb, atop_assoc, write,
      hshows, latest_nil, empty_atop, view_cons, write_atop]

end Rejections

/-! ### Tiers that accept everything -/

theorem dispensesInto_of_accepted (free : List K) (above below : List (Fin n)) (target : Fin n)
    (current next : Displaced K V) (s : Stack T n)
    (hacc : AllAccepted (Router.demoteInto target current next) s) :
    DispensesInto free above target below current next s := by
  induction current generalizing next s with
  | nil => trivial
  | cons e rest ih =>
    rw [Router.demoteInto, allAccepted_bind] at hacc
    obtain ⟨hfirst, hrest⟩ := hacc
    obtain ⟨displaced, hok⟩ := allAccepted_putAt hfirst
    rw [run_putAt] at hrest
    rw [DispensesInto]
    generalize exec (E := E) (target, .put e.1 e.2) s = out at *
    obtain ⟨answer, s₁⟩ := out
    obtain rfl := hok
    exact ih _ s₁ hrest

theorem dispenses_of_accepted (r : Router n) (hw : ∀ i, r.writable i = true) (free : List K)
    (above below : List (Fin n)) (current : Displaced K V) (s : Stack T n)
    (hacc : AllAccepted (r.demoteDown below current) s) : Dispenses free above below current s := by
  induction below generalizing above current s with
  | nil => trivial
  | cons target below ih =>
    rw [Router.demoteDown] at hacc
    split at hacc
    next hempty =>
      obtain rfl := List.isEmpty_iff.1 hempty
      refine ⟨trivial, ih _ _ _ ?_⟩
      cases below <;> trivial
    next =>
      rw [if_neg (by simp [hw target]), allAccepted_bind] at hacc
      exact ⟨dispensesInto_of_accepted free above below target current [] s hacc.1,
        ih _ _ _ hacc.2⟩

theorem demoteDown_conserves (r : Router n) (hw : ∀ i, r.writable i = true) (below : List (Fin n))
    (hnd : below.Nodup) (current : Displaced K V) (s : Stack T n)
    (hacc : AllAccepted (r.demoteDown below current) s) :
    let out := run (r.demoteDown below current) s
    atop (out.2.view below) (latest out.1) = write (s.view below) current ∧
    ∀ j, j ∉ below → out.2 j = s j := by
  refine ⟨funext fun x => ?_, fun j hj => run_untouched (r.demoteDown_avoids hj current) s⟩
  have hnd' : ([] ++ below).Nodup := hnd
  have hrejects := dispenses_of_accepted r hw [] [] below current s hacc
  have hshows := demoteDown_shows r hw hnd' current s hrejects (List.not_mem_nil : x ∉ [])
  simpa [view, stacked] using hshows

/-! ## Writes -/

structure Writes (T : Type) {K V E : Type} {n : Nat} [DecidableEq K] [Tier T K V E]
    [LawfulTier T] (w : Fin n → RouterM n K V E (Except E (Displaced K V)))
    (es : List (K × V)) : Prop where
  other : ∀ (t : Fin n) (s : Stack T n) (j : Fin n), j ≠ t → (run (w t) s).2 j = s j
  conserves : ∀ (t : Fin n) (s : Stack T n) (d : Displaced K V), (run (w t) s).1 = .ok d →
    atop ((run (w t) s).2.held t) (latest d) = write (s.held t) es

theorem writes_put (k : K) (v : V) :
    Writes T (fun t : Fin n => putAt (E := E) t k v) [(k, v)] where
  other t s _ hj := exec_other (t, .put k v) s hj
  conserves _ _ _ h := put_conserves h

theorem writes_putMany (es : List (K × V)) :
    Writes T (fun t : Fin n => putManyAt (E := E) t es) es where
  other t s _ hj := exec_other (t, .putMany es) s hj
  conserves _ _ _ h := putMany_conserves h

/-- What the demotions of the write reject is dispensable, before the last tier also what is under a
key of the write. When a tier rejects the write itself, the stack shows under the other keys what it
did before the call, and has a tier with each key that fell off the bottom. -/
def Settles (r : Router n) (w : Fin n → RouterM n K V E (Except E (Displaced K V)))
    (es : List (K × V)) : List (Fin n) → Displaced K V → Stack T n → Prop
  | [], _, _ => True
  | t :: above, evicted, s =>
    match run (w t) s with
    | (.error _, s') =>
      (∀ k, k ∉ es.map Prod.fst → s'.shown k = s.shown k) ∧
        ∀ e ∈ evicted, e.1 ∉ es.map Prod.fst → s'.shown e.1 ≠ none
    | (.ok displaced, s') =>
      Dispenses (if above = [] then [] else es.map Prod.fst) (above.reverse ++ [t]) (tiersBelow t)
          displaced s' ∧
        Settles r w es above (evicted ++ (run (r.demote t displaced) s').1)
          (run (r.demote t displaced) s').2

section WriteThrough
variable (r : Router n) (hw : ∀ i, r.writable i = true)
  {w : Fin n → RouterM n K V E (Except E (Displaced K V))} {es : List (K × V)}
  (hwrites : Writes T w es)
include hw hwrites

/-- One tier takes the write and spills. -/
theorem spill_shows {above below : List (Fin n)} {t : Fin n}
    (hsplit : List.finRange n = above ++ t :: below) {s : Stack T n} {d : Displaced K V}
    (hd : (run (w t) s).1 = .ok d) {free : List K}
    (hrejects : Dispenses free (above ++ [t]) below d (run (w t) s).2) {x : K} (hx : x ∉ free) :
    let out := run (r.demote t d) (run (w t) s).2
    atop out.2.shown (latest out.1) x = atop (s.view above) (write (s.view (t :: below)) es) x := by
  have hheld := hwrites.conserves t s d hd
  have hother := hwrites.other t s
  have happend : List.finRange n = (above ++ [t]) ++ below := by simp [hsplit]
  obtain ⟨htb, hta⟩ := not_mem_of_split hsplit
  generalize (run (w t) s).2 = s₁ at *
  have hsame (tiers : List (Fin n)) (h : t ∉ tiers) : s₁.view tiers = s.view tiers :=
    view_congr fun j hj => hother j fun heq => h (heq ▸ hj)
  have hdown := demoteDown_shows r hw (happend ▸ List.nodup_finRange n) d s₁ hrejects hx
  dsimp only
  rw [Router.demote, tiersBelow_of_split hsplit, shown, happend, hdown, view_append, view_singleton,
    hsame above hta, hsame below htb, atop_assoc, write, ← atop_assoc (s₁.held t), hheld,
    ← write_atop, view_cons]

omit [DecidableEq K] [LawfulTier T] hwrites in
/-- With demotion on, the loop hands every tier's displaced entries to `demote`. -/
theorem run_writeThrough_cons (hd : r.policy.demoteDisplaced = true) (t : Fin n)
    (above : List (Fin n)) (evicted : Displaced K V) (s : Stack T n) :
    run (r.writeThrough w (t :: above) evicted) s =
      match run (w t) s with
      | (.ok displaced, s') =>
        run (r.writeThrough w above (evicted ++ (run (r.demote t displaced) s').1))
          (run (r.demote t displaced) s').2
      | (.error source, s') =>
        match r.policy.onWriteError with
        | .failFast => (.error (.tier (r.failure t source)), s')
        | .bestEffort => run (r.writeThrough w above evicted) s' := by
  have hwt : (!r.writable t) = false := by simp [hw t]
  rw [Router.writeThrough]
  simp only [hwt, Bool.false_eq_true, if_false, run_bind]
  generalize run (w t) s = out
  obtain ⟨a, s'⟩ := out
  cases a with
  | error source => cases r.policy.onWriteError <;> rfl
  | ok displaced =>
    cases displaced with
    | nil => simp [run_demote_nil]
    | cons e rest => simp [hd]

/-- What a write-through leaves behind: everything is in the stack or in the list it
returns; and if a tier stopped it, the other keys are as before. -/
theorem writeThrough_settled (hd : r.policy.demoteDisplaced = true)
    (hE : E → r.policy.onWriteError = .failFast) {s₀ : Stack T n} (ts done : List (Fin n))
    (hsplit : List.finRange n = ts.reverse ++ done) (evicted : Displaced K V) (s : Stack T n)
    (hothers : ∀ k, k ∉ es.map Prod.fst → atop s.shown (latest evicted) k = s₀.shown k)
    (hlast : ts = [] → atop s.shown (latest evicted) = write s₀.shown es)
    (hset : Settles r w es ts evicted s) :
    match run (r.writeThrough w ts evicted) s with
    | (.ok displaced, s') => atop s'.shown (latest displaced) = write s₀.shown es
    | (.error _, s') => ∀ k, k ∉ es.map Prod.fst → s'.shown k = s₀.shown k := by
  induction ts generalizing done evicted s with
  | nil => exact hlast rfl
  | cons t above ih =>
    have hsplit' : List.finRange n = above.reverse ++ t :: done := by
      rw [hsplit]
      simp
    have hshown : s.shown = atop (s.view above.reverse) (s.view (t :: done)) := by
      rw [shown, hsplit', view_append]
    rw [run_writeThrough_cons r hw hd]
    rw [Settles, tiersBelow_of_split hsplit'] at hset
    cases hrun : run (w t) s with
    | mk answer s' =>
    rw [hrun] at hset
    cases answer with
    | ok displaced =>
      obtain ⟨hrejects, hrest⟩ := hset
      have hspill {x : K} (hx : x ∉ if above = [] then [] else es.map Prod.fst) :=
        spill_shows r hw hwrites hsplit' (congrArg Prod.fst hrun) (hrun ▸ hrejects) hx
      rw [hrun] at hspill
      dsimp only at hspill ⊢
      refine ih (t :: done) hsplit' _ _ (fun k hk => ?_) (fun hnil => ?_) hrest
      · have hk' : k ∉ if above = [] then [] else es.map Prod.fst := by
          split
          · exact List.not_mem_nil
          · exact hk
        rw [latest_append, ← atop_assoc, atop, hspill hk', ← hothers k hk, hshown, atop, atop, atop,
          write_of_notMem hk]
      · -- the first tier has taken the write: nothing of it is left open
        subst hnil
        have hall : atop (run (r.demote t displaced) s').2.shown
            (latest (run (r.demote t displaced) s').1) = write s.shown es := by
          funext x
          rw [hspill (by simp), hshown]
          rfl
        rw [latest_append, ← atop_assoc, hall, ← write_atop]
        exact write_congr hothers
    | error source =>
      obtain ⟨hsame, hheld⟩ := hset
      rw [hE source]
      intro k hk
      rw [← hothers k hk, atop, ← hsame k hk]
      cases hevicted : latest evicted k with
      | none => rw [Option.or_none]
      | some v =>
        have hstill := hheld (k, v) (latest_mem hevicted) hk
        obtain ⟨v', hv'⟩ := Option.ne_none_iff_exists'.1 hstill
        rw [hv', Option.some_or]

theorem write_settled (hd : r.policy.demoteDisplaced = true)
    (hE : E → r.policy.onWriteError = .failFast) (hn : n ≠ 0) {s : Stack T n}
    (hset : Settles r w es (List.finRange n).reverse [] s) :
    match run (r.writeThrough w (List.finRange n).reverse []) s with
    | (.ok displaced, s') => atop s'.shown (latest displaced) = write s.shown es
    | (.error _, s') => ∀ k, k ∉ es.map Prod.fst → s'.shown k = s.shown k :=
  writeThrough_settled r hw hwrites hd hE _ [] (by simp) [] s
    (fun k _ => congrFun (atop_empty s.shown) k) (fun h => absurd h (by simpa using hn)) hset

end WriteThrough

/-! ## A bottom tier that keeps everything -/
section Roomy
variable {U : T → Prop}

def Roomy (U : T → Prop) (s : Stack T n) : Prop := ∀ b : Fin n, b.val + 1 = n → U (s b).tier

omit [DecidableEq K] [LawfulTier T] in
theorem Roomy.last {s : Stack T n} (h : Roomy U s) {above : List (Fin n)} {b : Fin n}
    (hb : List.finRange n = above ++ [b]) : U (s b).tier :=
  h b (by simpa using length_of_split hb)

omit [DecidableEq K] [LawfulTier T] in
theorem roomy_run (hU : Keeping U) {α : Type} (p : RouterM n K V E α) {s : Stack T n}
    (hs : Roomy U s) : Roomy U (run p s).2 :=
  fun b hb => run_keeps hU p b (hs b hb)

omit [DecidableEq K] [LawfulTier T] in
theorem demoteInto_keeping (hU : Keeping U) (target : Fin n) (current next : Displaced K V)
    (s : Stack T n) (hs : U (s target).tier) :
    (run (Router.demoteInto target current next) s).1 = next := by
  induction current generalizing next s with
  | nil => rfl
  | cons e rest ih =>
    obtain ⟨k, v⟩ := e
    have hput := hU.put (s target).tier k v
    have hkeep : U ((exec (E := E) (target, .put k v) s).2 target).tier := by
      rw [exec_tier]
      exact hU.call (s target).tier (.put k v) hs
    have hans := exec_answer (E := E) (target, .put k v) s
    simp only [Router.demoteInto, run_bind, run_putAt]
    generalize exec (E := E) (target, .put k v) s = out at *
    obtain ⟨a, s'⟩ := out
    cases a with
    | ok d =>
      have hd : d = [] := hput d hs hans.symm
      subst hd
      simpa using ih next s' hkeep
    | error source => exact ih next s' hkeep

omit [DecidableEq K] [LawfulTier T] in
theorem demoteDown_roomy (hU : Keeping U) (r : Router n) (hw : ∀ i, r.writable i = true)
    (below : List (Fin n)) (current : Displaced K V) (s : Stack T n)
    (hs : ∀ above b, below = above ++ [b] → U (s b).tier) (hnil : below = [] → current = []) :
    (run (r.demoteDown below current) s).1 = [] := by
  induction below generalizing current s with
  | nil =>
    rw [hnil rfl]
    rfl
  | cons target below ih =>
    rw [Router.demoteDown]
    by_cases hc : current.isEmpty = true
    · have hnil : current = [] := List.isEmpty_iff.1 hc
      subst hnil
      rfl
    · have hwt : (!r.writable target) = false := by simp [hw target]
      simp only [hc, hwt, Bool.false_eq_true, if_false, run_bind]
      refine ih _ _ ?_ ?_
      · intro above b hb
        exact run_keeps hU _ b (hs (target :: above) b (by simp [hb]))
      · intro hb
        exact demoteInto_keeping hU target current [] s (hs [] target (by simp [hb]))

omit [DecidableEq K] [LawfulTier T] in
/-- Nothing falls off a roomy stack. -/
theorem demote_roomy (hU : Keeping U) (r : Router n) (hw : ∀ i, r.writable i = true)
    {above below : List (Fin n)} {t : Fin n} (hsplit : List.finRange n = above ++ t :: below)
    (entries : Displaced K V) (s : Stack T n) (hs : Roomy U s)
    (hnil : below = [] → entries = []) : (run (r.demote t entries) s).1 = [] := by
  rw [Router.demote, tiersBelow_of_split hsplit]
  refine demoteDown_roomy hU r hw below entries s (fun a b hb => ?_) hnil
  exact hs.last (show List.finRange n = (above ++ t :: a) ++ [b] by simp [hsplit, hb])

end Roomy

end Stack
end Tierstore
