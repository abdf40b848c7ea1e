import Tierstore.Batched
import Tierstore.FanOut
import Tierstore.Remove
import Tierstore.Service

/-! A cache in front of its bottom tier. As long as the tiers take what they are given, the client
sees a plain map, and a key crosses to the bottom tier once. -/
namespace Tierstore
open Overlay Effects

/-! ## Tiers that refuse nothing they can take -/

namespace TierCall
variable {K V : Type}

def handed : TierCall K V → List (K × V)
  | .put key value => [(key, value)]
  | .putMany entries => entries
  | _ => []

end TierCall

theorem OkCall.handed {n : Nat} {K V : Type} {D : Fin n → Prop} {X : K → Prop}
    {P : K → V → Prop} {q : Query n K V} (h : OkCall D X P q) : Vouched P q.2.handed := by
  obtain ⟨t, c⟩ := q
  cases c with
  | put key value => simpa [Vouched, TierCall.handed] using h.2
  | putMany entries => exact h.2
  | get key => exact List.forall_mem_nil _
  | exists_ key => exact List.forall_mem_nil _
  | getMany keys => exact List.forall_mem_nil _
  | delete key => exact List.forall_mem_nil _
  | deleteMany keys => exact List.forall_mem_nil _

/-- No call fails that hands over vouched entries, and a delete tells what was there. -/
structure Accepting (T : Type) {K V E : Type} [DecidableEq K] [Tier T K V E] [LawfulTier T]
    (P : K → V → Prop) : Prop where
  accepts (t : T) (c : TierCall K V) : Vouched P c.handed → ∃ a, (Tier.call t c).1 = .ok a
  delete (t : T) (k : K) (b : Bool) : (Tier.delete t k).1 = .ok b → b = (contents t k).isSome
  deleteMany (t : T) (ks : List K) (bs : List Bool) :
    (Tier.deleteMany t ks).1 = .ok bs → bs = firstFlags (fun k => (contents t k).isSome) ks

namespace Stack
variable {T K V E : Type} {n : Nat} [DecidableEq K] [Tier T K V E] [LawfulTier T]
  {P : K → V → Prop}

def Vouches (P : K → V → Prop) (s : Stack T n) : Prop := ∀ i, Holds P (s.held i)

variable {s : Stack T n} {α : Type} {post : α → Prop} {p : RouterM n K V E α}

theorem exec_vouches {q : Query n K V} (hq : OkCall (fun _ => True) (fun _ => True) P q)
    (hs : s.Vouches P) :
    OkAnswer (fun _ => True) P q (exec q s).1 ∧ (exec q s).2.Vouches P := by
  obtain ⟨hanswer, hholds⟩ := exec_clean (Q := fun _ => True) hq fun i _ => hs i
  exact ⟨hanswer, fun i => hholds i trivial⟩

theorem Vouches.run (hs : s.Vouches P)
    (hp : Clean (fun _ => True) (fun _ => True) (fun _ => True) P post p) :
    post (Stack.run p s).1 ∧ (Stack.run p s).2.Vouches P :=
  run_clean (fun _ _ hs hq => exec_vouches hq hs) hp hs

theorem Vouches.accepted (hacc : Accepting T P) (hs : s.Vouches P)
    (hp : Clean (fun _ => True) (fun _ => True) (fun _ => True) P post p) : AllAccepted p s := by
  have hstep : ∀ (q : Query n K V) (s : Stack T n), s.Vouches P →
      OkCall (fun _ => True) (fun _ => True) P q →
      OkAnswer (fun _ => True) P q (exec q s).1 ∧ (exec q s).2.Vouches P :=
    fun _ _ hs hq => exec_vouches hq hs
  exact Program.Safe.always_of hstep
    (fun q s _ hq => hacc.accepts (s q.1).tier q.2 hq.handed) hp hs

/-! ### What such tiers answer -/
section Answers
variable (hacc : Accepting T P) (t : Fin n) (s : Stack T n)
include hacc

theorem exec_get (key : K) : (exec (t, .get key) s).1 = (.ok (s.held t key) : Except E _) := by
  obtain ⟨found, hfound⟩ := hacc.accepts (s t).tier (.get key) (List.forall_mem_nil _)
  obtain rfl := LawfulTier.get_ok (s t).tier key found hfound
  exact hfound

theorem exec_exists (key : K) :
    (exec (t, .exists_ key) s).1 = (.ok (s.held t key).isSome : Except E _) := by
  obtain ⟨found, hfound⟩ := hacc.accepts (s t).tier (.exists_ key) (List.forall_mem_nil _)
  obtain rfl := LawfulTier.exists_ok (s t).tier key found hfound
  exact hfound

theorem exec_getMany (keys : List K) :
    (exec (t, .getMany keys) s).1 = (.ok (keys.map (s.held t)) : Except E _) := by
  obtain ⟨found, hfound⟩ := hacc.accepts (s t).tier (.getMany keys) (List.forall_mem_nil _)
  obtain rfl := LawfulTier.getMany_ok (s t).tier keys found hfound
  exact hfound

theorem exec_delete (key : K) :
    (exec (t, .delete key) s).1 = (.ok (s.held t key).isSome : Except E _) := by
  obtain ⟨present, hpresent⟩ := hacc.accepts (s t).tier (.delete key) (List.forall_mem_nil _)
  obtain rfl := hacc.delete (s t).tier key present hpresent
  exact hpresent

theorem exec_deleteMany (keys : List K) : (exec (t, .deleteMany keys) s).1 =
    (.ok (firstFlags (fun k => (s.held t k).isSome) keys) : Except E _) := by
  obtain ⟨flags, hflags⟩ := hacc.accepts (s t).tier (.deleteMany keys) (List.forall_mem_nil _)
  obtain rfl := hacc.deleteMany (s t).tier keys flags hflags
  exact hflags

end Answers
end Stack

def Slot.served {T K V E : Type} [Tier T K V E] (slot : Slot T) : Option (TierCall K V) → Slot T
  | none => slot
  | some call =>
    let out := Tier.call slot.tier call
    { tier := out.2, counters := slot.counters.record call out.1 }

def Slot.servedAll {T K V E : Type} [Tier T K V E] (slot : Slot T) (calls : List (TierCall K V)) :
    Slot T := calls.foldl (fun slot call => slot.served (some call)) slot

theorem Stack.exec_served {T K V E : Type} {n : Nat} [Tier T K V E] (t : Fin n)
    (call : TierCall K V) (s : Stack T n) :
    (Stack.exec (t, call) s).2 t = (s t).served (some call) := by
  simp [Stack.exec, Slot.served]

def fetches {K V : Type} (near : K → Option V) (keys : List K) : Option (TierCall K V) :=
  let far := keys.filter fun k => (near k).isNone
  if far = [] then none else some (.getMany far)

/-! ## The tiers above the bottom one -/

structure Layout (n : Nat) where
  hot : List (Fin n)
  warm : Fin n
  origin : Fin n
  split : List.finRange n = hot ++ [warm, origin]

namespace Layout
variable {n : Nat} (l : Layout n)

def near : List (Fin n) := l.hot ++ [l.warm]

theorem finRange_eq : List.finRange n = l.near ++ [l.origin] := by
  simp [near, l.split]

theorem nodup : (l.near ++ [l.origin]).Nodup := l.finRange_eq ▸ List.nodup_finRange n

theorem origin_not_mem : l.origin ∉ l.near := fun h =>
  (List.nodup_append.1 l.nodup).2.2 _ h _ List.mem_cons_self rfl

theorem mem_near {t : Fin n} (h : t ≠ l.origin) : t ∈ l.near := by
  have hmem : t ∈ l.near ++ [l.origin] := l.finRange_eq ▸ List.mem_finRange t
  obtain hmem | hmem := List.mem_append.1 hmem
  · exact hmem
  · exact absurd (List.mem_singleton.1 hmem) h

/-- A status that tells what the bottom tier has, and whether it had to be asked. -/
def Told {K V : Type} (near origin : K → Option V) (key : K) (status : KeyStatus V) : Prop :=
  match near key with
  | some v => ∃ t ∈ l.near, status = .hit t v
  | none => status =
    match origin key with
    | some v => .hit l.origin v
    | none => .miss

variable {l} {above mid : List (Fin n)} {t : Fin n}

/-- The tiers below one of them, down to the bottom. -/
theorem split_near (h : l.near = above ++ t :: mid) :
    List.finRange n = above ++ t :: (mid ++ [l.origin]) := by
  rw [l.finRange_eq, h]
  simp

theorem warm_of_split (h : l.near = above ++ t :: mid) :
    (mid = [] ∧ t = l.warm) ∨ ∃ upper, mid = upper ++ [l.warm] := by
  obtain hnil | ⟨upper, last, rfl⟩ := List.eq_nil_or_concat mid
  · subst hnil
    exact Or.inl ⟨rfl, by simpa using (List.append_inj' h rfl).2.symm⟩
  · have hlast : l.hot ++ [l.warm] = (above ++ t :: upper) ++ [last] := by
      simpa [near] using h
    have hwarm := (List.append_inj' hlast rfl).2
    exact Or.inr ⟨upper, by simpa using hwarm.symm⟩

end Layout

namespace Router
variable {T K V E : Type} {n : Nat} [DecidableEq K] [Tier T K V E] [LawfulTier T]
  (r : Router n) {P : K → V → Prop} {U : T → Prop} {l : Layout n}

section Near
variable (hw : ∀ i, r.writable i = true) (hacc : Accepting T P) (hU : Keeping U)
include hw hacc hU

/-- What is displaced above the bottom tier ends up above the bottom tier. -/
theorem demote_near {above mid : List (Fin n)} {t : Fin n} (hsplit : l.near = above ++ t :: mid)
    {entries : Displaced K V} (hnil : mid = [] → entries = []) (hentries : Vouched P entries)
    {s : Stack T n} (hs : s.Vouches P) (hwarm : U (s l.warm).tier) :
    (Stack.run (r.demote t entries) s).1 = [] ∧
      (Stack.run (r.demote t entries) s).2.view mid = write (s.view mid) entries ∧
      ∀ j, j ∉ mid → (Stack.run (r.demote t entries) s).2 j = s j := by
  have hnd : mid.Nodup := (List.nodup_append.1 (nodup_below_of_split (Layout.split_near hsplit))).1
  have hclean : Clean (fun _ => True) (fun _ => True) (fun _ => True) P (fun _ => True)
      (r.demoteDown mid entries : RouterM n K V E _) :=
    r.demoteDown_clean mid (fun _ _ => trivial) (fun _ _ _ _ _ => trivial) entries
      fun _ => hentries
  obtain ⟨hview, hothers⟩ :=
    Stack.demoteDown_conserves r hw mid hnd entries s (hs.accepted hacc hclean)
  have hstay : (Stack.run (r.demoteDown mid entries) s).1 = [] := by
    refine Stack.demoteDown_roomy hU r hw mid entries s (fun upper b hb => ?_) hnil
    obtain ⟨rfl, -⟩ | ⟨upper', rfl⟩ := Layout.warm_of_split hsplit
    · simp at hb
    · obtain rfl : l.warm = b := by simpa using (List.append_inj' hb rfl).2
      exact hwarm
  rw [demote, tiersBelow_of_split (Layout.split_near hsplit), demoteDown_append, Stack.run_bind,
    hstay, demoteDown_nil, Program.pure_eq, Stack.run_done]
  rw [hstay, latest_nil, atop_empty] at hview
  exact ⟨rfl, hview, hothers⟩

end Near

/-! ## Writes above the bottom tier -/

structure Puts (T : Type) {K V E : Type} {n : Nat} [DecidableEq K] [Tier T K V E] [LawfulTier T]
    (P : K → V → Prop) (U : T → Prop) (write : Fin n → RouterM n K V E (Except E (Displaced K V)))
    (entries : List (K × V)) : Prop where
  writes : Stack.Writes T write entries
  clean (t : Fin n) : Clean (fun _ => True) (fun _ => True) (fun _ => True) P
    (fun a => ∀ displaced, a = .ok displaced → True → Vouched P displaced) (write t)
  accepted (t : Fin n) (s : Stack T n) : ∃ displaced, (Stack.run (write t) s).1 = .ok displaced
  keeps (t : Fin n) (s : Stack T n) (displaced : Displaced K V) :
    U (s t).tier → (Stack.run (write t) s).1 = .ok displaced → displaced = []

theorem puts_put (hacc : Accepting T P) (hU : Keeping U) {k : K} {v : V} (hkv : P k v) :
    Puts T P U (fun t : Fin n => putAt (E := E) t k v) [(k, v)] where
  writes := Stack.writes_put k v
  clean t := putAt_clean (fun _ => trivial) t hkv
  accepted t s := hacc.accepts (s t).tier (.put k v) (by simpa [Vouched, TierCall.handed] using hkv)
  keeps t s := hU.put (s t).tier k v

theorem puts_putMany (hacc : Accepting T P) (hU : Keeping U) {es : List (K × V)}
    (hes : Vouched P es) : Puts T P U (fun t : Fin n => putManyAt (E := E) t es) es where
  writes := Stack.writes_putMany es
  clean t := putManyAt_clean (fun _ => trivial) t hes
  accepted t s := hacc.accepts (s t).tier (.putMany es) hes
  keeps t s := hU.putMany (s t).tier es

structure TakesIn (P : K → V → Prop) (U : T → Prop) (l : Layout n) (entries : List (K × V))
    (s s' : Stack T n) : Prop where
  near : s'.view l.near = write (s.view l.near) entries
  origin : s' l.origin = s l.origin
  vouches : s'.Vouches P
  warm : U (s' l.warm).tier

theorem TakesIn.refl {s : Stack T n} (hs : s.Vouches P) (hwarm : U (s l.warm).tier) :
    TakesIn P U l [] s s := ⟨(write_nil _).symm, rfl, hs, hwarm⟩

theorem TakesIn.trans {es es' : List (K × V)} {s s' s'' : Stack T n} (h : TakesIn P U l es s s')
    (h' : TakesIn P U l es' s' s'') : TakesIn P U l (es ++ es') s s'' where
  near := by rw [h'.near, h.near, write_append]
  origin := h'.origin.trans h.origin
  vouches := h'.vouches
  warm := h'.warm

section Fill
variable (hw : ∀ i, r.writable i = true) (hd : r.policy.demoteDisplaced = true)
  (hacc : Accepting T P) (hU : Keeping U)
  {w : Fin n → RouterM n K V E (Except E (Displaced K V))} {es : List (K × V)}
  (hputs : Puts T P U w es)
include hw hacc hU hputs

/-- One tier takes the entries, and what it displaces stays above the bottom tier. -/
theorem spill_near {above mid : List (Fin n)} {t : Fin n} (hsplit : l.near = above ++ t :: mid)
    {s : Stack T n} (hs : s.Vouches P) (hwarm : U (s l.warm).tier) :
    ∃ d, (Stack.run (w t) s).1 = .ok d ∧
      (Stack.run (r.demote t d) (Stack.run (w t) s).2).1 = [] ∧
      (Stack.run (r.demote t d) (Stack.run (w t) s).2).2.view (t :: mid) =
        write (s.view (t :: mid)) es ∧
      (∀ j, j ∉ t :: mid → (Stack.run (r.demote t d) (Stack.run (w t) s).2).2 j = s j) ∧
      (Stack.run (r.demote t d) (Stack.run (w t) s).2).2.Vouches P := by
  obtain ⟨d, hok⟩ := hputs.accepted t s
  obtain ⟨hvouched, hs₁⟩ := hs.run (hputs.clean t)
  have hvouched := hvouched d hok trivial
  have hwarm₁ : U ((Stack.run (w t) s).2 l.warm).tier := Stack.run_keeps hU (w t) l.warm hwarm
  have hnil : mid = [] → d = [] := by
    rintro rfl
    obtain ⟨-, rfl⟩ | ⟨upper, hupper⟩ := Layout.warm_of_split hsplit
    · exact hputs.keeps _ s d hwarm hok
    · simp at hupper
  obtain ⟨hstay, hview, hothers⟩ :=
    r.demote_near hw hacc hU hsplit hnil hvouched hs₁ hwarm₁
  have hclean : Clean (fun _ => True) (fun _ => True) (fun _ => True) P (fun _ => True)
      (r.demote t d : RouterM n K V E _) :=
    r.demote_clean t (fun _ _ => trivial) (fun _ _ => trivial) d fun _ => hvouched
  have htm := (not_mem_of_split (Layout.split_near hsplit)).1
  simp only [List.mem_append, not_or] at htm
  have hmid : (Stack.run (w t) s).2.view mid = s.view mid :=
    Stack.view_congr fun j hj => hputs.writes.other t s j fun h => htm.1 (h ▸ hj)
  have hheld := hputs.writes.conserves t s d hok
  refine ⟨d, hok, hstay, ?_, fun j hj => ?_, (hs₁.run hclean).2⟩
  · rw [Stack.view_cons, Stack.view_cons, Stack.held_congr (hothers t htm.1), hview, hmid, write,
      ← atop_assoc, hheld, write_atop]
  · obtain ⟨hjt, hjm⟩ := not_or.1 (mt List.mem_cons.2 hj)
    exact (hothers j hjm).trans (hputs.writes.other t s j hjt)

include hd in
/-- Copying what the client sees anyway into a tier above the bottom one. -/
theorem promoteWith_near {t : Fin n} (ht : t ≠ l.origin) {s : Stack T n} (hs : s.Vouches P)
    (hwarm : U (s l.warm).tier) {m : K → Option V}
    (hm : ∀ k v, s.view l.near k = some v → m k = some v) (hes : ∀ e ∈ es, m e.1 = some e.2) :
    TakesIn P U l es s (Stack.run (r.promoteWith t (w t)) s).2 := by
  obtain ⟨above, mid, hsplit⟩ := List.append_of_mem (l.mem_near ht)
  obtain ⟨d, hok, -, hview, hothers, hvouches⟩ := r.spill_near hw hacc hU hputs hsplit hs hwarm
  have hrun : (Stack.run (r.promoteWith t (w t)) s).2 =
      (Stack.run (r.demote t d) (Stack.run (w t) s).2).2 := by
    rw [promoteWith, if_pos (hw t), Stack.run_bind, hok]
    cases d with
    | nil => simp [Stack.run_demote_nil]
    | cons e rest => simp [hd]
  have habove : (Stack.run (r.promoteWith t (w t)) s).2.view above = s.view above := by
    rw [hrun]
    refine Stack.view_congr fun j hj => hothers j fun hmem => ?_
    obtain ⟨hjt, hjm⟩ := disjoint_of_split (Layout.split_near hsplit) hj
    obtain rfl | hmem := List.mem_cons.1 hmem
    · exact hjt rfl
    · exact hjm (List.mem_append_left _ hmem)
  refine ⟨?_, ?_, hrun ▸ hvouches, Stack.run_keeps hU _ l.warm hwarm⟩
  · rw [hsplit, Stack.view_append, habove, hrun, hview, Stack.view_append]
    refine atop_write_of_same fun e he v hv => ?_
    have hnear : s.view l.near e.1 = some v := by
      rw [hsplit, Stack.view_append]
      exact atop_of_some hv _
    have hsame := (hm e.1 v hnear).symm.trans (hes e he)
    exact Option.some.inj hsame
  · rw [hrun]
    refine hothers l.origin fun hmem => l.origin_not_mem ?_
    rw [hsplit]
    exact List.mem_append_right above hmem

end Fill
end Router

/-! ## Reads -/

namespace Stack
variable {T K V E : Type} {n : Nat} [DecidableEq K] [Tier T K V E] [LawfulTier T]
  {P : K → V → Prop}

def status (s : Stack T n) (key : K) (before : KeyStatus V) : List (Fin n) → KeyStatus V
  | [] => before
  | t :: below =>
    match s.held t key with
    | some v => .hit t v
    | none => s.status key before below

variable {s s' : Stack T n} {key : K} {before : KeyStatus V} {tiers : List (Fin n)}

theorem status_of_none (h : s.view tiers key = none) : s.status key before tiers = before := by
  induction tiers with
  | nil => rfl
  | cons t below ih =>
    rw [view_cons] at h
    cases ht : s.held t key with
    | some v =>
      rw [atop_of_some ht] at h
      cases h
    | none =>
      rw [atop_of_none ht] at h
      rw [status, ht]
      exact ih h

theorem status_of_some {v : V} (h : s.view tiers key = some v) :
    ∃ t ∈ tiers, s.status key before tiers = .hit t v := by
  induction tiers with
  | nil => cases h
  | cons t below ih =>
    rw [view_cons] at h
    cases ht : s.held t key with
    | some u =>
      rw [atop_of_some ht] at h
      obtain rfl : u = v := Option.some.inj h
      exact ⟨t, List.mem_cons_self, by rw [status, ht]⟩
    | none =>
      rw [atop_of_none ht] at h
      obtain ⟨t', hmem, hstatus⟩ := ih h
      exact ⟨t', List.mem_cons_of_mem t hmem, by rw [status, ht, hstatus]⟩

theorem status_congr (h : s'.held = s.held) :
    s'.status key before tiers = s.status key before tiers := by
  induction tiers with
  | nil => rfl
  | cons t below ih => rw [status, status, h, ih]

end Stack

namespace Router
variable {T K V E : Type} {n : Nat} [DecidableEq K] [Tier T K V E] [LawfulTier T]
  (r : Router n) {P : K → V → Prop}

omit [DecidableEq K] [LawfulTier T] in
theorem run_readTiers_append (keys : List K) (upper lower : List (Fin n))
    (statuses : Fin keys.length → KeyStatus V) (unresolved : List (Fin keys.length))
    (failures : List (TierFailure E)) (s : Stack T n) :
    Stack.run (r.readTiers keys (upper ++ lower) statuses unresolved failures) s =
      match Stack.run (r.readTiers keys upper statuses unresolved failures) s with
      | (.ok (statuses, unresolved, failures), s) =>
        Stack.run (r.readTiers keys lower statuses unresolved failures) s
      | (.error error, s) => (.error error, s) := by
  induction upper generalizing statuses unresolved failures s with
  | nil => rfl
  | cons t upper ih =>
    rw [List.cons_append, readTiers, readTiers]
    by_cases hempty : unresolved.isEmpty = true
    · simp only [hempty, if_true, Program.pure_eq, Stack.run_done]
      cases lower with
      | nil => rfl
      | cons t lower => simp [readTiers, hempty]
    · simp only [hempty, Bool.false_eq_true, if_false, Stack.run_bind, Stack.run_getManyAt]
      cases (Stack.exec (t, .getMany (unresolved.map keys.get)) s).1 with
      | ok found => exact ih _ _ _ _
      | error source =>
        cases r.policy.read.onError with
        | failFast => rfl
        | fallThrough => exact ih _ _ _ _

/-- Every tier is asked for what those above it do not have, and has its answer recorded. -/
theorem run_readTiers (hacc : Accepting T P) (keys : List K) {tiers : List (Fin n)}
    (hnd : tiers.Nodup) (statuses : Fin keys.length → KeyStatus V)
    (unresolved : List (Fin keys.length)) (failures : List (TierFailure E)) (s : Stack T n) :
    ∃ s', Stack.run (r.readTiers keys tiers statuses unresolved failures) s =
        (.ok (fun i => if i ∈ unresolved then s.status (keys.get i) (statuses i) tiers
            else statuses i,
          unresolved.filter fun i => (s.view tiers (keys.get i)).isNone, failures), s') ∧
      Stack.Undisturbed s s' ∧ ∀ j, j ∉ tiers → s' j = s j := by
  induction tiers generalizing statuses unresolved s with
  | nil =>
    refine ⟨s, ?_, .refl s, fun _ _ => rfl⟩
    simp [readTiers, Stack.status, Stack.view, stacked]
  | cons t below ih =>
    obtain ⟨hnew, hnd⟩ := List.nodup_cons.1 hnd
    rw [readTiers]
    by_cases hempty : unresolved.isEmpty = true
    · obtain rfl := List.isEmpty_iff.1 hempty
      exact ⟨s, by simp, .refl s, fun _ _ => rfl⟩
    · have hund := Stack.getMany_undisturbed t (unresolved.map keys.get) s
      have hother := fun j hj =>
        Stack.exec_other (E := E) (t, .getMany (unresolved.map keys.get)) s (j := j) hj
      simp only [hempty, Bool.false_eq_true, if_false, Stack.run_bind, Stack.run_getManyAt,
        Stack.exec_getMany hacc]
      have hzip : unresolved.zip ((unresolved.map keys.get).map (s.held t)) =
          unresolved.map fun i => (i, s.held t (keys.get i)) := by
        rw [List.map_map]
        simpa using @List.zip_map' _ _ _ id (s.held t ∘ keys.get) unresolved
      obtain ⟨hrest, hstat⟩ :=
        Stack.resolve_spec t (fun i => s.held t (keys.get i)) unresolved statuses
      rw [hzip]
      obtain ⟨s', hrun, hund', hothers⟩ := ih hnd
        (resolve t (unresolved.map fun i => (i, s.held t (keys.get i))) statuses).1
        (resolve t (unresolved.map fun i => (i, s.held t (keys.get i))) statuses).2
        (Stack.exec (E := E) (t, .getMany (unresolved.map keys.get)) s).2
      refine ⟨s', ?_, hund.trans hund', fun j hj => ?_⟩
      · rw [hrun, hrest]
        have hleft : ∀ i, (Stack.view (Stack.exec (E := E) (t, .getMany (unresolved.map keys.get))
            s).2 below (keys.get i)) = s.view below (keys.get i) := fun i => by rw [hund.view]
        refine congrArg (·, s') (congrArg Except.ok (Prod.ext (funext fun i => ?_)
          (Prod.ext ?_ rfl)))
        · simp only [List.mem_filter, hstat i, Stack.status_congr hund.held]
          by_cases hi : i ∈ unresolved
          · cases ht : s.held t (keys.get i) with
            | some v =>
              simp only [Stack.status, hi, ht, Option.isNone_some, Bool.false_eq_true, and_false,
                if_false, if_true]
            | none =>
              simp only [Stack.status, hi, ht, Option.isNone_none, and_true, if_true]
          · simp only [hi, false_and, if_false]
        · simp only [hleft, List.filter_filter]
          refine List.filter_congr fun i _ => ?_
          rw [Stack.view_cons]
          cases ht : s.held t (keys.get i) with
          | some v => rw [atop_of_some ht, Option.isNone_some, Bool.and_false]
          | none => rw [atop_of_none ht, Option.isNone_none, Bool.and_true]
      · obtain ⟨hjt, hjb⟩ := not_or.1 (mt List.mem_cons.2 hj)
        exact (hothers j hjb).trans (hother j hjt)

omit [DecidableEq K] [LawfulTier T] in
theorem readTiers_last (keys : List K) (t : Fin n) (statuses : Fin keys.length → KeyStatus V)
    (unresolved : List (Fin keys.length)) (failures : List (TierFailure E)) (s : Stack T n) :
    (Stack.run (r.readTiers keys [t] statuses unresolved failures) s).2 t =
      (s t).served (if unresolved = [] then none else
        some (.getMany (unresolved.map keys.get))) := by
  rw [readTiers]
  cases unresolved with
  | nil => rfl
  | cons i rest =>
    simp only [List.isEmpty_cons, Bool.false_eq_true, if_false, Stack.run_bind,
      Stack.run_getManyAt, reduceCtorEq]
    rw [← Stack.exec_served]
    cases (Stack.exec (t, .getMany ((i :: rest).map keys.get)) s).1 with
    | ok found => simp [readTiers]
    | error source => cases r.policy.read.onError <;> simp [readTiers]

variable {l : Layout n}

/-- A batched read before its promotions: the bottom tier is asked for what no tier above it
has. -/
theorem run_readAll (hacc : Accepting T P) (keys : List K) (s : Stack T n) :
    ∃ statuses unresolved s',
      Stack.run (r.readTiers keys (List.finRange n) (fun _ => .miss)
        (List.finRange keys.length) []) s = (.ok (statuses, unresolved, []), s') ∧
      Stack.Undisturbed s s' ∧
      s' l.origin = (s l.origin).served (fetches (s.view l.near) keys) ∧
      ∀ i, l.Told (s.view l.near) (s.held l.origin) (keys.get i) (statuses i) := by
  obtain ⟨hnear, horigin, -⟩ := List.nodup_append.1 l.nodup
  obtain ⟨s₁, hrun₁, hund₁, hothers₁⟩ := r.run_readTiers hacc keys hnear (fun _ => .miss)
    (List.finRange keys.length) [] s
  simp only [List.mem_finRange, if_true] at hrun₁
  have hs₁ : s₁ l.origin = s l.origin := hothers₁ _ l.origin_not_mem
  obtain ⟨s₂, hrun₂, hund₂, -⟩ := r.run_readTiers hacc keys horigin
    (fun i => s.status (keys.get i) .miss l.near)
    ((List.finRange keys.length).filter fun i => (s.view l.near (keys.get i)).isNone) [] s₁
  have hlast := r.readTiers_last keys l.origin
    (fun i => s.status (keys.get i) .miss l.near)
    ((List.finRange keys.length).filter fun i => (s.view l.near (keys.get i)).isNone)
    ([] : List (TierFailure E)) s₁
  rw [hrun₂, hs₁] at hlast
  have hfar : ((List.finRange keys.length).filter fun i =>
      (s.view l.near (keys.get i)).isNone).map keys.get =
        keys.filter fun k => (s.view l.near k).isNone := by
    conv_rhs => rw [← List.map_get_finRange keys]
    rw [List.filter_map]
    rfl
  have hrun := r.run_readTiers_append keys l.near [l.origin] (fun _ => .miss)
    (List.finRange keys.length) ([] : List (TierFailure E)) s
  rw [← l.finRange_eq, hrun₁] at hrun
  refine ⟨_, _, s₂, hrun.trans hrun₂, hund₁.trans hund₂, ?_, fun i => ?_⟩
  · refine hlast.trans ?_
    simp only [fetches, ← hfar, List.map_eq_nil_iff]
  · have hmem : (i ∈ (List.finRange keys.length).filter fun i =>
        (s.view l.near (keys.get i)).isNone) ↔ s.view l.near (keys.get i) = none := by
      simp
    rw [Layout.Told]
    cases hv : s.view l.near (keys.get i) with
    | some v =>
      rw [if_neg fun h => Option.some_ne_none v (hv.symm.trans (hmem.1 h))]
      exact Stack.status_of_some hv
    | none =>
      rw [if_pos (hmem.2 hv), Stack.status_congr hund₁.held, Stack.status_of_none hv]
      rfl

/-! ## Single-key reads -/

/-- The single-key read in these tiers, before it goes on below them. -/
theorem run_readDown (hacc : Accepting T P) (key : K) (upper lower : List (Fin n))
    (s : Stack T n) :
    ∃ s', Stack.Undisturbed s s' ∧ (∀ j, j ∉ upper → s' j = s j) ∧
      ((s.view upper key = none ∧ Stack.run (r.readDown key (upper ++ lower) []) s =
          Stack.run (r.readDown key lower []) s') ∨
        ∃ t ∈ upper, ∃ v, s.view upper key = some v ∧
          Stack.run (r.readDown key (upper ++ lower) []) s =
            (.ok (some v), (Stack.run ((r.hitTargets t).forM fun target =>
              r.promoteOne target key (some v)) s').2)) := by
  induction upper generalizing s with
  | nil => exact ⟨s, .refl s, fun _ _ => rfl, Or.inl ⟨rfl, rfl⟩⟩
  | cons t upper ih =>
    have hund := Stack.get_undisturbed t key s
    have hother := fun j hj => Stack.exec_other (E := E) (t, .get key) s (j := j) hj
    rw [List.cons_append, readDown]
    simp only [Stack.run_bind, Stack.run_getAt, Stack.exec_get hacc, Stack.view_cons]
    cases ht : s.held t key with
    | some v =>
      refine ⟨_, hund, fun j hj => hother j (List.ne_of_not_mem_cons hj),
        Or.inr ⟨t, List.mem_cons_self, v, atop_of_some ht _, ?_⟩⟩
      simp
    | none =>
      obtain ⟨s', hund', hothers, hres⟩ := ih (Stack.exec (E := E) (t, .get key) s).2
      refine ⟨s', hund.trans hund', fun j hj => ?_, ?_⟩
      · obtain ⟨hjt, hju⟩ := not_or.1 (mt List.mem_cons.2 hj)
        exact (hothers j hju).trans (hother j hjt)
      · rw [atop_of_none ht, ← hund.view upper]
        obtain hmiss | ⟨t', ht', v, hv⟩ := hres
        · exact Or.inl hmiss
        · exact Or.inr ⟨t', List.mem_cons_of_mem t ht', v, hv⟩

theorem run_existsDown (hacc : Accepting T P) (key : K) (upper lower : List (Fin n))
    (s : Stack T n) :
    ∃ s', Stack.Undisturbed s s' ∧ (∀ j, j ∉ upper → s' j = s j) ∧
      Stack.run (r.existsDown (V := V) key (upper ++ lower) []) s =
        if (s.view upper key).isSome then (.ok true, s')
        else Stack.run (r.existsDown key lower []) s' := by
  induction upper generalizing s with
  | nil => exact ⟨s, .refl s, fun _ _ => rfl, rfl⟩
  | cons t upper ih =>
    have hund := Stack.exists_undisturbed t key s
    have hother := fun j hj => Stack.exec_other (E := E) (t, .exists_ key) s (j := j) hj
    rw [List.cons_append, existsDown]
    simp only [Stack.run_bind, Stack.run_existsAt, Stack.exec_exists hacc, Stack.view_cons]
    cases ht : s.held t key with
    | some v =>
      refine ⟨_, hund, fun j hj => hother j (List.ne_of_not_mem_cons hj), ?_⟩
      simp [atop_of_some ht]
    | none =>
      obtain ⟨s', hund', hothers, hres⟩ := ih (Stack.exec (E := E) (t, .exists_ key) s).2
      refine ⟨s', hund.trans hund', fun j hj => ?_, ?_⟩
      · obtain ⟨hjt, hju⟩ := not_or.1 (mt List.mem_cons.2 hj)
        exact (hothers j hju).trans (hother j hjt)
      · simpa [atop_of_none ht, hund.view upper] using hres

/-! ## Promotion -/

omit [DecidableEq K] [Tier T K V E] [LawfulTier T] in
theorem promoteTargets_lt {t target : Fin n} (ht : t.val ≠ 0) (h : target ∈ r.promoteTargets t) :
    target < t := by
  have htake : ∀ m, target ∈ (List.finRange n).take m → target.val < m := by
    intro m hmem
    obtain ⟨i, hi, rfl⟩ := List.mem_iff_getElem.1 hmem
    rw [List.length_take] at hi
    simpa using (Nat.lt_min.1 hi).1
  rw [promoteTargets] at h
  split at h
  · cases h
  · have hfirst := htake 1 h
    rw [Fin.lt_def]
    omega
  · exact htake t h

omit [DecidableEq K] [Tier T K V E] [LawfulTier T] in
/-- Nothing is copied into the bottom tier. -/
theorem promoteTargets_ne_origin {t target : Fin n} (ht : t.val ≠ 0)
    (h : target ∈ r.promoteTargets t) : target ≠ l.origin := by
  rintro rfl
  have hlt := r.promoteTargets_lt ht h
  have horigin : l.origin.val + 1 + ([] : List (Fin n)).length = n :=
    length_of_split l.finRange_eq
  have hle := t.isLt
  rw [Fin.lt_def] at hlt
  rw [List.length_nil] at horigin
  omega

omit [DecidableEq K] [Tier T K V E] [LawfulTier T] in
theorem promoteTargets_ne_nil {t : Fin n} (hp : r.policy.read.promote ≠ .never) (ht : t.val ≠ 0) :
    r.promoteTargets t ≠ [] := by
  have hn : 0 < n := Nat.zero_lt_of_lt t.isLt
  have htake : ∀ m, m ≠ 0 → (List.finRange n).take m ≠ [] := by
    intro m hm hnil
    have hlength := congrArg List.length hnil
    rw [List.length_take, List.length_finRange, List.length_nil] at hlength
    omega
  rw [promoteTargets]
  split
  · next h => exact absurd h hp
  · exact htake 1 Nat.one_ne_zero
  · exact htake t ht

def copied (keys : List K) (statuses : Fin keys.length → KeyStatus V) (tiers : List (Fin n)) :
    List (K × V) :=
  tiers.flatMap fun t =>
    if t.val = 0 ∨ hitEntries keys statuses t = [] then []
    else (r.promoteTargets t).flatMap fun _ => hitEntries keys statuses t

omit [DecidableEq K] in
theorem mem_copied {keys : List K} {statuses : Fin keys.length → KeyStatus V}
    {tiers : List (Fin n)} {e : K × V} (h : e ∈ r.copied keys statuses tiers) :
    ∃ i, keys.get i = e.1 ∧ (statuses i).value = some e.2 := by
  obtain ⟨t, -, h⟩ := List.mem_flatMap.1 h
  split at h
  · cases h
  · obtain ⟨-, -, h⟩ := List.mem_flatMap.1 h
    exact mem_hitEntries h

section Fill
variable {U : T → Prop} {l : Layout n} (hw : ∀ i, r.writable i = true)
  (hd : r.policy.demoteDisplaced = true) (hacc : Accepting T P) (hU : Keeping U)
include hw hd hacc hU

omit [Tier T K V E] [LawfulTier T] hw hd hacc hU in
/-- A map that has the entries has them after they are written. -/
theorem agrees_write {shown m : K → Option V} {es : List (K × V)}
    (hm : ∀ k v, shown k = some v → m k = some v) (hes : ∀ e ∈ es, m e.1 = some e.2) (k : K)
    (v : V) (h : write shown es k = some v) : m k = some v := by
  rw [← write_of_agree hes]
  exact (Within.write ⟨hm, fun h : False => h.elim⟩ es).1 k v h

theorem forM_near {w : Fin n → RouterM n K V E (Except E (Displaced K V))} {es : List (K × V)}
    (hputs : Puts T P U w es) {m : K → Option V} (hes : ∀ e ∈ es, m e.1 = some e.2)
    {targets : List (Fin n)} (htargets : ∀ t ∈ targets, t ≠ l.origin) {s : Stack T n}
    (hs : s.Vouches P) (hwarm : U (s l.warm).tier)
    (hm : ∀ k v, s.view l.near k = some v → m k = some v) :
    TakesIn P U l (targets.flatMap fun _ => es) s
      (Stack.run (targets.forM fun t => r.promoteWith t (w t)) s).2 := by
  induction targets generalizing s with
  | nil => exact .refl hs hwarm
  | cons t targets ih =>
    have hfirst := r.promoteWith_near hw hd hacc hU hputs (htargets t List.mem_cons_self) hs
      hwarm hm hes
    have hrest := ih (fun t' ht' => htargets t' (List.mem_cons_of_mem t ht')) hfirst.vouches
      hfirst.warm fun k v h => agrees_write hm hes k v (hfirst.near ▸ h)
    change TakesIn P U l (es ++ targets.flatMap fun _ => es) s
      (Stack.run (r.promoteWith t (w t) >>= fun _ => targets.forM fun t => r.promoteWith t (w t))
        s).2
    rw [Stack.run_bind]
    exact hfirst.trans hrest

/-- The promotions of a batched read, which has found what the client sees anyway. -/
theorem promoteTiers_near {keys : List K} {statuses : Fin keys.length → KeyStatus V}
    {m : K → Option V} (hstat : ∀ i v, (statuses i).value = some v →
      P (keys.get i) v ∧ m (keys.get i) = some v) (tiers : List (Fin n)) {s : Stack T n}
    (hs : s.Vouches P) (hwarm : U (s l.warm).tier)
    (hm : ∀ k v, s.view l.near k = some v → m k = some v) :
    TakesIn P U l (r.copied keys statuses tiers) s
      (Stack.run (r.promoteTiers keys statuses tiers) s).2 := by
  induction tiers generalizing s with
  | nil => exact .refl hs hwarm
  | cons t tiers ih =>
    have hes : ∀ e ∈ hitEntries keys statuses t, P e.1 e.2 ∧ m e.1 = some e.2 := by
      intro e he
      obtain ⟨i, hkey, hv⟩ := mem_hitEntries he
      rw [← hkey]
      exact hstat i e.2 hv
    rw [promoteTiers, copied, List.flatMap_cons, ← copied]
    dsimp only
    split
    · exact ih hs hwarm hm
    · next hcond =>
      have hfirst := r.forM_near hw hd hacc hU
        (puts_putMany hacc hU fun e he => (hes e he).1) (fun e he => (hes e he).2)
        (fun _ htarget => r.promoteTargets_ne_origin (fun h => hcond (Or.inl h)) htarget) hs
        hwarm hm
      rw [Stack.run_bind]
      refine hfirst.trans (ih hfirst.vouches hfirst.warm fun k v h => ?_)
      refine agrees_write hm (fun e he => ?_) k v (hfirst.near ▸ h)
      obtain ⟨-, -, he⟩ := List.mem_flatMap.1 he
      exact (hes e he).2

/-- The promotions of a batched read, if there are any. -/
theorem promoteBatch_near {keys : List K} {statuses : Fin keys.length → KeyStatus V}
    {m : K → Option V} (hstat : ∀ i v, (statuses i).value = some v →
      P (keys.get i) v ∧ m (keys.get i) = some v) {s : Stack T n} (hs : s.Vouches P)
    (hwarm : U (s l.warm).tier) (hm : ∀ k v, s.view l.near k = some v → m k = some v) :
    TakesIn P U l (if r.policy.read.promote = .never then []
      else r.copied keys statuses (List.finRange n)) s
      (Stack.run (r.promoteBatch keys statuses) s).2 := by
  rw [promoteBatch]
  split
  · exact .refl hs hwarm
  · exact r.promoteTiers_near hw hd hacc hU hstat (List.finRange n) hs hwarm hm

end Fill

omit [DecidableEq K] [Tier T K V E] [LawfulTier T] in
theorem origin_val_ne_zero (l : Layout n) : l.origin.val ≠ 0 := by
  have horigin := val_of_split (l.finRange_eq.trans (by simp) :
    List.finRange n = l.near ++ l.origin :: [])
  rw [horigin, Layout.near, List.length_append]
  simp

omit [DecidableEq K] [Tier T K V E] [LawfulTier T] in
/-- With promotion on, what only the bottom tier has is copied upwards. -/
theorem mem_copied_of_told {l : Layout n} (hp : r.policy.read.promote ≠ .never) {keys : List K}
    {statuses : Fin keys.length → KeyStatus V} {near origin : K → Option V}
    (hstat : ∀ i, l.Told near origin (keys.get i) (statuses i)) {k : K} {v : V} (hk : k ∈ keys)
    (hnear : near k = none) (hv : origin k = some v) :
    (k, v) ∈ r.copied keys statuses (List.finRange n) := by
  obtain ⟨i, rfl⟩ := List.get_of_mem hk
  have hstatus := hstat i
  rw [Layout.Told, hnear, hv] at hstatus
  have hhit : (keys.get i, v) ∈ hitEntries keys statuses l.origin := by
    refine List.mem_filterMap.2 ⟨i, List.mem_filter.2 ⟨List.mem_finRange i, ?_⟩, ?_⟩
    · simp [hitAt, hstatus, KeyStatus.tier]
    · simp [hstatus, KeyStatus.value]
  obtain ⟨target, htarget⟩ :=
    List.exists_mem_of_ne_nil _ (r.promoteTargets_ne_nil hp (origin_val_ne_zero l))
  refine List.mem_flatMap.2 ⟨l.origin, List.mem_finRange _, ?_⟩
  rw [if_neg fun h => ?_]
  · exact List.mem_flatMap.2 ⟨target, htarget, hhit⟩
  · obtain hzero | hempty := h
    · exact origin_val_ne_zero l hzero
    · rw [hempty] at hhit
      cases hhit

/-! ## Writes through all tiers -/
section Through
variable {U : T → Prop} {l : Layout n} (hw : ∀ i, r.writable i = true)
  (hd : r.policy.demoteDisplaced = true) (hacc : Accepting T P) (hU : Keeping U)
  {w : Fin n → RouterM n K V E (Except E (Displaced K V))} {es : List (K × V)}
  (hputs : Puts T P U w es)
include hw hd hacc hU hputs

/-- The write-through loop above the bottom tier: the tiers in `done` have been written. -/
theorem writeThrough_near (ts done : List (Fin n)) (hsplit : l.near = ts.reverse ++ done)
    {s₀ s : Stack T n} (habove : ∀ j ∈ ts, s j = s₀ j)
    (hdone : write (s.view done) es = write (s₀.view done) es)
    (hlast : ts = [] → s.view done = write (s₀.view done) es) (hs : s.Vouches P)
    (hwarm : U (s l.warm).tier) :
    ∃ s', Stack.run (r.writeThrough w ts []) s = (.ok [], s') ∧
      s'.view l.near = write (s₀.view l.near) es ∧ s' l.origin = s l.origin ∧ s'.Vouches P := by
  induction ts generalizing done s with
  | nil =>
    have hnear : l.near = done := hsplit
    exact ⟨s, rfl, hnear ▸ hlast rfl, rfl, hs⟩
  | cons t above ih =>
    have hsplit' : l.near = above.reverse ++ t :: done := by
      rw [hsplit]
      simp
    obtain ⟨d, hok, hstay, hview, hothers, hvouches⟩ :=
      r.spill_near hw hacc hU hputs hsplit' hs hwarm
    have hheld : s.held t = s₀.held t := Stack.held_congr (habove t List.mem_cons_self)
    have hmine : (Stack.run (r.demote t d) (Stack.run (w t) s).2).2.view (t :: done) =
        write (s₀.view (t :: done)) es := by
      rw [hview, Stack.view_cons, Stack.view_cons, hheld, ← write_atop_write, hdone,
        write_atop_write]
    have hwarm₁ : U ((Stack.run (r.demote t d) (Stack.run (w t) s).2).2 l.warm).tier :=
      Stack.run_keeps hU _ l.warm (Stack.run_keeps hU (w t) l.warm hwarm)
    have hrest : ∀ j ∈ above, (Stack.run (r.demote t d) (Stack.run (w t) s).2).2 j = s₀ j := by
      intro j hj
      obtain ⟨hjt, hjd⟩ :=
        disjoint_of_split (Layout.split_near hsplit') (List.mem_reverse.2 hj)
      refine (hothers j fun hmem => ?_).trans (habove j (List.mem_cons_of_mem t hj))
      obtain rfl | hmem := List.mem_cons.1 hmem
      · exact hjt rfl
      · exact hjd (List.mem_append_left _ hmem)
    obtain ⟨s', hrun, hnear, horigin, hs'⟩ := ih (t :: done) hsplit' hrest
      (by rw [hmine, write_write]) (fun _ => hmine) hvouches hwarm₁
    refine ⟨s', ?_, hnear, horigin.trans (hothers l.origin fun hmem => ?_), hs'⟩
    · rw [Stack.run_writeThrough_cons r hw hd, ← hrun]
      generalize Stack.run (w t) s = out at hok hstay
      obtain ⟨a, s₁⟩ := out
      obtain rfl : a = .ok d := hok
      simp only [hstay, List.append_nil]
    · exact l.origin_not_mem (hsplit' ▸ List.mem_append_right _ hmem)

/-- A write-through puts the entries into the bottom tier, and then above it. -/
theorem writeThrough_front {s : Stack T n} (hs : s.Vouches P) (hwarm : U (s l.warm).tier)
    (horigin : U (s l.origin).tier) :
    ∃ s', Stack.run (r.writeThrough w (List.finRange n).reverse []) s = (.ok [], s') ∧
      s'.view l.near = write (s.view l.near) es ∧
      s'.held l.origin = write (s.held l.origin) es ∧
      s' l.origin = (Stack.run (w l.origin) s).2 l.origin ∧ s'.Vouches P := by
  obtain ⟨d, hok⟩ := hputs.accepted l.origin s
  obtain rfl := hputs.keeps l.origin s d horigin hok
  have hs₁ := (hs.run (hputs.clean l.origin)).2
  have hothers : ∀ j ∈ l.near, (Stack.run (w l.origin) s).2 j = s j := fun j hj =>
    hputs.writes.other l.origin s j fun h => l.origin_not_mem (h ▸ hj)
  have hne : l.near.reverse ≠ [] := by simp [Layout.near]
  obtain ⟨s', hrun, hnear, hbottom, hs'⟩ := r.writeThrough_near hw hd hacc hU hputs
    l.near.reverse [] (by simp) (fun j hj => hothers j (List.mem_reverse.1 hj)) rfl
    (fun h => absurd h hne) hs₁ (Stack.run_keeps hU (w l.origin) l.warm hwarm)
  have hheld := hputs.writes.conserves l.origin s [] hok
  rw [latest_nil, atop_empty] at hheld
  refine ⟨s', ?_, hnear, ?_, hbottom, hs'⟩
  · rw [l.finRange_eq, List.reverse_append, List.reverse_singleton, List.singleton_append,
      Stack.run_writeThrough_cons r hw hd, ← hrun]
    generalize Stack.run (w l.origin) s = out at hok
    obtain ⟨a, s₁⟩ := out
    obtain rfl : a = .ok [] := hok
    simp only [Stack.run_demote_nil, List.append_nil]
  · rw [Stack.held_congr hbottom, hheld]

end Through

/-! ## Deletions -/
section Deletions
variable (hw : ∀ i, r.writable i = true)
include hw

omit [DecidableEq K] [Tier T K V E] [LawfulTier T] in
theorem writables_all (tiers : List (Fin n)) : r.writables tiers = tiers :=
  List.filter_eq_self.2 fun t _ => hw t

omit [DecidableEq K] [LawfulTier T] in
theorem answers_all (call : TierCall K V) {f : Fin n → call.Output} {s : Stack T n}
    (h : ∀ t, (Tier.call (s t).tier call).1 = .ok (f t)) :
    r.answers call (List.finRange n) s = (List.finRange n).map fun t => (t, .ok (f t)) := by
  rw [answers, r.writables_all hw]
  exact List.map_congr_left fun t _ => by rw [Stack.exec_answer, h t]

end Deletions

theorem refusals_all {α : Type} (f : Fin n → α) (tiers : List (Fin n)) :
    r.refusals (tiers.map fun t => (t, (.ok (f t) : Except E α))) = [] := by
  refine r.refusals_eq_nil.2 fun t a h => ?_
  obtain ⟨t', -, h⟩ := List.mem_map.1 h
  exact ⟨f t', (congrArg Prod.snd h).symm⟩

theorem orFlags_firstFlags (f g : K → Bool) (ks : List K) :
    orFlags (firstFlags f ks) (firstFlags g ks) = firstFlags (fun k => f k || g k) ks := by
  induction ks generalizing f g with
  | nil => rfl
  | cons k rest ih =>
    have hupdate : (fun x => Function.update f k false x || Function.update g k false x) =
        Function.update (fun x => f x || g x) k false := by
      funext x
      by_cases hx : x = k <;> simp [hx]
    rw [firstFlags, firstFlags, orFlags, ih, hupdate, firstFlags]

theorem orAnswers_firstFlags (f : Fin n → K → Bool) (g : K → Bool) (ks : List K)
    (tiers : List (Fin n)) :
    orAnswers (firstFlags g ks)
        (tiers.map fun t => (t, (.ok (firstFlags (f t) ks) : Except E (List Bool)))) =
      firstFlags (fun k => g k || tiers.any fun t => f t k) ks := by
  induction tiers generalizing g with
  | nil => simp [orAnswers]
  | cons t tiers ih =>
    rw [List.map_cons, orAnswers, List.foldl_cons, orAnswer, orFlags_firstFlags, ← orAnswers, ih]
    simp only [List.any_cons, Bool.or_assoc]

theorem firstFlags_false (ks : List K) :
    firstFlags (fun _ => false) ks = List.replicate ks.length false := by
  induction ks with
  | nil => rfl
  | cons k rest ih =>
    have hupdate : Function.update (fun _ : K => false) k false = fun _ => false :=
      Function.update_eq_self k _
    rw [firstFlags, hupdate, ih]
    rfl

end Router
end Tierstore
