import Tierstore.Lib.Simulate
import Tierstore.Reads

/-! One router placed inside a larger one: what its operations ask there. -/
namespace Tierstore
open Effects

inductive ErrorKind where
  | tier
  | inconclusive
  | partial_
  | readOnly
  deriving DecidableEq, Repr

def RouterError.kind {E : Type} : RouterError E → ErrorKind
  | .tier _ => .tier
  | .inconclusive _ => .inconclusive
  | .partial_ _ => .partial_
  | .readOnly => .readOnly

def SameKind {E F α : Type} (x : Except (RouterError E) α) (y : Except (RouterError F) α) : Prop :=
  x.mapError RouterError.kind = y.mapError RouterError.kind

namespace Router
variable {n p : Nat} {K V E F : Type}

/-! ## Single-key reads that move nothing -/

def probeDown {α : Type} (r : Router n) (ask : Fin n → RouterM n K V E (Except E α))
    (found : α → Bool) (miss : α) : List (Fin n) → List (TierFailure E) →
    RouterM n K V E (Except (RouterError E) α)
  | [], failures => pure (exhausted miss failures)
  | tier :: below, failures => do
    match ← ask tier with
    | .ok a => if found a then pure (.ok a) else probeDown r ask found miss below failures
    | .error source =>
      match r.policy.read.onError with
      | .failFast => pure (.error (.tier (r.failure tier source)))
      | .fallThrough => probeDown r ask found miss below (failures ++ [r.failure tier source])

theorem readDown_eq_probeDown {r : Router n} (hnever : r.policy.read.promote = .never) (key : K)
    (tiers : List (Fin n)) (failures : List (TierFailure E)) :
    r.readDown (V := V) key tiers failures =
      r.probeDown (fun t => getAt t key) Option.isSome none tiers failures := by
  have htargets (t : Fin n) : r.hitTargets t = [] := by
    rw [hitTargets, promoteTargets, hnever, ite_self]
  induction tiers generalizing failures with
  | nil => rfl
  | cons t below ih =>
    rw [readDown, probeDown]
    refine congrArg _ (funext fun a => ?_)
    cases a with
    | ok found =>
      cases found with
      | some v =>
        simp only [htargets]
        rfl
      | none => exact ih failures
    | error source =>
      cases r.policy.read.onError with
      | failFast => rfl
      | fallThrough => exact ih _

theorem existsDown_eq_probeDown {r : Router n} (key : K) (tiers : List (Fin n))
    (failures : List (TierFailure E)) :
    r.existsDown (V := V) key tiers failures =
      r.probeDown (fun t => existsAt t key) id false tiers failures := by
  induction tiers generalizing failures with
  | nil => rfl
  | cons t below ih =>
    rw [existsDown, probeDown]
    refine congrArg _ (funext fun a => ?_)
    cases a with
    | ok found =>
      cases found with
      | true => rfl
      | false => exact ih failures
    | error source =>
      cases r.policy.read.onError with
      | failFast => rfl
      | fallThrough => exact ih _

/-- Under fail-fast a read fails with one tier's error; otherwise with at least one failure. -/
theorem probeDown_errors {α : Type} {r : Router n} {ask : Fin n → RouterM n K V E (Except E α)}
    {found : α → Bool} {miss : α} {tiers : List (Fin n)} {failures : List (TierFailure E)}
    (h : r.policy.read.onError = .failFast → failures = []) :
    (r.probeDown ask found miss tiers failures).Safe (fun _ => True) (fun _ _ => True)
      (fun result => ∀ e, result = .error e →
        (r.policy.read.onError = .failFast ∧ e.kind = .tier) ∨
          (r.policy.read.onError = .fallThrough ∧ ∃ fs, fs ≠ [] ∧ e = .inconclusive fs)) := by
  induction tiers generalizing failures with
  | nil =>
    intro e he
    rw [exhausted] at he
    split at he
    · cases he
    · next hne =>
      cases he
      cases hfail : r.policy.read.onError with
      | failFast => exact absurd (h hfail) hne
      | fallThrough => exact Or.inr ⟨rfl, failures, hne, rfl⟩
  | cons t below ih =>
    refine (Program.safe_of_free (ask t)).bind fun a _ => ?_
    cases a with
    | ok a =>
      change Program.Safe _ _ _ (if found a then _ else _ : RouterM n K V E _)
      split
      · exact fun e he => by cases he
      · exact ih h
    | error source =>
      cases hfail : r.policy.read.onError with
      | failFast =>
        intro e he
        cases he
        exact Or.inl ⟨rfl, rfl⟩
      | fallThrough =>
        rw [hfail] at ih
        exact ih fun hfast => by cases hfast

theorem probeDown_append {α : Type} (r : Router n) (ask : Fin n → RouterM n K V E (Except E α))
    {found : α → Bool} {miss : α} (hmiss : found miss = false) (above below : List (Fin n))
    (failures : List (TierFailure E)) :
    r.probeDown ask found miss (above ++ below) failures =
      (r.probeDown ask found miss above failures >>= fun result =>
        match result with
        | .ok a => if found a then pure (.ok a) else r.probeDown ask found miss below []
        | .error (.inconclusive fs) => r.probeDown ask found miss below fs
        | .error e => pure (.error e) : RouterM n K V E _) := by
  induction above generalizing failures with
  | nil =>
    rw [List.nil_append, probeDown, exhausted]
    by_cases hf : failures = []
    · simp [hf, hmiss]
    · simp [hf]
  | cons t above ih =>
    rw [List.cons_append, probeDown, probeDown, bind_assoc]
    refine congrArg _ (funext fun a => ?_)
    cases a with
    | ok a =>
      dsimp only
      by_cases ha : found a = true
      · simp [ha]
      · simp only [ha, Bool.false_eq_true, if_false]
        exact ih failures
    | error source =>
      cases r.policy.read.onError with
      | failFast => rfl
      | fallThrough => exact ih _

/-! ## Deletes, demotions and writes in two parts -/

/-- After a failure the flag no longer matters. -/
theorem deleteTiers_failed (r : Router n) (key : K) (tiers : List (Fin n)) (existed existed' : Bool)
    {failures : List (TierFailure E)} (h : failures ≠ []) :
    r.deleteTiers (V := V) key tiers existed failures =
      r.deleteTiers key tiers existed' failures := by
  induction tiers generalizing existed existed' failures with
  | nil => simp [deleteTiers, h]
  | cons t below ih =>
    rw [deleteTiers, deleteTiers]
    split
    · exact ih existed existed' h
    · refine congrArg _ (funext fun a => ?_)
      cases a with
      | ok present => exact ih _ _ h
      | error source => exact ih _ _ (by simp)

theorem deleteTiers_append (r : Router n) (key : K) (above below : List (Fin n)) (existed : Bool)
    (failures : List (TierFailure E)) :
    r.deleteTiers key (above ++ below) existed failures =
      (r.deleteTiers key above existed failures >>= fun result =>
        match result with
        | .ok existed => r.deleteTiers key below existed []
        | .error (.partial_ failures) => r.deleteTiers key below false failures
        | .error e => pure (.error e) : RouterM n K V E _) := by
  induction above generalizing existed failures with
  | nil =>
    rw [List.nil_append, deleteTiers]
    by_cases hf : failures = []
    · simp [hf]
    · have hempty : failures.isEmpty = false := by simpa using hf
      simp only [hempty, Bool.false_eq_true, if_false]
      exact r.deleteTiers_failed key below existed false hf
  | cons t above ih =>
    rw [List.cons_append, deleteTiers, deleteTiers]
    split
    · exact ih existed failures
    · rw [bind_assoc]
      refine congrArg _ (funext fun a => ?_)
      cases a with
      | ok present => exact ih _ _
      | error source => exact ih _ _

/-- A delete fails with at least one failure. -/
theorem deleteTiers_errors (r : Router n) (key : K) (tiers : List (Fin n)) (existed : Bool)
    (failures : List (TierFailure E)) :
    (r.deleteTiers (V := V) key tiers existed failures).Safe (fun _ => True) (fun _ _ => True)
      (fun result => ∀ e, result = .error e → ∃ fs, fs ≠ [] ∧ e = .partial_ fs) := by
  induction tiers generalizing existed failures with
  | nil =>
    rw [deleteTiers]
    split
    · exact fun e he => by cases he
    · next hne =>
      intro e he
      cases he
      exact ⟨failures, by simpa using hne, rfl⟩
  | cons t below ih =>
    rw [deleteTiers]
    split
    · exact ih existed failures
    · refine ⟨trivial, fun a _ => ?_⟩
      cases a with
      | ok present => exact ih _ _
      | error source => exact ih _ _

theorem writeThrough_append (r : Router n)
    (write : Fin n → RouterM n K V E (Except E (Displaced K V))) (tiers above : List (Fin n))
    (evicted : Displaced K V) :
    r.writeThrough write (tiers ++ above) evicted =
      (r.writeThrough write tiers evicted >>= fun result =>
        match result with
        | .ok evicted => r.writeThrough write above evicted
        | .error e => pure (.error e) : RouterM n K V E _) := by
  induction tiers generalizing evicted with
  | nil => rfl
  | cons t tiers ih =>
    rw [List.cons_append, writeThrough, writeThrough]
    split
    · exact ih evicted
    · rw [bind_assoc]
      refine congrArg _ (funext fun a => ?_)
      cases a with
      | ok displaced =>
        dsimp only
        split
        · exact ih evicted
        · split
          · rw [bind_assoc]
            exact congrArg _ (funext fun out => ih _)
          · exact ih _
      | error source =>
        cases r.policy.onWriteError with
        | failFast => rfl
        | bestEffort => exact ih evicted

/-! ## Programs over part of the tiers -/

/-- Tier `i` of the smaller stack is tier `place i` of the larger one, and its errors come up
through `wrap`. -/
inductive Placed (place : Fin p → Fin n) (wrap : E → F) : (q : Query p K V) → (q' : Query n K V) →
    (Answer p K V E q → Answer n K V F q' → Prop) → Prop where
  | mk (i : Fin p) (c : TierCall K V) :
    Placed place wrap (i, c) (place i, c) fun a a' => a' = a.mapError wrap

variable {place : Fin p → Fin n} {wrap : E → F} {b : Router p} {r : Router n}

theorem ask_placed (i : Fin p) (c : TierCall K V) :
    Program.Sim (Placed place wrap) (fun a a' => a' = a.mapError wrap)
      (Program.ask (i, c) : RouterM p K V E _) (Program.ask (place i, c) : RouterM n K V F _) :=
  Program.Sim.ask (.mk i c)

theorem putAt_placed (key : K) (value : V) (i : Fin p) :
    Program.Sim (Placed place wrap) (fun a a' => a' = a.mapError wrap)
      (putAt i key value : RouterM p K V E _) (putAt (place i) key value : RouterM n K V F _) :=
  ask_placed i (.put key value)

theorem putManyAt_placed (entries : List (K × V)) (i : Fin p) :
    Program.Sim (Placed place wrap) (fun a a' => a' = a.mapError wrap)
      (putManyAt i entries : RouterM p K V E _) (putManyAt (place i) entries : RouterM n K V F _) :=
  ask_placed i (.putMany entries)

theorem probeDown_placed {α : Type} (hpolicy : r.policy = b.policy)
    {ask : Fin p → RouterM p K V E (Except E α)} {ask' : Fin n → RouterM n K V F (Except F α)}
    (hask : ∀ i, Program.Sim (Placed place wrap) (fun a a' => a' = a.mapError wrap) (ask i)
      (ask' (place i)))
    (found : α → Bool) (miss : α) (tiers : List (Fin p)) {failures : List (TierFailure E)}
    {failures' : List (TierFailure F)} (hfailures : failures = [] ↔ failures' = []) :
    Program.Sim (Placed place wrap) SameKind (b.probeDown ask found miss tiers failures)
      (r.probeDown ask' found miss (tiers.map place) failures') := by
  induction tiers generalizing failures failures' with
  | nil =>
    refine .done ?_
    rw [exhausted, exhausted]
    by_cases hf : failures = []
    · rw [if_pos hf, if_pos (hfailures.1 hf)]
      rfl
    · rw [if_neg hf, if_neg (mt hfailures.2 hf)]
      rfl
  | cons t below ih =>
    refine (hask t).bind ?_
    rintro a _ rfl
    cases a with
    | ok a =>
      change Program.Sim _ _ (if found a then _ else _ : RouterM p K V E _)
        (if found a then _ else _ : RouterM n K V F _)
      split
      · exact .done rfl
      · exact ih hfailures
    | error source =>
      rw [hpolicy]
      cases b.policy.read.onError with
      | failFast => exact .done rfl
      | fallThrough => exact ih (by simp)

theorem deleteTiers_placed (hw : ∀ i, r.writable (place i) = b.writable i) (key : K)
    (tiers : List (Fin p)) {existed existed' : Bool} {failures : List (TierFailure E)}
    {failures' : List (TierFailure F)} (hfailures : failures = [] ↔ failures' = [])
    (hexisted : failures = [] → existed = existed') :
    Program.Sim (Placed place wrap) SameKind (b.deleteTiers (V := V) key tiers existed failures)
      (r.deleteTiers key (tiers.map place) existed' failures') := by
  induction tiers generalizing existed existed' failures failures' with
  | nil =>
    rw [List.map_nil, deleteTiers, deleteTiers]
    by_cases hf : failures = []
    · obtain rfl := hexisted hf
      obtain rfl := hfailures.1 hf
      subst hf
      exact .done rfl
    · have hf' := mt hfailures.2 hf
      rw [if_neg (by simpa using hf), if_neg (by simpa using hf')]
      exact .done rfl
  | cons t below ih =>
    rw [List.map_cons, deleteTiers, deleteTiers, hw]
    split
    · exact ih hfailures hexisted
    · refine (ask_placed t (.delete key)).bind ?_
      rintro a _ rfl
      cases a with
      | ok present => exact ih hfailures fun hf => by rw [hexisted hf]
      | error source => exact ih (by simp) (by simp)

theorem demoteInto_placed (t : Fin p) (entries next : Displaced K V) :
    Program.Sim (Placed place wrap) Eq (demoteInto t entries next : RouterM p K V E _)
      (demoteInto (place t) entries next) := by
  induction entries generalizing next with
  | nil => exact .done rfl
  | cons e rest ih =>
    refine (ask_placed t (.put e.1 e.2)).bind ?_
    rintro a _ rfl
    cases a with
    | ok displaced => exact ih _
    | error source => exact ih _

theorem demoteDown_placed (hw : ∀ i, r.writable (place i) = b.writable i) (tiers : List (Fin p))
    (entries : Displaced K V) :
    Program.Sim (Placed place wrap) Eq (b.demoteDown tiers entries : RouterM p K V E _)
      (r.demoteDown (tiers.map place) entries) := by
  induction tiers generalizing entries with
  | nil => exact .done rfl
  | cons t below ih =>
    rw [List.map_cons, demoteDown, demoteDown, hw]
    split
    · exact .done rfl
    · split
      · exact ih entries
      · refine (demoteInto_placed t entries []).bind ?_
        rintro next _ rfl
        exact ih next

theorem writeThrough_placed (hpolicy : r.policy = b.policy)
    (hw : ∀ i, r.writable (place i) = b.writable i)
    (hbelow : ∀ i, tiersBelow (place i) = (tiersBelow i).map place)
    {write : Fin p → RouterM p K V E (Except E (Displaced K V))}
    {write' : Fin n → RouterM n K V F (Except F (Displaced K V))}
    (hwrite : ∀ i, Program.Sim (Placed place wrap) (fun a a' => a' = a.mapError wrap) (write i)
      (write' (place i)))
    (tiers : List (Fin p)) (evicted : Displaced K V) :
    Program.Sim (Placed place wrap) SameKind (b.writeThrough write tiers evicted)
      (r.writeThrough write' (tiers.map place) evicted) := by
  induction tiers generalizing evicted with
  | nil => exact .done rfl
  | cons t above ih =>
    rw [List.map_cons, writeThrough, writeThrough, hw, hpolicy]
    split
    · exact ih evicted
    · refine (hwrite t).bind ?_
      rintro a _ rfl
      cases a with
      | ok displaced =>
        change Program.Sim _ _ (if _ then _ else _ : RouterM p K V E _)
          (if _ then _ else _ : RouterM n K V F _)
        split
        · exact ih evicted
        · split
          · rw [demote, demote, hbelow]
            refine (demoteDown_placed hw _ displaced).bind ?_
            rintro out _ rfl
            exact ih _
          · exact ih _
      | error source =>
        cases b.policy.onWriteError with
        | failFast => exact .done rfl
        | bestEffort => exact ih evicted

end Router
end Tierstore
