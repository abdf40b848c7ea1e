import Tierstore.Router

/-! The loop that drives the read flow, unrolled: the tiers are probed downwards, and a hit
is copied upwards. In particular the loop ends and the flow never panics. -/
namespace Tierstore
open Effects

namespace Router
variable {n : Nat} {K V E : Type} (r : Router n)

def hitTargets (tier : Fin n) : List (Fin n) :=
  if tier.val = 0 then [] else r.promoteTargets tier

def exhausted {α : Type} (miss : α) (failures : List (TierFailure E)) : Except (RouterError E) α :=
  if failures = [] then .ok miss else .error (.inconclusive failures)

def readDown (key : K) : List (Fin n) → List (TierFailure E) →
    RouterM n K V E (Except (RouterError E) (Option V))
  | [], failures => pure (exhausted none failures)
  | tier :: below, failures => do
    match ← getAt tier key with
    | .ok (some value) =>
      (r.hitTargets tier).forM fun target => r.promoteOne target key (some value)
      pure (.ok (some value))
    | .ok none => readDown key below failures
    | .error source =>
      match r.policy.read.onError with
      | .failFast => pure (.error (.tier (r.failure tier source)))
      | .fallThrough => readDown key below (failures ++ [r.failure tier source])

def existsDown (key : K) : List (Fin n) → List (TierFailure E) →
    RouterM n K V E (Except (RouterError E) Bool)
  | [], failures => pure (exhausted false failures)
  | tier :: below, failures => do
    match ← existsAt tier key with
    | .ok true => pure (.ok true)
    | .ok false => existsDown key below failures
    | .error source =>
      match r.policy.read.onError with
      | .failFast => pure (.error (.tier (r.failure tier source)))
      | .fallThrough => existsDown key below (failures ++ [r.failure tier source])

def probing (n : Nat) (policy : ReadPolicy) (j errors : Nat) : ReadFlow :=
  { tiers := n, policy, errors
    state := if j < n then .probe j else if errors > 0 then .done .inconclusive
      else .done .miss }

theorem new_eq (policy : ReadPolicy) : ReadFlow.new n policy = probing n policy 0 0 := by
  by_cases hn : n = 0
  · simp [ReadFlow.new, probing, hn]
  · simp [ReadFlow.new, probing, hn, Nat.pos_of_ne_zero hn]

theorem onGet_probing (policy : ReadPolicy) {j : Nat} (hj : j < n) (errors : Nat) (p : Probe) :
    (probing n policy j errors).onGet p =
      match p with
      | .hit => some { probing n policy j errors with
          state := (probing n policy j errors).afterHit j }
      | .miss => some (probing n policy (j + 1) errors)
      | .error => match policy.onError with
        | .failFast => some { probing n policy j errors with state := .done (.failed j) }
        | .fallThrough => some (probing n policy (j + 1) (errors + 1)) := by
  cases p with
  | hit => simp [ReadFlow.onGet, probing, hj]
  | miss => simp [ReadFlow.onGet, probing, hj, ReadFlow.advance]
  | error => cases he : policy.onError <;> simp [ReadFlow.onGet, probing, hj, ReadFlow.advance, he]

theorem drop_finRange {j : Nat} (h : j < n) :
    (List.finRange n).drop j = ⟨j, h⟩ :: (List.finRange n).drop (j + 1) := by
  rw [List.drop_eq_getElem_cons (by simpa using h)]
  simp

theorem drop_take_finRange {j hit : Nat} (hj : j < hit) (hn : hit ≤ n) :
    ((List.finRange n).take hit).drop j =
      ⟨j, by omega⟩ :: ((List.finRange n).take hit).drop (j + 1) := by
  rw [List.drop_eq_getElem_cons (by simp; omega)]
  simp

/-- The promotions under `allAbove`, from tier `next` up to the tier of the hit. -/
theorem getLoop_promote (key : K) (value : V) (failures : List (TierFailure E))
    {hit : Nat} (hn : hit < n) (policy : ReadPolicy) (hp : policy.promote = .allAbove)
    (errors m : Nat) (next fuel : Nat) (hm : next + (m + 1) = hit) (hfuel : m + 2 ≤ fuel) :
    r.getLoop key fuel { tiers := n, policy, errors, state := .promote hit next }
        (some value) failures =
      (do
        (((List.finRange n).take hit).drop next).forM
          fun target => r.promoteOne target key (some value)
        pure (some (.ok (some value))) : RouterM n K V E _) := by
  induction m generalizing next fuel with
  | zero =>
    obtain ⟨fuel, rfl⟩ : ∃ f, fuel = f + 2 := ⟨fuel - 2, by omega⟩
    have hdone : (((List.finRange n).take hit).drop (next + 1)) = [] := by
      rw [List.drop_eq_nil_iff]
      simp
      omega
    rw [drop_take_finRange (by omega) (by omega), hdone]
    have hlt : next < n := by omega
    simp only [getLoop, ReadFlow.step, hlt, dif_pos, ReadFlow.onPromote, hp]
    simp [hm, conclude]
  | succ m ih =>
    obtain ⟨fuel, rfl⟩ : ∃ f, fuel = f + 1 := ⟨fuel - 1, by omega⟩
    have hlt : next < n := by omega
    have hne : next + 1 ≠ hit := by omega
    rw [drop_take_finRange (by omega) (by omega)]
    simp only [getLoop, ReadFlow.step, hlt, dif_pos, ReadFlow.onPromote, hp, if_neg hne]
    rw [ih (next + 1) fuel (by omega) (by omega)]
    simp

/-- What follows a hit: the promotions the flow asks for, then the value. -/
theorem getLoop_hit (key : K) (value : V) (failures : List (TierFailure E)) {hit : Nat}
    (hn : hit < n) (errors fuel : Nat) (hfuel : n + 1 ≤ fuel) :
    r.getLoop key fuel
        { probing n r.policy.read hit errors with
          state := (probing n r.policy.read hit errors).afterHit hit } (some value) failures =
      (do
        (r.hitTargets ⟨hit, hn⟩).forM fun target => r.promoteOne target key (some value)
        pure (some (.ok (some value))) : RouterM n K V E _) := by
  obtain ⟨fuel, rfl⟩ : ∃ f, fuel = f + 2 := ⟨fuel - 2, by omega⟩
  by_cases h0 : hit = 0
  · simp [ReadFlow.afterHit, h0, getLoop, ReadFlow.step, conclude, hitTargets]
  · cases hp : r.policy.read.promote with
    | never =>
      simp [ReadFlow.afterHit, probing, hp, getLoop, ReadFlow.step, conclude, hitTargets,
        promoteTargets]
    | topOnly =>
      have hpos : 0 < n := by omega
      have htop : (List.finRange n).take 1 = [⟨0, hpos⟩] := by
        have h := drop_finRange (n := n) hpos
        rw [List.drop_zero] at h
        rw [h]
        simp
      simp [ReadFlow.afterHit, probing, hp, h0, getLoop, ReadFlow.step, hpos,
        ReadFlow.onPromote, conclude, hitTargets, promoteTargets, htop]
    | allAbove =>
      have hloop := r.getLoop_promote key value failures hn r.policy.read hp errors (hit - 1) 0
        (fuel + 2) (by omega) (by omega)
      simp only [ReadFlow.afterHit, probing, h0, hp, reduceCtorEq, or_false, if_false]
      rw [hloop]
      simp [hitTargets, h0, promoteTargets, hp]

theorem getLoop_eq (key : K) (d j fuel : Nat) (hj : j + d = n) (hfuel : d + n + 1 ≤ fuel)
    (failures : List (TierFailure E)) :
    r.getLoop key fuel (probing n r.policy.read j failures.length) none failures =
      (some <$> r.readDown key ((List.finRange n).drop j) failures : RouterM n K V E _) := by
  induction d generalizing j fuel failures with
  | zero =>
    obtain ⟨fuel, rfl⟩ : ∃ f, fuel = f + 1 := ⟨fuel - 1, by omega⟩
    have hdrop : (List.finRange n).drop j = [] := by
      rw [List.drop_eq_nil_iff]
      simp
      omega
    have hlt : ¬ j < n := by omega
    rw [hdrop, readDown]
    cases failures <;>
      simp [probing, hlt, getLoop, ReadFlow.step, conclude, exhausted]
  | succ d ih =>
    obtain ⟨fuel, rfl⟩ : ∃ f, fuel = f + 1 := ⟨fuel - 1, by omega⟩
    have hlt : j < n := by omega
    have hstep : (probing n r.policy.read j failures.length).step = .get j := by
      simp [probing, ReadFlow.step, hlt]
    have hget := onGet_probing r.policy.read hlt failures.length
    rw [drop_finRange hlt, readDown, map_bind, getLoop]
    simp only [hstep, hlt, dif_pos]
    refine congrArg _ (funext fun a => ?_)
    cases a with
    | ok found =>
      cases found with
      | some value =>
        simp only [hget]
        rw [getLoop_hit r key value failures hlt _ fuel (by omega)]
        simp
      | none =>
        simp only [hget]
        exact ih (j + 1) fuel (by omega) (by omega) failures
    | error source =>
      simp only [hget]
      cases r.policy.read.onError with
      | failFast =>
        obtain ⟨fuel, rfl⟩ : ∃ f, fuel = f + 1 := ⟨fuel - 1, by omega⟩
        simp [getLoop, ReadFlow.step, conclude]
      | fallThrough =>
        have h := ih (j + 1) fuel (by omega) (by omega)
          (failures ++ [r.failure ⟨j, hlt⟩ source])
        rwa [List.length_append] at h

/-- The driven read ends, without a panic, as the plain walk down the tiers. -/
theorem get_eq (key : K) :
    r.get key = (some <$> r.readDown key (List.finRange n) [] : RouterM n K V E _) := by
  have h := r.getLoop_eq (V := V) (E := E) key n 0 (2 * n + 1) (by omega) (by omega) []
  rw [get, new_eq]
  exact h

theorem existsLoop_eq (key : K) {onError : OnReadError} (he : r.policy.read.onError = onError)
    (d j fuel : Nat) (hj : j + d = n) (hfuel : d + 1 ≤ fuel)
    (failures : List (TierFailure E)) :
    r.existsLoop key fuel
        (probing n { promote := .never, onError } j failures.length) failures =
      (some <$> r.existsDown key ((List.finRange n).drop j) failures : RouterM n K V E _) := by
  obtain ⟨fuel, rfl⟩ : ∃ f, fuel = f + 1 := ⟨fuel - 1, by omega⟩
  induction d generalizing j fuel failures with
  | zero =>
    have hdrop : (List.finRange n).drop j = [] := by
      rw [List.drop_eq_nil_iff]
      simp
      omega
    have hlt : ¬ j < n := by omega
    rw [hdrop, existsDown]
    cases failures <;>
      simp [probing, hlt, existsLoop, ReadFlow.step, conclude, exhausted]
  | succ d ih =>
    obtain ⟨fuel, rfl⟩ : ∃ f, fuel = f + 1 := ⟨fuel - 1, by omega⟩
    have hlt : j < n := by omega
    have hget := onGet_probing { promote := .never, onError } hlt failures.length
    have hstep : (probing n { promote := .never, onError } j failures.length).step = .get j := by
      simp [probing, ReadFlow.step, hlt]
    rw [drop_finRange hlt, existsDown, map_bind, existsLoop]
    simp only [hstep, hlt, dif_pos]
    refine congrArg _ (funext fun a => ?_)
    cases a with
    | ok found =>
      cases found with
      | true =>
        simp only [hget]
        simp [existsLoop, ReadFlow.step, ReadFlow.afterHit, probing, conclude]
      | false =>
        simp only [hget]
        exact ih (j + 1) (by omega) failures fuel (by omega)
    | error source =>
      simp only [hget, he]
      cases onError with
      | failFast => simp [existsLoop, ReadFlow.step, conclude]
      | fallThrough =>
        have h := ih (j + 1) (by omega) (failures ++ [r.failure ⟨j, hlt⟩ source]) fuel (by omega)
        rwa [List.length_append] at h

theorem exists_eq (key : K) :
    r.exists_ key = (some <$> r.existsDown key (List.finRange n) [] : RouterM n K V E _) := by
  have h := r.existsLoop_eq (V := V) (E := E) key rfl n 0 (n + 1) (by omega) (by omega) []
  rw [exists_, new_eq]
  exact h

/-! ## Batched reads -/

/-- A position has its old status, or is a hit of the tier that was asked. -/
theorem resolve_cases {m : Nat} (t : Fin n) (l : List (Fin m × Option V))
    (statuses : Fin m → KeyStatus V) (i : Fin m) :
    (resolve t l statuses).1 i = statuses i ∨
      ∃ v, (i, some v) ∈ l ∧ (resolve t l statuses).1 i = .hit t v := by
  induction l generalizing statuses with
  | nil => exact Or.inl rfl
  | cons e rest ih =>
    obtain ⟨j, found⟩ := e
    cases found with
    | none =>
      obtain hold | ⟨v, hmem, hhit⟩ := ih statuses
      · exact Or.inl hold
      · exact Or.inr ⟨v, List.mem_cons_of_mem _ hmem, hhit⟩
    | some w =>
      rw [resolve]
      obtain hold | ⟨v, hmem, hhit⟩ := ih (Function.update statuses j (.hit t w))
      · by_cases hij : i = j
        · subst hij
          rw [Function.update_self] at hold
          exact Or.inr ⟨w, List.mem_cons_self, hold⟩
        · rw [Function.update_of_ne hij] at hold
          exact Or.inl hold
      · exact Or.inr ⟨v, List.mem_cons_of_mem _ hmem, hhit⟩

/-- What is copied upwards from tier `t` was hit there. -/
theorem hit_of_mem_hitEntries {keys : List K} {statuses : Fin keys.length → KeyStatus V} {t : Fin n}
    {e : K × V} (h : e ∈ hitEntries keys statuses t) :
    ∃ i, keys.get i = e.1 ∧ statuses i = .hit t e.2 := by
  obtain ⟨i, hhit, hi⟩ := List.mem_filterMap.1 h
  obtain ⟨v, hv, rfl⟩ := Option.map_eq_some_iff.1 hi
  refine ⟨i, rfl, ?_⟩
  have htier : (statuses i).tier = some t.val := by
    simpa [hitAt] using (List.mem_filter.1 hhit).2
  cases hstatus : statuses i with
  | hit tier value =>
    rw [hstatus] at htier hv
    rw [Option.some.inj htier, Option.some.inj hv]
  | miss =>
    rw [hstatus] at hv
    cases hv
  | inconclusive =>
    rw [hstatus] at hv
    cases hv

theorem mem_hitEntries {keys : List K} {statuses : Fin keys.length → KeyStatus V} {t : Fin n}
    {e : K × V} (h : e ∈ hitEntries keys statuses t) :
    ∃ i, keys.get i = e.1 ∧ (statuses i).value = some e.2 := by
  obtain ⟨i, hkey, hhit⟩ := hit_of_mem_hitEntries h
  exact ⟨i, hkey, by rw [hhit]; rfl⟩

end Router
end Tierstore
