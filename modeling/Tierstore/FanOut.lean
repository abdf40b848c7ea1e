import Tierstore.Client
import Tierstore.Report

/-! Deletions and invalidations send one call to every writable tier. The loops in closed form:
what each tier is left with, and what the router answers. -/
namespace Tierstore
open Effects

namespace Stack
variable {T K V E : Type} {n : Nat} [Tier T K V E]

/-- The call on each of the tiers, one after the other, with the answers. -/
def sweep (call : TierCall K V) :
    List (Fin n) → Stack T n → List (Fin n × Except E call.Output) × Stack T n
  | [], s => ([], s)
  | t :: tiers, s =>
    let out := exec (t, call) s
    let rest := sweep call tiers out.2
    ((t, out.1) :: rest.1, rest.2)

def each (call : TierCall K V) (tiers : List (Fin n)) (s : Stack T n) : Stack T n :=
  fun t => if tiers.contains t then (exec (t, call) s).2 t else s t

theorem each_of_mem {call : TierCall K V} {tiers : List (Fin n)} {t : Fin n} (h : t ∈ tiers)
    (s : Stack T n) : s.each call tiers t = (exec (t, call) s).2 t :=
  if_pos (List.contains_iff_mem.2 h)

theorem each_of_not_mem {call : TierCall K V} {tiers : List (Fin n)} {t : Fin n} (h : t ∉ tiers)
    (s : Stack T n) : s.each call tiers t = s t :=
  if_neg (mt List.contains_iff_mem.1 h)

theorem exec_congr (call : TierCall K V) {t : Fin n} {s s' : Stack T n} (h : s' t = s t) :
    (exec (t, call) s').1 = (exec (t, call) s).1 ∧
      (exec (t, call) s').2 t = (exec (t, call) s).2 t := by
  simp [exec, h]

/-- On tiers that are all different the order does not matter. -/
theorem sweep_eq (call : TierCall K V) {tiers : List (Fin n)} (hnd : tiers.Nodup)
    (s : Stack T n) :
    sweep call tiers s = (tiers.map fun t => (t, (exec (t, call) s).1), s.each call tiers) := by
  induction tiers generalizing s with
  | nil =>
    rw [sweep]
    refine Prod.ext rfl (funext fun t => ?_)
    simp [each]
  | cons t tiers ih =>
    obtain ⟨ht, hnd⟩ := List.nodup_cons.1 hnd
    have hkept : ∀ j ≠ t, (exec (t, call) s).2 j = s j := fun j hj => exec_other (t, call) s hj
    rw [sweep]
    simp only [ih hnd]
    refine Prod.ext ?_ (funext fun j => ?_)
    · refine congrArg (List.cons _) (List.map_congr_left fun j hj => ?_)
      have hne : j ≠ t := fun h => ht (h ▸ hj)
      rw [(exec_congr call (hkept j hne)).1]
    · by_cases hjt : j = t
      · subst hjt
        simp [each, ht]
      · have hj := (exec_congr call (hkept j hjt)).2
        simp [each, hjt, hj, hkept j hjt]

end Stack

namespace Router
variable {T K V E : Type} {n : Nat} [Tier T K V E] (r : Router n)

def writables (tiers : List (Fin n)) : List (Fin n) := tiers.filter r.writable

def refusals {α : Type} (answers : List (Fin n × Except E α)) : List (TierFailure E) :=
  answers.filterMap fun e => match e.2 with
    | .ok _ => none
    | .error source => some (r.failure e.1 source)

section Refusals
variable {α : Type} {answers : List (Fin n × Except E α)}

theorem refusals_eq_nil :
    r.refusals answers = [] ↔ ∀ t a, (t, a) ∈ answers → ∃ x, a = .ok x := by
  rw [refusals, List.filterMap_eq_nil_iff]
  constructor
  · intro h t a hmem
    have ha := h (t, a) hmem
    cases a with
    | ok x => exact ⟨x, rfl⟩
    | error source => cases ha
  · rintro h ⟨t, a⟩ hmem
    obtain ⟨x, rfl⟩ := h t a hmem
    rfl

theorem refusals_ok (t : Fin n) (x : α) (answers : List (Fin n × Except E α)) :
    r.refusals ((t, .ok x) :: answers) = r.refusals answers := rfl

theorem refusals_error (t : Fin n) (source : E) (answers : List (Fin n × Except E α)) :
    r.refusals ((t, .error source) :: answers) = r.failure t source :: r.refusals answers := rfl

end Refusals

theorem writables_cons {t : Fin n} (h : r.writable t = true) (tiers : List (Fin n)) :
    r.writables (t :: tiers) = t :: r.writables tiers := List.filter_cons_of_pos h

theorem writables_skip {t : Fin n} (h : r.writable t = false) (tiers : List (Fin n)) :
    r.writables (t :: tiers) = r.writables tiers :=
  List.filter_cons_of_neg (by simp [h])

theorem run_invalidate (call : TierCall K V)
    {remove : Fin n → RouterM n K V E (Except E call.Output)}
    (hremove : ∀ t, remove t = Program.ask (t, call)) (tiers : List (Fin n))
    (failures : List (TierFailure E)) (s : Stack T n) :
    Stack.run (r.invalidate remove tiers failures) s =
      (failures ++ r.refusals (Stack.sweep call (r.writables tiers) s).1,
        (Stack.sweep call (r.writables tiers) s).2) := by
  induction tiers generalizing failures s with
  | nil => simp [invalidate, writables, Stack.sweep, refusals]
  | cons t tiers ih =>
    rw [invalidate]
    cases hw : r.writable t with
    | false => simp [r.writables_skip hw, ih]
    | true =>
      simp only [Bool.not_true, Bool.false_eq_true, if_false, Stack.run_bind,
        r.writables_cons hw, Stack.sweep, hremove t]
      have hask : Stack.run (Program.ask (t, call) : RouterM n K V E (Except E call.Output)) s =
          Stack.exec (t, call) s := rfl
      rw [hask]
      cases hres : (Stack.exec (t, call) s).1 with
      | ok a => rw [ih, refusals_ok]
      | error source => rw [ih, refusals_error, List.append_assoc, List.singleton_append]

def flagOf : Except E Bool → Bool
  | .ok present => present
  | .error _ => false

def anyPresent (answers : List (Fin n × Except E Bool)) : Bool := answers.any fun e => flagOf e.2

theorem run_deleteTiers (key : K) (tiers : List (Fin n)) (existed : Bool)
    (failures : List (TierFailure E)) (s : Stack T n) :
    Stack.run (r.deleteTiers key tiers existed failures) s =
      (if (failures ++ r.refusals (Stack.sweep (.delete key) (r.writables tiers) s).1).isEmpty then
          .ok (existed || anyPresent (Stack.sweep (.delete key) (r.writables tiers) s).1)
        else .error (.partial_
          (failures ++ r.refusals (Stack.sweep (.delete key) (r.writables tiers) s).1)),
        (Stack.sweep (.delete key) (r.writables tiers) s).2) := by
  induction tiers generalizing existed failures s with
  | nil =>
    rw [deleteTiers]
    cases failures <;> simp [writables, Stack.sweep, refusals, anyPresent]
  | cons t tiers ih =>
    rw [deleteTiers]
    cases hw : r.writable t with
    | false => simp [r.writables_skip hw, ih]
    | true =>
      simp only [Bool.not_true, Bool.false_eq_true, if_false, Stack.run_bind, Stack.run_deleteAt,
        r.writables_cons hw, Stack.sweep]
      cases hres : (Stack.exec (t, .delete key) s).1 with
      | ok present =>
        simp only [ih, refusals_ok, anyPresent, List.any_cons, flagOf, Bool.or_assoc]
        rfl
      | error source =>
        simp only [ih, refusals_error, anyPresent, List.any_cons, flagOf, Bool.false_or,
          List.append_assoc, List.singleton_append]

def orAnswer (removed : List Bool) : Except E (List Bool) → List Bool
  | .ok flags => orFlags removed flags
  | .error _ => removed

def orAnswers (removed : List Bool) (answers : List (Fin n × Except E (List Bool))) : List Bool :=
  answers.foldl (fun removed e => orAnswer removed e.2) removed

theorem run_removeTiers (keys : List K) (tiers : List (Fin n)) (removed : List Bool)
    (failures : List (TierFailure E)) (s : Stack T n) :
    Stack.run (r.removeTiers keys tiers removed failures) s =
      ({ removed := orAnswers removed (Stack.sweep (.deleteMany keys) (r.writables tiers) s).1
         failures := failures ++
          r.refusals (Stack.sweep (.deleteMany keys) (r.writables tiers) s).1 },
        (Stack.sweep (.deleteMany keys) (r.writables tiers) s).2) := by
  induction tiers generalizing removed failures s with
  | nil => simp [removeTiers, writables, Stack.sweep, refusals, orAnswers]
  | cons t tiers ih =>
    rw [removeTiers]
    cases hw : r.writable t with
    | false => simp [r.writables_skip hw, ih]
    | true =>
      simp only [Bool.not_true, Bool.false_eq_true, if_false, Stack.run_bind,
        Stack.run_deleteManyAt, r.writables_cons hw, Stack.sweep]
      cases hres : (Stack.exec (t, .deleteMany keys) s).1 with
      | ok flags => simp only [ih, refusals_ok, orAnswers, List.foldl_cons, orAnswer]
      | error source =>
        simp only [ih, refusals_error, orAnswers, List.foldl_cons, orAnswer, List.append_assoc,
          List.singleton_append]

/-! ## Whole operations -/

def answers (call : TierCall K V) (tiers : List (Fin n)) (s : Stack T n) :
    List (Fin n × Except E call.Output) :=
  (r.writables tiers).map fun t => (t, (Stack.exec (t, call) s).1)

theorem sweep_writables (call : TierCall K V) {tiers : List (Fin n)} (hnd : tiers.Nodup)
    (s : Stack T n) : Stack.sweep call (r.writables tiers) s =
      (r.answers call tiers s, s.each call (r.writables tiers)) :=
  Stack.sweep_eq call (hnd.filter _) s

/-- Without a refusal every writable tier has accepted the call. -/
theorem accepted_of_refusals {call : TierCall K V} {tiers : List (Fin n)} {s : Stack T n}
    (h : (r.refusals (r.answers call tiers s)).isEmpty = true) {t : Fin n}
    (ht : t ∈ r.writables tiers) : ∃ a, (Stack.exec (t, call) s).1 = .ok a :=
  r.refusals_eq_nil.1 (List.isEmpty_iff.1 h) t _ (List.mem_map.2 ⟨t, ht, rfl⟩)

def deleted (answers : List (Fin n × Except E Bool)) : Except (RouterError E) Bool :=
  if (r.refusals answers).isEmpty then .ok (anyPresent answers)
  else .error (.partial_ (r.refusals answers))

def deleteReport (keys : List K) (answers : List (Fin n × Except E (List Bool))) :
    DeleteReport E :=
  { removed := orAnswers (List.replicate keys.length false) answers
    failures := r.refusals answers }

theorem run_delete (key : K) (s : Stack T n) :
    Stack.run (r.delete key) s = (r.deleted (r.answers (.delete key) (List.finRange n) s),
      s.each (.delete key) (r.writables (List.finRange n))) := by
  rw [delete, run_deleteTiers, r.sweep_writables _ (List.nodup_finRange n)]
  simp only [List.nil_append, Bool.false_or]
  rfl

theorem run_removeMany (keys : List K) (s : Stack T n) :
    Stack.run (r.removeMany keys) s =
      (r.deleteReport keys (r.answers (.deleteMany keys) (List.finRange n) s),
        s.each (.deleteMany keys) (r.writables (List.finRange n))) := by
  rw [removeMany, run_removeTiers, r.sweep_writables _ (List.nodup_finRange n)]
  rfl

theorem run_deleteMany (keys : List K) (s : Stack T n) :
    Stack.run (r.deleteMany keys) s =
      (let report := r.deleteReport keys (r.answers (.deleteMany keys) (List.finRange n) s)
       if report.isComplete then .ok report.removed else .error (.partial_ report.failures),
        s.each (.deleteMany keys) (r.writables (List.finRange n))) := by
  rw [deleteMany, Stack.run_bind, run_removeMany]
  dsimp only
  split <;> rfl

abbrev above (bottom : Fin n) : List (Fin n) := (List.finRange n).take bottom

/-- The tiers under the bottom one are all read-only. -/
theorem bottom_spec {bottom : Fin n} (h : r.bottom = some bottom) :
    r.writable bottom = true ∧ ∀ t, r.writable t = true → t = bottom ∨ t ∈ above bottom := by
  obtain ⟨hw, after, before, hsplit, hreadOnly⟩ := List.find?_eq_some_iff_append.1 h
  have hrange : List.finRange n = before.reverse ++ bottom :: after.reverse := by
    rw [← List.reverse_reverse (List.finRange n), hsplit]
    simp
  refine ⟨hw, fun t ht => ?_⟩
  have hmem : t ∈ before.reverse ++ bottom :: after.reverse := hrange ▸ List.mem_finRange t
  have habove : above bottom = before.reverse := by
    rw [above, val_of_split hrange, hrange]
    simp
  rw [habove]
  obtain hmem | hmem := List.mem_append.1 hmem
  · exact Or.inr hmem
  · obtain rfl | hmem := List.mem_cons.1 hmem
    · exact Or.inl rfl
    · have hno := hreadOnly t (List.mem_reverse.1 hmem)
      simp [ht] at hno

def writtenAround (bottom : Fin n) (call : TierCall K V)
    (out : Except E (Displaced K V) × Stack T n) :
    Except (RouterError E) (Displaced K V) × Stack T n :=
  match out with
  | (.error source, s) => (.error (.tier (r.failure bottom source)), s)
  | (.ok displaced, s) =>
    (if (r.refusals (r.answers call (above bottom) s)).isEmpty then .ok displaced
      else .error (.partial_ (r.refusals (r.answers call (above bottom) s))),
      s.each call (r.writables (above bottom)))

theorem run_writeAround {write : Fin n → RouterM n K V E (Except E (Displaced K V))}
    (call : TierCall K V) {remove : Fin n → RouterM n K V E (Except E call.Output)}
    (hremove : ∀ t, remove t = Program.ask (t, call)) {bottom : Fin n}
    (hbottom : r.bottom = some bottom) (s : Stack T n) :
    Stack.run (r.writeAround write remove) s =
      r.writtenAround bottom call (Stack.run (write bottom) s) := by
  have hnd : (above bottom).Nodup := (List.nodup_finRange n).sublist (List.take_sublist _ _)
  rw [writeAround, hbottom]
  simp only [writtenAround]
  simp only [Stack.run_bind]
  generalize Stack.run (write bottom) s = out
  obtain ⟨a, s₁⟩ := out
  cases a with
  | error source => rfl
  | ok displaced =>
    simp only [Stack.run_bind]
    rw [run_invalidate r call hremove]
    simp only [r.sweep_writables call hnd, List.nil_append]
    split <;> rfl

/-- Whatever the tiers answer, a delete sends one call to every writable tier and none to the
others, and so does a write-around, above the bottom one, once that has taken the write. The
answer lists exactly the failures, topmost first, and is a success only without any. -/
theorem fan_out_reaches_all (s : Stack T n) :
    (∀ key, Stack.run (r.delete key) s =
      (r.deleted (r.answers (.delete key) (List.finRange n) s),
        s.each (.delete key) (r.writables (List.finRange n)))) ∧
    (∀ keys, Stack.run (r.removeMany keys) s =
      (r.deleteReport keys (r.answers (.deleteMany keys) (List.finRange n) s),
        s.each (.deleteMany keys) (r.writables (List.finRange n)))) ∧
    (r.policy.write = .writeAround → ∀ bottom, r.bottom = some bottom →
      (∀ key value, Stack.run (r.put key value) s =
        r.writtenAround bottom (.delete key) (Stack.exec (bottom, .put key value) s)) ∧
      ∀ entries, Stack.run (r.putMany entries) s =
        r.writtenAround bottom (.deleteMany (entries.map Prod.fst))
          (Stack.exec (bottom, .putMany entries) s)) := by
  refine ⟨fun key => r.run_delete key s, fun keys => r.run_removeMany keys s, ?_⟩
  intro hmode bottom hbottom
  refine ⟨fun key value => ?_, fun entries => ?_⟩
  · rw [put, hmode]
    exact r.run_writeAround (.delete key) (fun _ => rfl) hbottom s
  · rw [putMany, hmode]
    exact r.run_writeAround (.deleteMany (entries.map Prod.fst)) (fun _ => rfl) hbottom s

end Router
end Tierstore
