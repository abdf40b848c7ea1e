/-! Runs of a step function over a list of inputs, and conditions on every step of a run. -/
namespace Runs
variable {S O : Type}

/-- Every input of the run meets `ok` in the state it arrives in. -/
def Along (step : S → O → S) (ok : S → O → Prop) : S → List O → Prop
  | _, [] => True
  | s, o :: os => ok s o ∧ Along step ok (step s o) os

instance decideAlong {step : S → O → S} {ok : S → O → Prop} [∀ s o, Decidable (ok s o)] :
    (s : S) → (os : List O) → Decidable (Along step ok s os)
  | _, [] => isTrue trivial
  | s, o :: os =>
    have : Decidable (Along step ok (step s o) os) := decideAlong (step s o) os
    inferInstanceAs (Decidable (ok s o ∧ Along step ok (step s o) os))

/-- What every step that meets `ok` keeps, a run of such steps keeps. -/
theorem Along.keeps {step : S → O → S} {ok : S → O → Prop} {inv : S → Prop}
    (hstep : ∀ s o, inv s → ok s o → inv (step s o)) {s : S} {os : List O}
    (hos : Along step ok s os) (hs : inv s) : inv (os.foldl step s) := by
  induction os generalizing s with
  | nil => exact hs
  | cons o os ih => exact ih hos.2 (hstep s o hs hos.1)

/-- What every step keeps, every run keeps. -/
theorem keeps {step : S → O → S} {inv : S → Prop} (hstep : ∀ s o, inv s → inv (step s o))
    {s : S} (os : List O) (hs : inv s) : inv (os.foldl step s) := by
  induction os generalizing s with
  | nil => exact hs
  | cons o os ih => exact ih (hstep s o hs)

theorem Along.imp {step : S → O → S} {ok ok' : S → O → Prop} {os : List O}
    (h : ∀ o ∈ os, ∀ s, ok s o → ok' s o) {s : S} (hos : Along step ok s os) :
    Along step ok' s os := by
  induction os generalizing s with
  | nil => trivial
  | cons o os ih =>
    exact ⟨h o (by simp) s hos.1, ih (fun o' ho => h o' (List.mem_cons_of_mem o ho)) hos.2⟩

theorem Along.and {step : S → O → S} {ok ok' : S → O → Prop} {s : S} {os : List O}
    (h : Along step ok s os) (h' : Along step ok' s os) :
    Along step (fun s o => ok s o ∧ ok' s o) s os := by
  induction os generalizing s with
  | nil => trivial
  | cons o os ih => exact ⟨⟨h.1, h'.1⟩, ih h.2 h'.2⟩

/-- What a step that meets `ok` comes to, from a state of the invariant, along a run of them. -/
theorem Along.gives {step : S → O → S} {ok ok' : S → O → Prop} {inv : S → Prop}
    (hstep : ∀ s o, inv s → ok s o → inv (step s o) ∧ ok' s o) {s : S} {os : List O}
    (hos : Along step ok s os) (hs : inv s) : Along step ok' s os := by
  induction os generalizing s with
  | nil => trivial
  | cons o os ih =>
    obtain ⟨hnext, ho⟩ := hstep s o hs hos.1
    exact ⟨ho, ih hos.2 hnext⟩

/-- Two conditions that agree wherever the invariant holds agree along every run. -/
theorem along_congr {step : S → O → S} {ok ok' : S → O → Prop} {inv : S → Prop}
    (h : ∀ s o, inv s → (ok s o ↔ ok' s o)) (hstep : ∀ s o, inv s → ok' s o → inv (step s o))
    {s : S} (hs : inv s) (os : List O) : Along step ok s os ↔ Along step ok' s os := by
  induction os generalizing s with
  | nil => exact Iff.rfl
  | cons o os ih =>
    rw [Along, Along, h s o hs]
    exact and_congr_right fun ho => ih (hstep s o hs ho)

theorem along_of_forall {step : S → O → S} {ok : S → O → Prop} {os : List O}
    (h : ∀ o ∈ os, ∀ s, ok s o) (s : S) : Along step ok s os := by
  induction os generalizing s with
  | nil => trivial
  | cons o os ih =>
    exact ⟨h o (by simp) s, ih (fun o' ho => h o' (List.mem_cons_of_mem o ho)) (step s o)⟩

theorem along_append {step : S → O → S} {ok : S → O → Prop} {s : S} {os os' : List O} :
    Along step ok s (os ++ os') ↔ Along step ok s os ∧ Along step ok (os.foldl step s) os' := by
  induction os generalizing s with
  | nil => simp [Along]
  | cons o os ih => simp only [List.cons_append, Along, ih, List.foldl_cons, and_assoc]

/-! ## Answers -/
section Answers
variable {R : O → Type} (step : S → (o : O) → R o × S)

def after (s : S) (os : List O) : S := os.foldl (fun s o => (step s o).2) s

def log : S → List O → List ((o : O) × R o)
  | _, [] => []
  | s, o :: os => ⟨o, (step s o).1⟩ :: log (step s o).2 os

theorem after_cons (s : S) (o : O) (os : List O) :
    after step s (o :: os) = after step (step s o).2 os := rfl

theorem after_append (s : S) (os os' : List O) :
    after step s (os ++ os') = after step (after step s os) os' := List.foldl_append

theorem log_append (s : S) (os os' : List O) :
    log step s (os ++ os') = log step s os ++ log step (after step s os) os' := by
  induction os generalizing s with
  | nil => rfl
  | cons o os ih => exact congrArg _ (ih _)

theorem length_log (s : S) (os : List O) : (log step s os).length = os.length := by
  induction os generalizing s with
  | nil => rfl
  | cons o os ih => exact congrArg _ (ih _)

/-- Two systems in step with each other answer every run alike. -/
theorem log_eq {S' : Type} {step' : S' → (o : O) → R o × S'} {rel : S → S' → Prop}
    (hstep : ∀ s s' o, rel s s' →
      (step s o).1 = (step' s' o).1 ∧ rel (step s o).2 (step' s' o).2)
    {s : S} {s' : S'} (h : rel s s') (os : List O) : log step s os = log step' s' os := by
  induction os generalizing s s' with
  | nil => rfl
  | cons o os ih =>
    obtain ⟨hanswer, hnext⟩ := hstep s s' o h
    rw [log, log, hanswer, ih hnext]

end Answers

end Runs
