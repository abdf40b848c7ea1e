import Mathlib.Data.List.Induction
import Tierstore.Lib.Interleave

/-! The same programs side by side against two environments that answer alike. -/
namespace Effects
namespace Pool
variable {ι Q : Type} {R : Q → Type} {α : ι → Type} {σ σ' : Type}

/-- The two pools have come equally far, with related states. -/
structure Lockstep (rel : σ → σ' → Prop) (c : Pool ι Q R α σ) (c' : Pool ι Q R α σ') : Prop where
  shared : rel c.shared c'.shared
  threads : c.threads = c'.threads
  log : c.log = c'.log

/-- Related environments both block, or give one answer and stay related. -/
def Alike (h : (q : Q) → σ → Option (R q × σ)) (h' : (q : Q) → σ' → Option (R q × σ'))
    (rel : σ → σ' → Prop) (ok : Q → Prop) : Prop :=
  ∀ q s s', rel s s' → ok q → (h q s = none ∧ h' q s' = none) ∨
    ∃ r t t', h q s = some (r, t) ∧ h' q s' = some (r, t') ∧ rel t t'

variable [DecidableEq ι] {h : (q : Q) → σ → Option (R q × σ)}
  {h' : (q : Q) → σ' → Option (R q × σ')}
  {rel : σ → σ' → Prop} {ok : Q → Prop}

theorem Lockstep.step (halike : Alike h h' rel ok) {c : Pool ι Q R α σ} {c' : Pool ι Q R α σ'}
    (hc : Lockstep rel c c') (hsafe : ∀ i, (c.threads i).Safe ok (fun _ _ => True) fun _ => True)
    (i : ι) : Lockstep rel (step h c i) (step h' c' i) := by
  have hthread' : c'.threads i = c.threads i := by rw [hc.threads]
  have hi := hsafe i
  cases hthread : c.threads i with
  | done a =>
    rw [hthread] at hthread'
    simpa only [Pool.step, hthread, hthread'] using hc
  | call q next =>
    rw [hthread] at hthread' hi
    obtain ⟨hnone, hnone'⟩ | ⟨r, t, t', hans, hans', hrel⟩ := halike q _ _ hc.shared hi.1
    · simpa only [Pool.step, hthread, hthread', hnone, hnone'] using hc
    · rw [step_of_call h hthread hans, step_of_call h' hthread' hans']
      exact ⟨hrel, by simp [hc.threads], by simp [hc.log]⟩

/-- Threads that keep to `ok` do so along the run, and the log shows it. -/
theorem asked_run (h : (q : Q) → σ → Option (R q × σ)) {threads : (i : ι) → Program Q R (α i)}
    (hsafe : ∀ i, (threads i).Safe ok (fun _ _ => True) fun _ => True) (s : σ) (schedule : List ι) :
    let c := run h (start s threads) schedule
    (∀ e ∈ c.log, ok e.2) ∧ ∀ i, (c.threads i).Safe ok (fun _ _ => True) fun _ => True := by
  refine run_keeps h (fun c : Pool ι Q R α σ => (∀ e ∈ c.log, ok e.2) ∧
    ∀ i, (c.threads i).Safe ok (fun _ _ => True) fun _ => True) ?_ ⟨?_, hsafe⟩ schedule
  · rintro c i ⟨hlog, hsafe⟩
    refine ⟨?_, fun j => safe_step h (hsafe j) fun _ _ _ _ _ _ => trivial⟩
    obtain hsame | ⟨q, next, r, t, hthread, hans, heq⟩ := step_cases h c i
    · rwa [hsame]
    · have hi := hsafe i
      rw [hthread] at hi
      rw [heq]
      exact List.forall_mem_cons.2 ⟨hi.1, hlog⟩
  · exact fun e he => by cases he

/-- What every query that meets `ok` keeps of the state, every run of such threads keeps. -/
theorem keeps_of_safe (inv : σ → Prop)
    (hstep : ∀ q s r t, inv s → ok q → h q s = some (r, t) → inv t)
    {threads : (i : ι) → Program Q R (α i)}
    (hsafe : ∀ i, (threads i).Safe ok (fun _ _ => True) fun _ => True) {s : σ} (hs : inv s)
    (schedule : List ι) : inv (run h (start s threads) schedule).shared := by
  induction schedule using List.reverseRecOn with
  | nil => exact hs
  | append_singleton schedule i ih =>
    have hthreads := (asked_run h hsafe s schedule).2 i
    rw [run, List.foldl_append]
    rw [run] at ih hthreads
    generalize List.foldl (step h) (start s threads) schedule = c at ih hthreads ⊢
    obtain hsame | ⟨q, next, r, t, hthread, hans, heq⟩ := step_cases h c i
    · simpa [hsame] using ih
    · rw [hthread] at hthreads
      simpa [heq] using hstep q _ r t ih hthreads.1 hans

/-- Threads that keep to the queries on which the environments are alike run in step. -/
theorem lockstep_run (halike : Alike h h' rel ok) {threads : (i : ι) → Program Q R (α i)}
    (hsafe : ∀ i, (threads i).Safe ok (fun _ _ => True) fun _ => True) {s : σ} {s' : σ'}
    (hs : rel s s') (schedule : List ι) :
    Lockstep rel (run h (start s threads) schedule) (run h' (start s' threads) schedule) := by
  induction schedule using List.reverseRecOn with
  | nil => exact ⟨hs, rfl, rfl⟩
  | append_singleton schedule i ih =>
    rw [run, run, List.foldl_append, List.foldl_append]
    exact ih.step halike (asked_run h hsafe s schedule).2 i

end Pool
end Effects
