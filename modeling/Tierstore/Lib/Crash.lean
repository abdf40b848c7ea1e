import Tierstore.Lib.Program

/-! Calls that may be stopped between two queries. A service is atomic if a stopped call has
left the state as it was or as the whole call would have; then everything its clients see, over
any number of stops, is what an abstract machine answers that loses some of the stopped calls. -/
namespace Effects

/-- A call that returned, or one that was stopped when it had made `n` queries. -/
inductive Attempt (C : Type) where
  | done (c : C)
  | stopped (c : C) (n : Nat)

def Attempt.call {C : Type} : Attempt C → C
  | .done c => c
  | .stopped c _ => c

namespace Program
variable {Q : Type} {A : Q → Type} {α β σ : Type} (h : (q : Q) → σ → A q × σ)

theorem runFor_done (n : Nat) (a : α) (s : σ) : runFor h n (.done a : Program Q A α) s = s := by
  cases n <;> rfl

/-- A sequence stops in its first part or in its second. -/
theorem runFor_bind (n : Nat) (p : Program Q A α) (f : α → Program Q A β) (s : σ) :
    runFor h n (p >>= f) s = runFor h n p s ∨
      ∃ m, runFor h n (p >>= f) s = runFor h m (f (run h p s).1) (run h p s).2 := by
  induction p generalizing n s with
  | done a => exact Or.inr ⟨n, rfl⟩
  | call q next ih =>
    cases n with
    | zero => exact Or.inl rfl
    | succ n => exact ih (h q s).1 n (h q s).2

/-- Once its last query is made a program is through. -/
theorem runFor_last {q : Q} {f : A q → Program Q A α} (hf : ∀ r, ∃ a, f r = .done a) (n : Nat)
    (s : σ) : runFor h (n + 1) (ask q >>= f) s = (run h (ask q >>= f) s).2 := by
  obtain ⟨a, ha⟩ := hf (h q s).1
  change runFor h n (f (h q s).1) (h q s).2 = (run h (f (h q s).1) (h q s).2).2
  rw [ha, runFor_done]
  rfl

end Program

/-- The programs of a service, and the machine that says what each of them is for. -/
structure Service (Q : Type) (A : Q → Type) (C : Type) (R : C → Type) (σ M : Type) where
  exec : (q : Q) → σ → A q × σ
  program : (c : C) → Program Q A (R c)
  perform : M → (c : C) → R c × M

namespace Service
variable {Q C σ M : Type} {A : Q → Type} {R : C → Type} (srv : Service Q A C R σ M)

def step (s : σ) : Attempt C → σ
  | .done c => ((srv.program c).run srv.exec s).2
  | .stopped c n => (srv.program c).runFor srv.exec n s

def log : σ → List (Attempt C) → List ((c : C) × R c)
  | _, [] => []
  | s, .done c :: rest => ⟨c, ((srv.program c).run srv.exec s).1⟩ :: log (srv.step s (.done c)) rest
  | s, .stopped c n :: rest => log (srv.step s (.stopped c n)) rest

/-- The machine performs every call that returned and some of those that were stopped. -/
inductive Survives : M → List (Attempt C) → List ((c : C) × R c) → M → Prop where
  | nil (m : M) : Survives m [] [] m
  | done {m m' : M} {rest : List (Attempt C)} {answers : List ((c : C) × R c)} (c : C) :
    Survives (srv.perform m c).2 rest answers m' →
      Survives m (.done c :: rest) (⟨c, (srv.perform m c).1⟩ :: answers) m'
  | kept {m m' : M} {rest : List (Attempt C)} {answers : List ((c : C) × R c)} (c : C) (n : Nat) :
    Survives (srv.perform m c).2 rest answers m' → Survives m (.stopped c n :: rest) answers m'
  | lost {m m' : M} {rest : List (Attempt C)} {answers : List ((c : C) × R c)} (c : C) (n : Nat) :
    Survives m rest answers m' → Survives m (.stopped c n :: rest) answers m'

/-- The calls that meet `ok` answer as the machine does, and are atomic. -/
structure Atomic (ok : C → Prop) (rel : σ → M → Prop) : Prop where
  done : ∀ s m c, rel s m → ok c →
    ((srv.program c).run srv.exec s).1 = (srv.perform m c).1 ∧
      rel ((srv.program c).run srv.exec s).2 (srv.perform m c).2
  stopped : ∀ s m c n, rel s m → ok c →
    rel ((srv.program c).runFor srv.exec n s) m ∨
      rel ((srv.program c).runFor srv.exec n s) (srv.perform m c).2

variable {srv}

theorem Atomic.survives {ok : C → Prop} {rel : σ → M → Prop} (h : srv.Atomic ok rel) {s : σ} {m : M}
    (hs : rel s m) {attempts : List (Attempt C)} (hok : ∀ e ∈ attempts, ok e.call) :
    ∃ m', srv.Survives m attempts (srv.log s attempts) m' ∧
      rel (attempts.foldl srv.step s) m' := by
  induction attempts generalizing s m with
  | nil => exact ⟨m, .nil m, hs⟩
  | cons e rest ih =>
    have hrest : ∀ e ∈ rest, ok e.call := fun e' he' => hok e' (List.mem_cons_of_mem e he')
    have he : ok e.call := hok e (by simp)
    cases e with
    | done c =>
      obtain ⟨hanswer, hnext⟩ := h.done s m c hs he
      obtain ⟨m', hrun, hrel⟩ := ih hnext hrest
      refine ⟨m', ?_, hrel⟩
      rw [log, hanswer]
      exact .done c hrun
    | stopped c n =>
      obtain hsame | hwhole := h.stopped s m c n hs he
      · obtain ⟨m', hrun, hrel⟩ := ih hsame hrest
        exact ⟨m', .lost c n hrun, hrel⟩
      · obtain ⟨m', hrun, hrel⟩ := ih hwhole hrest
        exact ⟨m', .kept c n hrun, hrel⟩

end Service
end Effects
