import Mathlib.Data.List.TakeWhile
import Mathlib.Logic.Function.Basic
import Tierstore.Lib.Program

/-! Programs run side by side against one shared state: a schedule says which thread takes
the next step, and every query is one atomic step. -/
namespace Effects

/-- The shared state, the threads, and the queries answered so far, the latest one first. -/
structure Pool (ι Q : Type) (R : Q → Type) (α : ι → Type) (σ : Type) where
  shared : σ
  threads : (i : ι) → Program Q R (α i)
  log : List (ι × Q)

namespace Program
variable {Q α : Type} {R : Q → Type}

def Done : Program Q R α → Prop
  | .done _ => True
  | .call _ _ => False

instance (p : Program Q R α) : Decidable p.Done :=
  match p with
  | .done _ => isTrue trivial
  | .call _ _ => isFalse id

def asks : Program Q R α → Option Q
  | .done _ => none
  | .call q _ => some q

/-- However it is answered, the program asks `q` before it is done. -/
def Must (q : Q) : Program Q R α → Prop
  | .done _ => False
  | .call q' next => q' = q ∨ ∀ r, Must q (next r)

/-- `Safe` with a memory of the program's own: the queries allowed depend on it, and every
answer updates it. -/
def Follows {G : Type} (ok : G → Q → Prop) (ans : (q : Q) → R q → Prop)
    (upd : G → (q : Q) → R q → G) (post : G → α → Prop) : Program Q R α → G → Prop
  | .done a, g => post g a
  | .call q next, g => ok g q ∧ ∀ r, ans q r → Follows ok ans upd post (next r) (upd g q r)

theorem Follows.mono {G : Type} {ok : G → Q → Prop} {ans : (q : Q) → R q → Prop}
    {upd : G → (q : Q) → R q → G} {post post' : G → α → Prop} {p : Program Q R α} {g : G}
    (h : p.Follows ok ans upd post g) (himp : ∀ g a, post g a → post' g a) :
    p.Follows ok ans upd post' g := by
  induction p generalizing g with
  | done a => exact himp g a h
  | call q next ih => exact ⟨h.1, fun r hr => ih r (h.2 r hr)⟩

theorem Follows.weaken {G : Type} {ok ok' : G → Q → Prop} {ans : (q : Q) → R q → Prop}
    {upd : G → (q : Q) → R q → G} {post : G → α → Prop} {p : Program Q R α} {g : G}
    (h : p.Follows ok ans upd post g) (himp : ∀ g q, ok g q → ok' g q) :
    p.Follows ok' ans upd post g := by
  induction p generalizing g with
  | done a => exact h
  | call q next ih => exact ⟨himp g q h.1, fun r hr => ih r (h.2 r hr)⟩

/-- What is asked, the memory forgotten. -/
theorem Follows.safe {G : Type} {ok : G → Q → Prop} {ok' : Q → Prop} {ans : (q : Q) → R q → Prop}
    {upd : G → (q : Q) → R q → G} {post : G → α → Prop} {p : Program Q R α} {g : G}
    (h : p.Follows ok ans upd post g) (himp : ∀ g q, ok g q → ok' q) :
    p.Safe ok' ans fun _ => True := by
  induction p generalizing g with
  | done a => trivial
  | call q next ih => exact ⟨himp g q h.1, fun r hr => ih r (h.2 r hr)⟩

theorem Safe.follows {G : Type} {ok : Q → Prop} {ok' : G → Q → Prop} {ans : (q : Q) → R q → Prop}
    {upd : G → (q : Q) → R q → G} {post : α → Prop} {p : Program Q R α}
    (h : p.Safe ok ans post) (himp : ∀ g q, ok q → ok' g q) (g : G) :
    p.Follows ok' ans upd (fun _ => post) g := by
  induction p generalizing g with
  | done a => exact h
  | call q next ih => exact ⟨himp g q h.1, fun r hr => ih r (h.2 r hr) _⟩

theorem Follows.bind {G β : Type} {ok : G → Q → Prop} {ans : (q : Q) → R q → Prop}
    {upd : G → (q : Q) → R q → G} {mid : G → α → Prop} {post : G → β → Prop}
    {p : Program Q R α} {f : α → Program Q R β} {g : G} (h : p.Follows ok ans upd mid g)
    (hf : ∀ g a, mid g a → (f a).Follows ok ans upd post g) :
    (p >>= f).Follows ok ans upd post g := by
  induction p generalizing g with
  | done a => exact hf g a h
  | call q next ih => exact ⟨h.1, fun r hr => ih r (h.2 r hr)⟩

theorem Must.bind {β : Type} {q : Q} {p : Program Q R α} {f : α → Program Q R β}
    (h : ∀ a, (f a).Must q) : (p >>= f).Must q := by
  induction p with
  | done a => exact h a
  | call q' next ih => exact Or.inr ih

def embed {Q' : Type} {R' : Q' → Type} (f : Q → Q') (back : (q : Q) → R' (f q) → R q) :
    Program Q R α → Program Q' R' α
  | .done a => .done a
  | .call q next => .call (f q) fun r => embed f back (next (back q r))

section Embed
variable {Q' : Type} {R' : Q' → Type} {f : Q → Q'} {back : (q : Q) → R' (f q) → R q}

theorem Safe.embed {ok : Q → Prop} {ans : (q : Q) → R q → Prop} {post : α → Prop}
    {ok' : Q' → Prop} {ans' : (q : Q') → R' q → Prop} (hok : ∀ q, ok q → ok' (f q))
    (hans : ∀ q r, ans' (f q) r → ans q (back q r)) {p : Program Q R α}
    (h : p.Safe ok ans post) : (p.embed f back).Safe ok' ans' post := by
  induction p with
  | done a => exact h
  | call q next ih => exact ⟨hok q h.1, fun r hr => ih _ (h.2 _ (hans q r hr))⟩

theorem Follows.embed {G : Type} {ok : G → Q → Prop} {ans : (q : Q) → R q → Prop}
    {upd : G → (q : Q) → R q → G} {post : G → α → Prop} {ok' : G → Q' → Prop}
    {ans' : (q : Q') → R' q → Prop} {upd' : G → (q : Q') → R' q → G}
    (hok : ∀ g q, ok g q → ok' g (f q)) (hans : ∀ q r, ans' (f q) r → ans q (back q r))
    (hupd : ∀ g q r, upd' g (f q) r = upd g q (back q r)) {p : Program Q R α} {g : G}
    (h : p.Follows ok ans upd post g) : (p.embed f back).Follows ok' ans' upd' post g := by
  induction p generalizing g with
  | done a => exact h
  | call q next ih =>
    refine ⟨hok g q h.1, fun r hr => ?_⟩
    rw [hupd]
    exact ih _ (h.2 _ (hans q r hr))

theorem Must.embed {q : Q} {p : Program Q R α} (h : Must q p) :
    Must (f q) (p.embed f back) := by
  induction p with
  | done a => exact h.elim
  | call q' next ih =>
    obtain rfl | hnext := h
    · exact Or.inl rfl
    · exact Or.inr fun r => ih _ (hnext _)

end Embed
end Program

/-! ## Logs -/
section Logs
variable {A : Type}

/-- Every event of a log, the latest one first, meets `ok` after the events before it. -/
def Each (ok : List A → A → Prop) : List A → Prop
  | [] => True
  | a :: before => ok before a ∧ Each ok before

def since {ι Q : Type} [DecidableEq ι] (i : ι) (log : List (ι × Q)) : List (ι × Q) :=
  log.takeWhile fun e => e.1 ≠ i

def upTo {ι Q : Type} [DecidableEq ι] (i : ι) (log : List (ι × Q)) : List (ι × Q) :=
  log.dropWhile fun e => e.1 ≠ i

section Since
variable {ι Q : Type} [DecidableEq ι] {i j : ι} {q : Q} {log : List (ι × Q)}

theorem since_cons_of_ne (h : j ≠ i) : since i ((j, q) :: log) = (j, q) :: since i log := by
  simp [since, h]

theorem upTo_cons_of_ne (h : j ≠ i) : upTo i ((j, q) :: log) = upTo i log := by
  simp [upTo, h]

theorem upTo_cons_self : upTo i ((i, q) :: log) = (i, q) :: log := by simp [upTo]

theorem upTo_eq_nil (h : ∀ q, (i, q) ∉ log) : upTo i log = [] := by
  refine List.dropWhile_eq_nil_iff.2 fun e he => ?_
  simp only [ne_eq, decide_not, Bool.not_eq_true', decide_eq_false_iff_not]
  rintro rfl
  exact h e.2 he

/-- What happened between thread `j`'s latest event and a later thread's latest one happened
since thread `j`'s. -/
theorem mem_since_of_upTo {e : ι × Q} (hafter : ∀ q, (i, q) ∉ upTo j log)
    (h : e ∈ since j (upTo i log)) : e ∈ since j log := by
  induction log with
  | nil => exact h
  | cons a log ih =>
    obtain ⟨x, q⟩ := a
    by_cases hxi : x = i
    · subst hxi
      rwa [upTo_cons_self] at h
    · rw [upTo_cons_of_ne hxi] at h
      by_cases hxj : x = j
      · subst hxj
        rw [upTo_cons_self] at hafter
        rw [upTo_eq_nil fun q' hq' => hafter q' (List.mem_cons_of_mem _ hq')] at h
        cases h
      · rw [upTo_cons_of_ne hxj] at hafter
        rw [since_cons_of_ne hxj]
        exact List.mem_cons_of_mem _ (ih hafter h)

end Since
end Logs

namespace Pool
variable {ι Q : Type} {R : Q → Type} {α : ι → Type} {σ : Type}

def start (s : σ) (threads : (i : ι) → Program Q R (α i)) : Pool ι Q R α σ :=
  { shared := s, threads, log := [] }

variable [DecidableEq ι] (h : (q : Q) → σ → Option (R q × σ))

/-- Thread `i` takes a step. It stays where it is if it is done or its query blocks. -/
def step (c : Pool ι Q R α σ) (i : ι) : Pool ι Q R α σ :=
  match c.threads i with
  | .done _ => c
  | .call q next =>
    match h q c.shared with
    | none => c
    | some (r, s) =>
      { shared := s, threads := Function.update c.threads i (next r), log := (i, q) :: c.log }

def run (c : Pool ι Q R α σ) (schedule : List ι) : Pool ι Q R α σ := schedule.foldl (step h) c

def AllDone (c : Pool ι Q R α σ) : Prop := ∀ i, (c.threads i).Done

theorem step_of_call {c : Pool ι Q R α σ} {i : ι} {q : Q} {next : R q → Program Q R (α i)}
    (hthread : c.threads i = .call q next) {r : R q} {s : σ} (hans : h q c.shared = some (r, s)) :
    step h c i = { shared := s, threads := Function.update c.threads i (next r),
                   log := (i, q) :: c.log } := by
  simp [step, hthread, hans]

/-- All a step can do. -/
theorem step_cases (c : Pool ι Q R α σ) (i : ι) :
    step h c i = c ∨ ∃ q next r s, c.threads i = .call q next ∧ h q c.shared = some (r, s) ∧
      step h c i = { shared := s, threads := Function.update c.threads i (next r),
                     log := (i, q) :: c.log } := by
  cases hthread : c.threads i with
  | done a => exact Or.inl (by simp [step, hthread])
  | call q next =>
    cases hans : h q c.shared with
    | none => exact Or.inl (by simp [step, hthread, hans])
    | some out =>
      exact Or.inr ⟨q, next, out.1, out.2, rfl, hans, step_of_call h hthread hans⟩

theorem threads_step_of_ne (c : Pool ι Q R α σ) {i j : ι} (hij : j ≠ i) :
    (step h c i).threads j = c.threads j := by
  obtain hsame | ⟨q, next, r, s, -, -, heq⟩ := step_cases h c i
  · rw [hsame]
  · rw [heq]
    exact Function.update_of_ne hij _ _

/-- What every step keeps, every run keeps. -/
theorem run_keeps (inv : Pool ι Q R α σ → Prop) (hstep : ∀ c i, inv c → inv (step h c i))
    {c : Pool ι Q R α σ} (hc : inv c) (schedule : List ι) : inv (run h c schedule) := by
  induction schedule generalizing c with
  | nil => exact hc
  | cons i schedule ih => exact ih (hstep c i hc)

/-- Threads that keep to `ok` still do after a step that is answered as promised. -/
theorem safe_step {ok : Q → Prop} {ans : (q : Q) → R q → Prop} {c : Pool ι Q R α σ} {i j : ι}
    {post : α j → Prop} (hsafe : (c.threads j).Safe ok ans post)
    (hans : i = j → ∀ q r s, ok q → h q c.shared = some (r, s) → ans q r) :
    ((step h c i).threads j).Safe ok ans post := by
  by_cases hij : i = j
  · subst hij
    obtain hsame | ⟨q, next, r, s, hthread, hstep, heq⟩ := step_cases h c i
    · rwa [hsame]
    · rw [hthread] at hsafe
      rw [heq]
      simpa using hsafe.2 r (hans rfl q r s hsafe.1 hstep)
  · rwa [threads_step_of_ne h c (Ne.symm hij)]

/-- What a thread must still ask, or has asked, it keeps having to ask or having asked. -/
theorem must_step {q : Q} {c : Pool ι Q R α σ} {i j : ι}
    (hq : (c.threads j).Must q ∨ (j, q) ∈ c.log) :
    ((step h c i).threads j).Must q ∨ (j, q) ∈ (step h c i).log := by
  obtain hsame | ⟨q', next, r, s, hthread, -, heq⟩ := step_cases h c i
  · rwa [hsame]
  · rw [heq]
    obtain hmust | hlog := hq
    · by_cases hij : i = j
      · subst hij
        rw [hthread] at hmust
        obtain rfl | hnext := hmust
        · exact Or.inr (by simp)
        · exact Or.inl (by simpa using hnext r)
      · exact Or.inl (by simpa [Function.update_of_ne (Ne.symm hij)] using hmust)
    · exact Or.inr (List.mem_cons_of_mem _ hlog)

omit [DecidableEq ι] in
theorem asked_of_done {q : Q} {c : Pool ι Q R α σ} {j : ι} (hdone : (c.threads j).Done)
    (hq : (c.threads j).Must q ∨ (j, q) ∈ c.log) : (j, q) ∈ c.log := by
  obtain hmust | hlog := hq
  · cases hthread : c.threads j with
    | done a =>
      rw [hthread] at hmust
      exact hmust.elim
    | call q' next =>
      rw [hthread] at hdone
      exact hdone.elim
  · exact hlog

/-- A step of thread `i` updates the memory of thread `i`. -/
theorem follows_step {G : Type} {ok : ι → G → Q → Prop} {ans : (q : Q) → R q → Prop}
    {upd : G → (q : Q) → R q → G} {post : (i : ι) → G → α i → Prop}
    {threads : (i : ι) → Program Q R (α i)} {memory : ι → G}
    (hfollows : ∀ j, (threads j).Follows (ok j) ans upd (post j) (memory j)) {i : ι} {q : Q}
    {next : R q → Program Q R (α i)} (hthread : threads i = .call q next) {r : R q}
    (hr : ans q r) (j : ι) :
    (Function.update threads i (next r) j).Follows (ok j) ans upd (post j)
      (Function.update memory i (upd (memory i) q r) j) := by
  by_cases hij : j = i
  · subst hij
    have hj := hfollows j
    rw [hthread] at hj
    simpa using hj.2 r hr
  · simpa [Function.update_of_ne hij] using hfollows j

end Pool
end Effects
