import Mathlib.Logic.Function.Basic

/-! Programs that call an environment and continue with its answer. One program is
run alone against a handler here; `Interleave` runs many of them against a shared one. -/
namespace Effects
universe u v

/-- A program over the queries `Q`, where the environment answers `q` with an `R q`. -/
inductive Program (Q : Type u) (R : Q → Type u) (α : Type u) : Type u where
  | done (a : α)
  | call (q : Q) (next : R q → Program Q R α)

namespace Program
variable {Q : Type u} {R : Q → Type u} {α β γ : Type u} {σ : Type v}

def bind : Program Q R α → (α → Program Q R β) → Program Q R β
  | .done a, f => f a
  | .call q next, f => .call q fun r => (next r).bind f

def ask (q : Q) : Program Q R (R q) := .call q .done

instance : Monad (Program Q R) where
  pure := .done
  bind := bind

theorem bind_done (p : Program Q R α) : p.bind .done = p := by
  induction p with
  | done a => rfl
  | call q next ih => exact congrArg (call q) (funext ih)

theorem bind_assoc (p : Program Q R α) (f : α → Program Q R β) (g : β → Program Q R γ) :
    (p.bind f).bind g = p.bind fun a => (f a).bind g := by
  induction p with
  | done a => rfl
  | call q next ih => exact congrArg (call q) (funext ih)

instance : LawfulMonad (Program Q R) :=
  LawfulMonad.mk' _ bind_done (fun _ _ => rfl) bind_assoc

@[simp] theorem pure_eq (a : α) : (pure a : Program Q R α) = .done a := rfl
@[simp] theorem done_bind (a : α) (f : α → Program Q R β) : Program.done a >>= f = f a := rfl
@[simp] theorem map_done (f : α → β) (a : α) :
    f <$> (Program.done a : Program Q R α) = .done (f a) := rfl
@[simp] theorem call_bind (q : Q) (next : R q → Program Q R α) (f : α → Program Q R β) :
    Program.call q next >>= f = .call q fun r => next r >>= f := rfl

def run (h : (q : Q) → σ → R q × σ) : Program Q R α → σ → α × σ
  | .done a, s => (a, s)
  | .call q next, s => run h (next (h q s).1) (h q s).2

@[simp] theorem run_done (h : (q : Q) → σ → R q × σ) (a : α) (s : σ) :
    run h (.done a) s = (a, s) := rfl

@[simp] theorem run_call (h : (q : Q) → σ → R q × σ) (q : Q) (next : R q → Program Q R α)
    (s : σ) : run h (.call q next) s = run h (next (h q s).1) (h q s).2 := rfl

@[simp] theorem run_ask (h : (q : Q) → σ → R q × σ) (q : Q) (s : σ) :
    run h (ask q) s = h q s := rfl

@[simp] theorem run_bind (h : (q : Q) → σ → R q × σ) (p : Program Q R α)
    (f : α → Program Q R β) (s : σ) :
    run h (p >>= f) s = run h (f (run h p s).1) (run h p s).2 := by
  induction p generalizing s with
  | done a => rfl
  | call q next ih => exact ih (h q s).1 (h q s).2

@[simp] theorem run_map (h : (q : Q) → σ → R q × σ) (f : α → β) (p : Program Q R α) (s : σ) :
    run h (f <$> p) s = (f (run h p s).1, (run h p s).2) := by
  rw [map_eq_pure_bind, run_bind]
  rfl

theorem run_keeps {h : (q : Q) → σ → R q × σ} {inv : σ → Prop}
    (hstep : ∀ q s, inv s → inv (h q s).2) (p : Program Q R α) {s : σ} (hs : inv s) :
    inv (run h p s).2 := by
  induction p generalizing s with
  | done a => exact hs
  | call q next ih => exact ih _ (hstep q s hs)

def runFor (h : (q : Q) → σ → R q × σ) : Nat → Program Q R α → σ → σ
  | 0, _, s => s
  | _ + 1, .done _, s => s
  | n + 1, .call q next, s => runFor h n (next (h q s).1) (h q s).2

/-- Every query the program makes from `s` meets `ok` in the state it is made in. -/
def Always (h : (q : Q) → σ → R q × σ) (ok : Q → σ → Prop) : Program Q R α → σ → Prop
  | .done _, _ => True
  | .call q next, s => ok q s ∧ Always h ok (next (h q s).1) (h q s).2

instance decideAlways {h : (q : Q) → σ → R q × σ} {ok : Q → σ → Prop}
    [∀ q s, Decidable (ok q s)] : (p : Program Q R α) → (s : σ) → Decidable (Always h ok p s)
  | .done _, _ => isTrue trivial
  | .call q next, s =>
    have : Decidable (Always h ok (next (h q s).1) (h q s).2) := decideAlways _ _
    inferInstanceAs (Decidable (ok q s ∧ Always h ok (next (h q s).1) (h q s).2))

theorem always_bind (h : (q : Q) → σ → R q × σ) (ok : Q → σ → Prop) (p : Program Q R α)
    (f : α → Program Q R β) (s : σ) :
    Always h ok (p >>= f) s ↔
      Always h ok p s ∧ Always h ok (f (run h p s).1) (run h p s).2 := by
  induction p generalizing s with
  | done a => simp [Always]
  | call q next ih => simp only [call_bind, Always, run_call, ih, and_assoc]

theorem always_of_forall (h : (q : Q) → σ → R q × σ) {ok : Q → σ → Prop}
    (hok : ∀ q s, ok q s) (p : Program Q R α) (s : σ) : Always h ok p s := by
  induction p generalizing s with
  | done a => trivial
  | call q next ih => exact ⟨hok q s, ih _ _⟩

theorem Always.mono {h : (q : Q) → σ → R q × σ} {ok ok' : Q → σ → Prop} {p : Program Q R α}
    {s : σ} (hp : Always h ok p s) (himp : ∀ q s, ok q s → ok' q s) : Always h ok' p s := by
  induction p generalizing s with
  | done a => trivial
  | call q next ih => exact ⟨himp q s hp.1, ih _ hp.2⟩

/-- Assume/guarantee: as long as every answer so far met `ans`, the next query meets
`ok`, and so does the result meet `post`. No state is mentioned, so the same fact
serves a program run alone and a program run among others. -/
def Safe (ok : Q → Prop) (ans : (q : Q) → R q → Prop) (post : α → Prop) :
    Program Q R α → Prop
  | .done a => post a
  | .call q next => ok q ∧ ∀ r, ans q r → Safe ok ans post (next r)

variable {ok : Q → Prop} {ans : (q : Q) → R q → Prop}

theorem Safe.mono {post post' : α → Prop} {p : Program Q R α} (h : Safe ok ans post p)
    (himp : ∀ a, post a → post' a) : Safe ok ans post' p := by
  induction p with
  | done a => exact himp a h
  | call q next ih => exact ⟨h.1, fun r hr => ih r (h.2 r hr)⟩

theorem Safe.weaken {ok' : Q → Prop} {post : α → Prop} {p : Program Q R α}
    (h : Safe ok ans post p) (himp : ∀ q, ok q → ok' q) : Safe ok' ans post p := by
  induction p with
  | done a => exact h
  | call q next ih => exact ⟨himp q h.1, fun r hr => ih r (h.2 r hr)⟩

theorem Safe.bind {mid : α → Prop} {post : β → Prop} {p : Program Q R α}
    {f : α → Program Q R β} (h : Safe ok ans mid p) (hf : ∀ a, mid a → Safe ok ans post (f a)) :
    Safe ok ans post (p >>= f) := by
  induction p with
  | done a => exact hf a h
  | call q next ih => exact ⟨h.1, fun r hr => ih r (h.2 r hr)⟩

theorem Safe.ask {q : Q} (hq : ok q) : Safe ok ans (ans q) (Program.ask q : Program Q R (R q)) :=
  ⟨hq, fun _ hr => hr⟩

theorem Safe.always {h : (q : Q) → σ → R q × σ} {ok' : Q → σ → Prop} {post : α → Prop}
    {p : Program Q R α} (hp : Safe ok (fun _ _ => True) post p) (himp : ∀ q s, ok q → ok' q s)
    (s : σ) : Always h ok' p s := by
  induction p generalizing s with
  | done a => trivial
  | call q next ih => exact ⟨himp q s hp.1, ih _ (hp.2 _ trivial) _⟩

/-- A program nothing is asked of. -/
theorem safe_of_free (p : Program Q R α) :
    p.Safe (fun _ => True) (fun _ _ => True) (fun _ => True) := by
  induction p with
  | done a => trivial
  | call q next ih => exact ⟨trivial, fun r _ => ih r⟩

/-- An environment that keeps `inv` under the queries it is promised, and then answers
as promised, keeps `inv` over a whole run. It may rely on a fact `side` of every query. -/
theorem Safe.run_of {h : (q : Q) → σ → R q × σ} {inv : σ → Prop} {side : Q → σ → Prop}
    {post : α → Prop}
    (hstep : ∀ q s, inv s → ok q → side q s → ans q (h q s).1 ∧ inv (h q s).2)
    {p : Program Q R α} (hp : Safe ok ans post p) {s : σ} (hside : Always h side p s)
    (hs : inv s) : post (p.run h s).1 ∧ inv (p.run h s).2 := by
  induction p generalizing s with
  | done a => exact ⟨hp, hs⟩
  | call q next ih =>
    have hq := hstep q s hs hp.1 hside.1
    exact ih _ (hp.2 _ hq.1) hside.2 hq.2

theorem Safe.run {h : (q : Q) → σ → R q × σ} {inv : σ → Prop} {post : α → Prop}
    (hstep : ∀ q s, inv s → ok q → ans q (h q s).1 ∧ inv (h q s).2)
    {p : Program Q R α} (hp : Safe ok ans post p) {s : σ} (hs : inv s) :
    post (p.run h s).1 ∧ inv (p.run h s).2 :=
  Safe.run_of (fun q s hs hq _ => hstep q s hs hq) hp
    (always_of_forall h (fun _ _ => trivial) p s) hs

/-- Where such an environment also grants `ok'` of every query, the program only makes granted
ones. -/
theorem Safe.always_of {h : (q : Q) → σ → R q × σ} {inv : σ → Prop} {ok' : Q → σ → Prop}
    {post : α → Prop} (hstep : ∀ q s, inv s → ok q → ans q (h q s).1 ∧ inv (h q s).2)
    (hok : ∀ q s, inv s → ok q → ok' q s) {p : Program Q R α} (hp : Safe ok ans post p) {s : σ}
    (hs : inv s) : Always h ok' p s := by
  induction p generalizing s with
  | done a => trivial
  | call q next ih =>
    have hq := hstep q s hs hp.1
    exact ⟨hok q s hs hp.1, ih _ (hp.2 _ hq.1) hq.2⟩

end Program
end Effects
