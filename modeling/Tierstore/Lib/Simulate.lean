import Mathlib.Data.List.Forall2
import Tierstore.Lib.Traces

/-! Simulation of one program by another that asks other queries of another environment. -/
namespace Effects
universe u v w x
namespace Program
variable {Q : Type u} {R : Q → Type u} {Q' : Type v} {R' : Q' → Type v} {α β γ δ : Type _}

/-- The programs ask in step: `pair` says which queries match, and how their answers do. -/
inductive Sim (pair : (q : Q) → (q' : Q') → (R q → R' q' → Prop) → Prop) (post : α → β → Prop) :
    Program Q R α → Program Q' R' β → Prop
  | done {a : α} {b : β} (h : post a b) : Sim pair post (.done a) (.done b)
  | call {q : Q} {q' : Q'} {ans : R q → R' q' → Prop} {next : R q → Program Q R α}
    {next' : R' q' → Program Q' R' β} (hask : pair q q' ans)
    (hnext : ∀ r r', ans r r' → Sim pair post (next r) (next' r')) :
    Sim pair post (.call q next) (.call q' next')

variable {pair : (q : Q) → (q' : Q') → (R q → R' q' → Prop) → Prop}

theorem Sim.mono {post post' : α → β → Prop} {p : Program Q R α} {p' : Program Q' R' β}
    (h : Sim pair post p p') (himp : ∀ a b, post a b → post' a b) : Sim pair post' p p' := by
  induction h with
  | done h => exact .done (himp _ _ h)
  | call hask _ ih => exact .call hask ih

theorem Sim.bind {mid : α → β → Prop} {post : γ → δ → Prop} {p : Program Q R α}
    {p' : Program Q' R' β} {f : α → Program Q R γ} {f' : β → Program Q' R' δ}
    (h : Sim pair mid p p') (hf : ∀ a b, mid a b → Sim pair post (f a) (f' b)) :
    Sim pair post (p >>= f) (p' >>= f') := by
  induction h with
  | done h => exact hf _ _ h
  | call hask _ ih => exact .call hask ih

theorem Sim.ask {q : Q} {q' : Q'} {ans : R q → R' q' → Prop} (h : pair q q' ans) :
    Sim pair ans (Program.ask q : Program Q R _) (Program.ask q' : Program Q' R' _) :=
  .call h fun _ _ hans => .done hans

section Run
variable {σ : Type w} {τ : Type x} {h : (q : Q) → σ → R q × σ} {h' : (q : Q') → τ → R' q × τ}
  {rel : σ → τ → Prop} {post : α → β → Prop} {p : Program Q R α} {p' : Program Q' R' β}

/-- Environments that answer matching queries alike keep the programs in step to the end. -/
theorem Sim.run (hstep : ∀ q q' ans s t, pair q q' ans → rel s t →
    ans (h q s).1 (h' q' t).1 ∧ rel (h q s).2 (h' q' t).2) (hp : Sim pair post p p') {s : σ} {t : τ}
    (hs : rel s t) :
    post (p.run h s).1 (p'.run h' t).1 ∧ rel (p.run h s).2 (p'.run h' t).2 := by
  induction hp generalizing s t with
  | done hpost => exact ⟨hpost, hs⟩
  | call hask _ ih =>
    obtain ⟨hans, hrel⟩ := hstep _ _ _ s t hask hs
    exact ih _ _ hans hrel

/-- What one program asks and is answered matches what the other does, event by event. -/
theorem Sim.events (hstep : ∀ q q' ans s t, pair q q' ans → rel s t →
    ans (h q s).1 (h' q' t).1 ∧ rel (h q s).2 (h' q' t).2) (hp : Sim pair post p p') {s : σ} {t : τ}
    (hs : rel s t) :
    List.Forall₂ (fun e e' => ∃ ans, pair e.1 e'.1 ans ∧ ans e.2 e'.2) (p.events h s)
      (p'.events h' t) := by
  induction hp generalizing s t with
  | done hpost => exact .nil
  | call hask _ ih =>
    obtain ⟨hans, hrel⟩ := hstep _ _ _ s t hask hs
    exact .cons ⟨_, hask, hans⟩ (ih _ _ hans hrel)

end Run
end Program
end Effects
