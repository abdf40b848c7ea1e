import Tierstore.Lib.Interleave

/-! Items that programs pass on. If no program makes an item up and the environment makes
none up either, then in every interleaving an item that shows up anywhere was in the initial
state or belongs to a thread that has taken a step. -/
namespace Effects

/-- The items a query hands over, the ones an answer hands back, and the ones a state holds. -/
structure Carriage (A Q : Type) (R : Q → Type) (σ : Type) where
  takes : Q → A → Prop
  gives : (q : Q) → R q → A → Prop
  holds : σ → A → Prop

namespace Carriage
variable {A Q α : Type} {R : Q → Type} {σ : Type} (f : Carriage A Q R σ)

/-- An answered query leaves and hands back only items that were held or handed over. -/
def Closed (h : (q : Q) → σ → Option (R q × σ)) : Prop :=
  ∀ q s r s', h q s = some (r, s') → ∀ a, f.gives q r a ∨ f.holds s' a →
    f.holds s a ∨ f.takes q a

/-- The program hands over, and shows in its result, only its own items and items it was
given: whatever the set of items is that it meets. -/
def Carries (own : A → Prop) (shows : α → A → Prop) (p : Program Q R α) : Prop :=
  ∀ X : A → Prop, (∀ a, own a → X a) →
    p.Safe (fun q => ∀ a, f.takes q a → X a) (fun q r => ∀ a, f.gives q r a → X a)
      (fun out => ∀ a, shows out a → X a)

variable {f} {own : A → Prop} {shows : α → A → Prop}

theorem Carries.mono {own' : A → Prop} {p : Program Q R α} (h : f.Carries own shows p)
    (himp : ∀ a, own a → own' a) : f.Carries own' shows p :=
  fun X hX => h X fun a ha => hX a (himp a ha)

theorem Carries.done {out : α} (h : f.Carries own shows (.done out)) {a : A}
    (ha : shows out a) : own a := h own (fun _ h => h) a ha

theorem Carries.takes {q : Q} {next : R q → Program Q R α}
    (h : f.Carries own shows (.call q next)) {a : A} (ha : f.takes q a) : own a :=
  (h own fun _ h => h).1 a ha

/-- What a program is answered it may pass on. -/
theorem Carries.next {q : Q} {next : R q → Program Q R α}
    (h : f.Carries own shows (.call q next)) {own' : A → Prop} (himp : ∀ a, own a → own' a)
    {r : R q} (hr : ∀ a, f.gives q r a → own' a) : f.Carries own' shows (next r) := by
  intro X hX
  exact (h X fun a ha => hX a (himp a ha)).2 r fun a ha => hX a (hr a ha)

/-! ## Interleavings -/
section Pool
variable {ι : Type} {α : ι → Type}

def Sourced (f : Carriage A Q R σ) (s₀ : σ) (own : ι → A → Prop) (log : List (ι × Q)) (a : A) :
    Prop :=
  f.holds s₀ a ∨ ∃ i, (∃ q, (i, q) ∈ log) ∧ own i a

theorem Sourced.cons {s₀ : σ} {own : ι → A → Prop} {log : List (ι × Q)} {a : A}
    (h : f.Sourced s₀ own log a) (e : ι × Q) : f.Sourced s₀ own (e :: log) a := by
  obtain hheld | ⟨i, ⟨q, hq⟩, hown⟩ := h
  · exact Or.inl hheld
  · exact Or.inr ⟨i, ⟨q, List.mem_cons_of_mem e hq⟩, hown⟩

/-- Everything held is sourced, and every thread carries sourced items and its own. -/
structure Flowing (f : Carriage A Q R σ) (s₀ : σ) (own : ι → A → Prop)
    (shows : (i : ι) → α i → A → Prop) (c : Pool ι Q R α σ) : Prop where
  held : ∀ a, f.holds c.shared a → f.Sourced s₀ own c.log a
  carries : ∀ i, f.Carries (fun a => f.Sourced s₀ own c.log a ∨ own i a) (shows i) (c.threads i)

variable [DecidableEq ι] {h : (q : Q) → σ → Option (R q × σ)} {s₀ : σ} {own : ι → A → Prop}
  {shows : (i : ι) → α i → A → Prop}

theorem Flowing.step (hclosed : f.Closed h) {c : Pool ι Q R α σ} (hc : Flowing f s₀ own shows c)
    (i : ι) : Flowing f s₀ own shows (Pool.step h c i) := by
  obtain hsame | ⟨q, next, r, s, hthread, hans, heq⟩ := Pool.step_cases h c i
  · rwa [hsame]
  · have hi := hc.carries i
    rw [hthread] at hi
    have hmine : ∀ a, f.Sourced s₀ own c.log a ∨ own i a →
        f.Sourced s₀ own ((i, q) :: c.log) a := by
      rintro a (ha | ha)
      · exact ha.cons (i, q)
      · exact Or.inr ⟨i, ⟨q, by simp⟩, ha⟩
    have hnew : ∀ a, f.gives q r a ∨ f.holds s a → f.Sourced s₀ own ((i, q) :: c.log) a := by
      intro a ha
      obtain hheld | htaken := hclosed q c.shared r s hans a ha
      · exact (hc.held a hheld).cons (i, q)
      · exact hmine a (hi.takes htaken)
    rw [heq]
    refine ⟨fun a ha => hnew a (Or.inr ha), fun j => ?_⟩
    by_cases hij : j = i
    · subst hij
      simp only [Function.update_self]
      exact hi.next (fun a ha => Or.inl (hmine a ha)) fun a ha => Or.inl (hnew a (Or.inl ha))
    · simp only [Function.update_of_ne hij]
      exact (hc.carries j).mono fun a ha => ha.imp_left fun ha => ha.cons (i, q)

/-- In every interleaving: what is held was held at the start or is a started thread's own,
and so is what a thread shows in its result, unless it is its own. -/
theorem sourced_run (hclosed : f.Closed h) (s₀ : σ) {threads : (i : ι) → Program Q R (α i)}
    (hthreads : ∀ i, f.Carries (own i) (shows i) (threads i)) (schedule : List ι) :
    let c := Pool.run h (Pool.start s₀ threads) schedule
    (∀ a, f.holds c.shared a → f.Sourced s₀ own c.log a) ∧
      ∀ i out, c.threads i = .done out → ∀ a, shows i out a →
        f.Sourced s₀ own c.log a ∨ own i a := by
  intro c
  have hstart : Flowing f s₀ own shows (Pool.start s₀ threads) :=
    ⟨fun a ha => Or.inl ha, fun i => (hthreads i).mono fun a ha => Or.inr ha⟩
  have hc : Flowing f s₀ own shows c :=
    Pool.run_keeps h _ (fun c i hc => hc.step hclosed i) hstart schedule
  refine ⟨hc.held, fun i out hdone a ha => ?_⟩
  have hi := hc.carries i
  rw [hdone] at hi
  exact hi.done ha

/-- If the items of the start and of every thread meet `X`, so does every item that shows up. -/
theorem confined_run (hclosed : f.Closed h) (s₀ : σ) {threads : (i : ι) → Program Q R (α i)}
    (hthreads : ∀ i, f.Carries (own i) (shows i) (threads i)) {X : A → Prop}
    (hstart : ∀ a, f.holds s₀ a → X a) (hown : ∀ i a, own i a → X a) (schedule : List ι) :
    let c := Pool.run h (Pool.start s₀ threads) schedule
    (∀ a, f.holds c.shared a → X a) ∧
      ∀ i out, c.threads i = .done out → ∀ a, shows i out a → X a := by
  intro c
  obtain ⟨hheld, hshown⟩ := sourced_run hclosed s₀ hthreads schedule
  have hsource : ∀ a, f.Sourced s₀ own c.log a → X a := by
    rintro a (ha | ⟨i, -, ha⟩)
    · exact hstart a ha
    · exact hown i a ha
  refine ⟨fun a ha => hsource a (hheld a ha), fun i out hdone a ha => ?_⟩
  obtain hfrom | hmine := hshown i out hdone a ha
  · exact hsource a hfrom
  · exact hown i a hmine

end Pool
end Carriage
end Effects
