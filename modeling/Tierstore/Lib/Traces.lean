import Tierstore.Lib.Program

/-! The traces of a program: what it can ask, whatever it is answered, and what it then
returns. Every run against an environment follows one of them. -/
namespace Effects
universe u v
namespace Program
variable {Q : Type u} {R : Q → Type u} {α β : Type u} {σ : Type v}

abbrev Event (Q : Type u) (R : Q → Type u) := (q : Q) × R q

/-- The program asks the queries of the log in order, is answered as it says, and returns. -/
def Trace : Program Q R α → List (Event Q R) → α → Prop
  | .done a, log, b => log = [] ∧ b = a
  | .call q next, log, b => ∃ r rest, log = ⟨q, r⟩ :: rest ∧ Trace (next r) rest b

def events (h : (q : Q) → σ → R q × σ) : Program Q R α → σ → List (Event Q R)
  | .done _, _ => []
  | .call q next, s => ⟨q, (h q s).1⟩ :: events h (next (h q s).1) (h q s).2

theorem run_trace (h : (q : Q) → σ → R q × σ) (p : Program Q R α) (s : σ) :
    p.Trace (events h p s) (run h p s).1 := by
  induction p generalizing s with
  | done a => exact ⟨rfl, rfl⟩
  | call q next ih => exact ⟨_, _, rfl, ih _ _⟩

theorem trace_bind {p : Program Q R α} {f : α → Program Q R β} {log : List (Event Q R)} {b : β} :
    (p >>= f).Trace log b ↔
      ∃ a first rest, log = first ++ rest ∧ p.Trace first a ∧ (f a).Trace rest b := by
  induction p generalizing log with
  | done a =>
    constructor
    · intro h
      exact ⟨a, [], log, rfl, ⟨rfl, rfl⟩, h⟩
    · rintro ⟨_, _, rest, rfl, ⟨rfl, rfl⟩, h⟩
      exact h
  | call q next ih =>
    constructor
    · rintro ⟨r, rest, rfl, h⟩
      obtain ⟨a, first, later, rfl, hfirst, hlater⟩ := (ih r).1 h
      exact ⟨a, ⟨q, r⟩ :: first, later, rfl, ⟨r, first, rfl, hfirst⟩, hlater⟩
    · rintro ⟨a, _, later, rfl, ⟨r, first, rfl, hfirst⟩, hlater⟩
      exact ⟨r, first ++ later, rfl, (ih r).2 ⟨a, first, later, rfl, hfirst, hlater⟩⟩

theorem trace_map {p : Program Q R α} {f : α → β} {log : List (Event Q R)} {b : β} :
    (f <$> p).Trace log b ↔ ∃ a, p.Trace log a ∧ b = f a := by
  rw [map_eq_pure_bind, trace_bind]
  constructor
  · rintro ⟨a, first, _, rfl, hfirst, rfl, rfl⟩
    exact ⟨a, by simpa using hfirst, rfl⟩
  · rintro ⟨a, h, rfl⟩
    exact ⟨a, log, [], by simp, h, rfl, rfl⟩

/-- A safe program answered as promised asks what it may. -/
theorem Safe.trace {ok : Q → Prop} {ans : (q : Q) → R q → Prop} {post : α → Prop}
    {p : Program Q R α} (h : p.Safe ok ans post) {log : List (Event Q R)} {a : α}
    (hlog : p.Trace log a) (hans : ∀ e ∈ log, ans e.1 e.2) : (∀ e ∈ log, ok e.1) ∧ post a := by
  induction p generalizing log with
  | done b =>
    obtain ⟨rfl, rfl⟩ := hlog
    exact ⟨by simp, h⟩
  | call q next ih =>
    obtain ⟨r, rest, rfl, hrest⟩ := hlog
    obtain ⟨hok, hpost⟩ := ih r (h.2 r (hans ⟨q, r⟩ (by simp))) hrest fun e he =>
      hans e (List.mem_cons_of_mem _ he)
    refine ⟨fun e he => ?_, hpost⟩
    obtain rfl | hlater := List.mem_cons.1 he
    · exact h.1
    · exact hok e hlater

/-- What every query keeps and every answer meets, the events of a whole run meet. -/
theorem Safe.events {h : (q : Q) → σ → R q × σ} {ok : Q → Prop} {inv : σ → Prop}
    {good : Event Q R → Prop} {post : α → Prop}
    (hstep : ∀ q s, inv s → ok q → good ⟨q, (h q s).1⟩ ∧ inv (h q s).2) {p : Program Q R α}
    (hp : p.Safe ok (fun _ _ => True) post) {s : σ} (hs : inv s) :
    (∀ e ∈ p.events h s, good e) ∧ inv (p.run h s).2 := by
  induction p generalizing s with
  | done a => exact ⟨by simp [Program.events], hs⟩
  | call q next ih =>
    obtain ⟨hgood, hinv⟩ := hstep q s hs hp.1
    obtain ⟨hlater, hend⟩ := ih _ (hp.2 _ trivial) hinv
    exact ⟨List.forall_mem_cons.2 ⟨hgood, hlater⟩, hend⟩

end Program

/-! ## Events in order -/
section Order
variable {A : Type} {ok : List A → A → Prop}

def InOrder (ok : List A → A → Prop) : List A → List A → Prop
  | _, [] => True
  | before, e :: rest => ok before e ∧ InOrder ok (before ++ [e]) rest

theorem inOrder_append {before first rest : List A} :
    InOrder ok before (first ++ rest) ↔
      InOrder ok before first ∧ InOrder ok (before ++ first) rest := by
  induction first generalizing before with
  | nil => simp [InOrder]
  | cons e first ih =>
    rw [List.cons_append, InOrder, InOrder, ih, and_assoc, List.append_assoc, List.singleton_append]

theorem InOrder.of_forall {before log : List A} (hmono : ∀ e b b', ok b e → ok (b ++ b') e)
    (h : ∀ e ∈ log, ok before e) : InOrder ok before log := by
  induction log generalizing before with
  | nil => trivial
  | cons e log ih =>
    refine ⟨h e List.mem_cons_self, ih fun e' he' => hmono e' before [e] ?_⟩
    exact h e' (List.mem_cons_of_mem e he')

end Order

end Effects
