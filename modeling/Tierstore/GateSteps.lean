import Tierstore.Load
import Tierstore.OneHolder

/-! The gates of a cache step by step: calls that acquire and release through the critical
sections of the single-flight map run as the calls do whose gates are one step each. -/
namespace Tierstore
open Effects Semaphores

inductive GateCall (K : Type) where
  | acquire (key : K)
  | release (key : K)
  deriving DecidableEq

structure Gating (Q : Type) (R : Q → Type) (T K : Type) (n : Nat) where
  gate : Q → Option (GateCall K)
  serve : (q : Q) → Stack T n → R q × Stack T n

structure GatePool (ι Q : Type) (R : Q → Type) (α : ι → Type) (T K : Type) (n : Nat)
    (W : Type) where
  stack : Stack T n
  threads : (i : ι) → Program Q R (α i)
  log : List (ι × Q)
  flights : SingleFlight ι K W

inductive Turn (ι W : Type) where
  | ask (i : ι)
  | enter (i : ι)
  | await (i : ι)
  | poll (i : ι) (waker : W)
  | guard (i : ι)
  | release (i : ι)
  | wake (i : ι)
  | cleanup (i : ι)
  | leave (i : ι)

namespace SingleFlight
variable {ι K W T : Type} [DecidableEq ι] [DecidableEq K] [DecidableEq T] {wk : Wakers W T}
  {s : SingleFlight ι K W}

omit [DecidableEq K] [DecidableEq T] in
theorem holding_goes {i : ι} {f : Flight K W} (hi : ∀ key g, s.flight i ≠ .holding key g)
    (hf : ∀ key g, f ≠ .holding key g) (j : ι) (key : K) (g : Nat) :
    s.goes i f j = .holding key g ↔ s.flight j = .holding key g := by
  by_cases hji : j = i
  · subst hji
    rw [goes, Function.update_self]
    exact iff_of_false (hf key g) (hi key g)
  · rw [goes, Function.update_of_ne hji]

omit [DecidableEq ι] [DecidableEq K] in
theorem holding_rouse (f : Flight K W) (t : T) (key : K) (g : Nat) :
    f.rouse wk t = .holding key g ↔ f = .holding key g := by
  unfold Flight.rouse
  split
  · exact iff_of_false (by simp) (by simp)
  · exact Iff.rfl

/-- A guard comes with its own step and goes with the release. -/
theorem holding_step {a : FlightStep ι K W} (hguard : ∀ i, a ≠ .guard i)
    (hrelease : ∀ i, a ≠ .release i) (j : ι) (key : K) (g : Nat) :
    (step wk s a).flight j = .holding key g ↔ s.flight j = .holding key g := by
  cases a with
  | enter i key' =>
    simp only [step]
    split
    · next hi =>
      unfold enter
      split <;> exact holding_goes (by simp [hi]) (by simp) j key g
    · rfl
  | await i =>
    simp only [step]
    split
    · next hi => exact holding_goes (by simp [hi]) (by simp) j key g
    · rfl
  | poll i w =>
    simp only [step]
    split
    · next hi =>
      refine holding_goes (by simp [hi]) (fun key g => ?_) j key g
      split <;> simp
    · rfl
  | guard i => exact absurd rfl (hguard i)
  | cancel i =>
    simp only [step]
    split
    · next hi => exact holding_goes (by simp [hi]) (by simp) j key g
    · rfl
  | release i => exact absurd rfl (hrelease i)
  | wake i =>
    simp only [step]
    split
    · next hi =>
      by_cases hji : j = i
      · subst hji
        simp [wake, hi]
      · simp only [wake, Function.update_of_ne hji, holding_rouse]
    · rfl
  | cleanup i =>
    simp only [step]
    split
    · next hi =>
      unfold cleanup
      split <;> exact holding_goes (by simp [hi]) (by simp) j key g
    · rfl
  | leave i =>
    simp only [step]
    split
    · next hi => exact holding_goes (by simp [hi]) (by simp) j key g
    · rfl

end SingleFlight

section Steps
variable {ι Q : Type} {R : Q → Type} {α : ι → Type} {T K : Type} {n : Nat} {W Tk : Type}
  [DecidableEq ι] [DecidableEq K] [DecidableEq Tk] (G : Gating Q R T K n) (wk : Wakers W Tk)

def Gating.atomic (q : Q) (s : Shared T K n) : Option (R q × Shared T K n) :=
  match G.gate q with
  | none => some ((G.serve q s.stack).1, { s with stack := (G.serve q s.stack).2 })
  | some (.acquire key) =>
    if key ∈ s.gates then none
    else some ((G.serve q s.stack).1, { s with gates := key :: s.gates })
  | some (.release key) =>
    some ((G.serve q s.stack).1, { s with gates := s.gates.erase key })

section Atomic
variable {G} {q : Q} {s : Shared T K n} {key : K}

theorem Gating.atomic_none (hq : G.gate q = none) : G.atomic q s =
    some ((G.serve q s.stack).1, { s with stack := (G.serve q s.stack).2 }) := by
  simp only [Gating.atomic, hq]

theorem Gating.atomic_acquire (hq : G.gate q = some (.acquire key)) (hfree : key ∉ s.gates) :
    G.atomic q s = some ((G.serve q s.stack).1, { s with gates := key :: s.gates }) := by
  simp only [Gating.atomic, hq, if_neg hfree]

theorem Gating.atomic_release (hq : G.gate q = some (.release key)) : G.atomic q s =
    some ((G.serve q s.stack).1, { s with gates := s.gates.erase key }) := by
  simp only [Gating.atomic, hq]

end Atomic

namespace GatePool

def start (stack : Stack T n) (threads : (i : ι) → Program Q R (α i)) :
    GatePool ι Q R α T K n W :=
  { stack, threads, log := [], flights := .new }

def fly (c : GatePool ι Q R α T K n W) (a : FlightStep ι K W) : GatePool ι Q R α T K n W :=
  { c with flights := c.flights.step wk a }

def answered (c : GatePool ι Q R α T K n W) (i : ι) (q : Q)
    (next : R q → Program Q R (α i)) : GatePool ι Q R α T K n W :=
  { c with threads := Function.update c.threads i (next (G.serve q c.stack).1)
           log := (i, q) :: c.log }

/-- A thread asks the tiers when it is not on its way into a gate or out of one. An acquire is
over when it has its guard; the rest of the guard's drop follows the release. -/
def step (c : GatePool ι Q R α T K n W) : Turn ι W → GatePool ι Q R α T K n W
  | .ask i =>
    match c.threads i, c.flights.flight i with
    | .call q next, .idle | .call q next, .holding _ _ =>
      if G.gate q = none then { c.answered G i q next with stack := (G.serve q c.stack).2 } else c
    | _, _ => c
  | .enter i =>
    match (c.threads i).asks.bind G.gate with
    | some (.acquire key) => c.fly wk (.enter i key)
    | _ => c
  | .await i => c.fly wk (.await i)
  | .poll i waker => c.fly wk (.poll i waker)
  | .guard i =>
    match c.threads i, c.flights.flight i with
    | .call q next, .acquired key _ =>
      if G.gate q = some (.acquire key) then (c.answered G i q next).fly wk (.guard i) else c
    | _, _ => c
  | .release i =>
    match c.threads i, c.flights.flight i with
    | .call q next, .holding key _ =>
      if G.gate q = some (.release key) then (c.answered G i q next).fly wk (.release i) else c
    | _, _ => c
  | .wake i => c.fly wk (.wake i)
  | .cleanup i => c.fly wk (.cleanup i)
  | .leave i => c.fly wk (.leave i)

def run (c : GatePool ι Q R α T K n W) (turns : List (Turn ι W)) : GatePool ι Q R α T K n W :=
  turns.foldl (step G wk) c

/-- The same run with atomic gates has come as far, and the gates it holds are those whose guards
there are. -/
structure Shows (c : GatePool ι Q R α T K n W) (p : Pool ι Q R α (Shared T K n)) : Prop where
  stack : p.shared.stack = c.stack
  threads : p.threads = c.threads
  log : p.log = c.log
  gates : ∀ key, key ∈ p.shared.gates ↔ ∃ i g, c.flights.flight i = .holding key g
  nodup : p.shared.gates.Nodup
  kept : c.flights.Kept wk

variable {G wk} {c : GatePool ι Q R α T K n W} {p : Pool ι Q R α (Shared T K n)}

theorem Shows.fly (h : c.Shows wk p) {a : FlightStep ι K W} (hguard : ∀ i, a ≠ .guard i)
    (hrelease : ∀ i, a ≠ .release i) : (c.fly wk a).Shows wk p :=
  { h with
    gates := fun key => (h.gates key).trans
      (exists_congr fun i => exists_congr fun g =>
        (SingleFlight.holding_step hguard hrelease i key g).symm)
    kept := h.kept.step a }

omit [DecidableEq Tk] in
/-- A query of the tiers. -/
theorem Shows.ask (h : c.Shows wk p) {i : ι} {q : Q} {next : R q → Program Q R (α i)}
    (hthread : c.threads i = .call q next) (hq : G.gate q = none) :
    Shows wk { c.answered G i q next with stack := (G.serve q c.stack).2 }
      (Pool.step G.atomic p i) := by
  rw [Pool.step_of_call G.atomic ((congrFun h.threads i).trans hthread) (Gating.atomic_none hq)]
  exact { h with
    stack := by simp only [h.stack]
    threads := by simp only [h.stack, h.threads, answered]
    log := by simp only [h.log, answered] }

/-- Whoever gets the guard of a key finds no other. -/
theorem Shows.guard (h : c.Shows wk p) {i : ι} {q : Q} {next : R q → Program Q R (α i)}
    {key : K} {g : Nat} (hthread : c.threads i = .call q next)
    (hflight : c.flights.flight i = .acquired key g) (hq : G.gate q = some (.acquire key)) :
    ((c.answered G i q next).fly wk (.guard i)).Shows wk (Pool.step G.atomic p i) := by
  have hfree : key ∉ p.shared.gates := by
    intro hmem
    obtain ⟨j, g', hj⟩ := (h.gates key).1 hmem
    obtain rfl : i = j := h.kept.admitsOne.exclusive key i j (by rw [hflight]; rfl)
      (by rw [hj]; rfl)
    rw [hflight] at hj
    cases hj
  have hflights : (c.flights.step wk (.guard i)).flight = c.flights.goes i (.holding key g) := by
    simp only [SingleFlight.step, hflight]
  rw [Pool.step_of_call G.atomic ((congrFun h.threads i).trans hthread)
    (Gating.atomic_acquire hq hfree)]
  refine ⟨h.stack, ?_, ?_, fun key' => ?_, List.nodup_cons.2 ⟨hfree, h.nodup⟩,
    h.kept.step (.guard i)⟩
  · simp only [h.stack, h.threads, GatePool.fly, answered]
  · simp only [h.log, GatePool.fly, answered]
  · change key' ∈ key :: p.shared.gates ↔ ∃ j g', (c.flights.step wk (.guard i)).flight j = _
    rw [hflights, List.mem_cons, h.gates key']
    constructor
    · rintro (rfl | ⟨j, g', hj⟩)
      · exact ⟨i, g, by rw [SingleFlight.goes, Function.update_self]⟩
      · have hji : j ≠ i := by
          rintro rfl
          rw [hflight] at hj
          cases hj
        exact ⟨j, g', by rw [SingleFlight.goes, Function.update_of_ne hji, hj]⟩
    · rintro ⟨j, g', hj⟩
      by_cases hji : j = i
      · subst hji
        rw [SingleFlight.goes, Function.update_self] at hj
        cases hj
        exact Or.inl rfl
      · rw [SingleFlight.goes, Function.update_of_ne hji] at hj
        exact Or.inr ⟨j, g', hj⟩

theorem Shows.release (h : c.Shows wk p) {i : ι} {q : Q} {next : R q → Program Q R (α i)}
    {key : K} {g : Nat} (hthread : c.threads i = .call q next)
    (hflight : c.flights.flight i = .holding key g) (hq : G.gate q = some (.release key)) :
    ((c.answered G i q next).fly wk (.release i)).Shows wk (Pool.step G.atomic p i) := by
  have hflights : (c.flights.step wk (.release i)).flight =
      c.flights.goes i (.waking key g (c.flights.heap g).state.wakers) := by
    simp only [SingleFlight.step, hflight]
    rfl
  rw [Pool.step_of_call G.atomic ((congrFun h.threads i).trans hthread)
    (Gating.atomic_release hq)]
  refine ⟨h.stack, ?_, ?_, fun key' => ?_, h.nodup.erase key, h.kept.step (.release i)⟩
  · simp only [h.stack, h.threads, GatePool.fly, answered]
  · simp only [h.log, GatePool.fly, answered]
  · change key' ∈ p.shared.gates.erase key ↔
      ∃ j g', (c.flights.step wk (.release i)).flight j = _
    rw [hflights, h.nodup.mem_erase_iff, h.gates key']
    constructor
    · rintro ⟨hne, j, g', hj⟩
      have hji : j ≠ i := by
        rintro rfl
        rw [hflight] at hj
        cases hj
        exact hne rfl
      exact ⟨j, g', by rw [SingleFlight.goes, Function.update_of_ne hji, hj]⟩
    · rintro ⟨j, g', hj⟩
      have hji : j ≠ i := by
        rintro rfl
        rw [SingleFlight.goes, Function.update_self] at hj
        cases hj
      rw [SingleFlight.goes, Function.update_of_ne hji] at hj
      refine ⟨?_, j, g', hj⟩
      rintro rfl
      exact hji (h.kept.admitsOne.exclusive key' j i (by rw [hj]; rfl) (by rw [hflight]; rfl))

/-- A turn is a step of the pool with atomic gates or nothing. -/
theorem Shows.step (h : c.Shows wk p) (turn : Turn ι W) :
    (GatePool.step G wk c turn).Shows wk p ∨
      ∃ i, (GatePool.step G wk c turn).Shows wk (Pool.step G.atomic p i) := by
  cases turn with
  | ask i =>
    simp only [GatePool.step]
    split
    · next q next hthread _ =>
      split
      · next hq => exact Or.inr ⟨i, h.ask hthread hq⟩
      · exact Or.inl h
    · next q next _ _ hthread _ =>
      split
      · next hq => exact Or.inr ⟨i, h.ask hthread hq⟩
      · exact Or.inl h
    · exact Or.inl h
  | enter i =>
    simp only [GatePool.step]
    split
    · exact Or.inl (h.fly (by simp) (by simp))
    · exact Or.inl h
  | await i => exact Or.inl (h.fly (by simp) (by simp))
  | poll i waker => exact Or.inl (h.fly (by simp) (by simp))
  | guard i =>
    simp only [GatePool.step]
    split
    · next q next key g hthread hflight =>
      split
      · next hq => exact Or.inr ⟨i, h.guard hthread hflight hq⟩
      · exact Or.inl h
    · exact Or.inl h
  | release i =>
    simp only [GatePool.step]
    split
    · next q next key g hthread hflight =>
      split
      · next hq => exact Or.inr ⟨i, h.release hthread hflight hq⟩
      · exact Or.inl h
    · exact Or.inl h
  | wake i => exact Or.inl (h.fly (by simp) (by simp))
  | cleanup i => exact Or.inl (h.fly (by simp) (by simp))
  | leave i => exact Or.inl (h.fly (by simp) (by simp))

theorem Shows.run (h : c.Shows wk p) (turns : List (Turn ι W)) :
    ∃ schedule, (GatePool.run G wk c turns).Shows wk (Pool.run G.atomic p schedule) := by
  induction turns generalizing c p with
  | nil => exact ⟨[], h⟩
  | cons turn turns ih =>
    obtain hstep | ⟨i, hstep⟩ := h.step turn
    · exact ih hstep
    · obtain ⟨schedule, hrun⟩ := ih hstep
      exact ⟨i :: schedule, hrun⟩

omit [DecidableEq ι] [DecidableEq K] [DecidableEq Tk] in
theorem Shows.eq (h : c.Shows wk p) :
    p = { shared := { stack := c.stack, gates := p.shared.gates }, threads := c.threads
          log := c.log } := by
  obtain ⟨⟨stack, gates⟩, threads, log⟩ := p
  obtain ⟨rfl, rfl, rfl, -, -, -⟩ := h
  rfl

/-- Every run from gates that nobody holds is a run with atomic gates. -/
theorem run_atomic (wk : Wakers W Tk) (stack : Stack T n) (threads : (i : ι) → Program Q R (α i))
    (turns : List (Turn ι W)) :
    let final := run G wk (start stack threads) turns
    ∃ schedule gates, Pool.run G.atomic (.start { stack, gates := [] } threads) schedule =
      { shared := { stack := final.stack, gates }
        threads := final.threads
        log := final.log } := by
  intro final
  have hstart : (start stack threads : GatePool ι Q R α T K n W).Shows wk
      (.start { stack, gates := [] } threads) :=
    { stack := rfl
      threads := rfl
      log := rfl
      gates := fun key => iff_of_false List.not_mem_nil (by rintro ⟨i, g, ⟨⟩⟩)
      nodup := List.nodup_nil
      kept := SingleFlight.kept_new }
  obtain ⟨schedule, hrun⟩ := hstart.run turns
  exact ⟨schedule, _, hrun.eq⟩

end GatePool
end Steps

namespace TieredCache
variable {n : Nat} {T K V E L ι W Tk : Type} [DecidableEq K] [Tier T K V E]

def gating : Gating (CacheQuery n K V) (CacheAnswer n K V E) T K n where
  gate
    | .tier _ => none
    | .acquire key => some (.acquire key)
    | .release key => some (.release key)
  serve
    | .tier q, s => Stack.exec q s
    | .acquire _, s => ((), s)
    | .release _, s => ((), s)

def loadGating : Gating (LoadQuery n K V L) (LoadAnswer n K V E L) T K n where
  gate
    | .cache q => (gating (T := T) (E := E)).gate q
    | .load _ _ => none
  serve
    | .cache q, s => gating.serve q s
    | .load _ result, s => (result, s)

theorem exec_eq_atomic :
    exec = (gating : Gating (CacheQuery n K V) (CacheAnswer n K V E) T K n).atomic := by
  funext q s
  cases q <;> rfl

theorem execLoad_eq_atomic :
    execLoad = (loadGating : Gating (LoadQuery n K V L) (LoadAnswer n K V E L) T K n).atomic := by
  funext q s
  cases q with
  | cache q => cases q <;> rfl
  | load key result => rfl

variable [DecidableEq ι] [DecidableEq Tk] (wk : Wakers W Tk) (r : Router n) (singleFlight : Bool)
  (s : Stack T n) (turns : List (Turn ι W))

/-- Concurrent calls whose gates take many steps end as they do with atomic gates. -/
theorem gates_atomic (calls : ι → CacheCall K V) :
    let final := GatePool.run gating wk
      (.start s fun i => perform (E := E) r singleFlight (calls i)) turns
    ∃ schedule gates, Pool.run exec (start r singleFlight calls s) schedule =
      { shared := { stack := final.stack, gates }
        threads := final.threads
        log := final.log } := by
  rw [exec_eq_atomic]
  exact GatePool.run_atomic wk s _ turns

theorem load_gates_atomic (calls : ι → LoadCall K V L) :
    let final := GatePool.run loadGating wk
      (.start s fun i => performLoad (E := E) r singleFlight (calls i)) turns
    ∃ schedule gates, Pool.run execLoad (startLoads r singleFlight calls s) schedule =
      { shared := { stack := final.stack, gates }
        threads := final.threads
        log := final.log } := by
  rw [execLoad_eq_atomic]
  exact GatePool.run_atomic wk s _ turns

/-- Two gets of one key: the second waits at the gate, is woken, and finds the promoted copy. -/
example :
    let final := GatePool.run gating ⟨id, fun a b : Nat => a == b, fun _ _ h => by simpa using h⟩
      (.start lowerCopy fun _ : Fin 2 => perform (E := Infallible) memoryCache true (.get 1))
      [.enter 0, .await 0, .poll 0 7, .guard 0, .enter 1, .await 1, .poll 1 8, .ask 0, .ask 0,
       .ask 0, .release 0, .wake 0, .poll 1 8, .guard 1, .ask 1, .cleanup 0, .leave 0, .release 1,
       .cleanup 1, .leave 1]
    (∀ i, (final.threads i).Done) ∧ final.flights.map 1 = none ∧
      final.log.map Prod.fst = [1, 1, 1, 0, 0, 0, 0, 0] := by
  decide +kernel

end TieredCache
end Tierstore
