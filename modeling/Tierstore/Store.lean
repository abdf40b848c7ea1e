import Tierstore.Flaky
import Tierstore.Infallible
import Tierstore.Lib.Runs
import Tierstore.Lookup

/-! The authoritative store: reads fail fast, and entries pushed off the bottom tier come
back to the caller as an error. -/
namespace Tierstore
open Overlay Effects

inductive StoreError (K V E : Type) where
  | router (error : RouterError E)
  | evicted (entries : Displaced K V)
  deriving DecidableEq, Repr

/-- The operations of a store; every one answers with an `Except` of `StoreError` but
`delete_many`, which answers with its report. -/
inductive StoreOp (K V : Type) where
  | get (key : K)
  | getMany (keys : List K)
  | contains (key : K)
  | put (key : K) (value : V)
  | putMany (entries : List (K × V))
  | delete (key : K)
  | deleteMany (keys : List K)

namespace TieredStore

def defaultPolicy : Policy :=
  { read := { promote := .never, onError := .failFast }
    write := .writeThrough
    onWriteError := .failFast
    demoteDisplaced := true }

section Api
variable {n : Nat} {K V E : Type} (r : Router n)

def retained : Except (RouterError E) (Displaced K V) → Except (StoreError K V E) Unit
  | .error error => .error (.router error)
  | .ok displaced => if displaced.isEmpty then .ok () else .error (.evicted displaced)

def get (key : K) : RouterM n K V E (Option (Except (StoreError K V E) (Option V))) := do
  let result ← r.get key
  pure (result.map fun answer => answer.mapError StoreError.router)

def getMany (keys : List K) : RouterM n K V E (Except (StoreError K V E) (ReadReport V E)) := do
  let result ← r.readMany keys
  pure (result.mapError StoreError.router)

def contains (key : K) : RouterM n K V E (Option (Except (StoreError K V E) Bool)) := do
  let result ← r.exists_ key
  pure (result.map fun answer => answer.mapError StoreError.router)

def put (key : K) (value : V) : RouterM n K V E (Except (StoreError K V E) Unit) := do
  let result ← r.put key value
  pure (retained result)

def putMany (entries : List (K × V)) : RouterM n K V E (Except (StoreError K V E) Unit) := do
  let result ← r.putMany entries
  pure (retained result)

def delete (key : K) : RouterM n K V E (Except (StoreError K V E) Bool) := do
  let result ← r.delete key
  pure (result.mapError StoreError.router)

def deleteMany (keys : List K) : RouterM n K V E (DeleteReport E) := r.removeMany keys

end Api

/-! ## What the store owes its caller -/
section Ledger
variable {T K V E : Type} {n : Nat} [DecidableEq K] [Tier T K V E]

/-- What a write leaves the store owing: an acknowledged write is owed, entries handed back
are not, and the keys of a write that failed are open. -/
def settle (owed : K → Option V) (es : List (K × V)) :
    Except (StoreError K V E) Unit → K → Option V
  | .ok () => write owed es
  | .error (.evicted entries) =>
    eraseAll (eraseAll owed (es.map Prod.fst)) (entries.map Prod.fst)
  | .error (.router _) => eraseAll owed (es.map Prod.fst)

def serve (r : Router n) (state : (K → Option V) × Stack T n) :
    StoreOp K V → (K → Option V) × Stack T n
  | .get key => (state.1, (Stack.run (get r key) state.2).2)
  | .getMany keys => (state.1, (Stack.run (getMany r keys) state.2).2)
  | .contains key => (state.1, (Stack.run (contains r key) state.2).2)
  | .put key value =>
    let out := Stack.run (put r key value) state.2
    (settle state.1 [(key, value)] out.1, out.2)
  | .putMany entries =>
    let out := Stack.run (putMany r entries) state.2
    (settle state.1 entries out.1, out.2)
  | .delete key => (erase state.1 key, (Stack.run (delete r key) state.2).2)
  | .deleteMany keys => (eraseAll state.1 keys, (Stack.run (deleteMany r keys) state.2).2)

variable [LawfulTier T]

/-- The condition on a write: a demotion is rejected only where the stack shows the entry without
it, and a tier rejects the write itself only where the stack still shows what the call dropped and
has a tier with each key that fell off the bottom. -/
def Settled (r : Router n) (s : Stack T n) : StoreOp K V → Prop
  | .put key value =>
    Stack.Settles r (fun t => putAt t key value) [(key, value)] (List.finRange n).reverse [] s
  | .putMany entries =>
    Stack.Settles r (fun t => putManyAt t entries) entries (List.finRange n).reverse [] s
  | _ => True

def Covered (state : (K → Option V) × Stack T n) : Prop :=
  ∀ k v, state.1 k = some v → state.2.shown k = some v

theorem settle_covered {owed : K → Option V} {s s' : Stack T n} {es : List (K × V)}
    {result : Except (RouterError E) (Displaced K V)} (hs : Covered (owed, s))
    (h : match result with
      | .ok displaced => atop s'.shown (latest displaced) = write s.shown es
      | .error _ => ∀ k, k ∉ es.map Prod.fst → s'.shown k = s.shown k) :
    Covered (settle owed es (retained result), s') := by
  intro k v hk
  cases result with
  | error e =>
    obtain ⟨hmem, howed⟩ := eraseAll_eq_some.1 hk
    exact (h k hmem).trans (hs k v howed)
  | ok displaced =>
    have hconserved := congrFun h k
    cases displaced with
    | nil =>
      rw [latest_nil, atop_empty] at hconserved
      have hmono : Within False owed s.shown := ⟨hs, fun h => h.elim⟩
      exact hconserved.trans ((hmono.write es).1 k v hk)
    | cons e rest =>
      obtain ⟨hlost, hk'⟩ := eraseAll_eq_some.1 hk
      obtain ⟨hmem, howed⟩ := eraseAll_eq_some.1 hk'
      rw [write_of_notMem hmem, hs k v howed, atop, latest_eq_none.2 hlost,
        Option.or_none] at hconserved
      exact hconserved

section Steps
variable (r : Router n) (hw : ∀ i, r.writable i = true) (hp : r.policy = defaultPolicy)
include hp

theorem get_spec (k : K) (s : Stack T n) :
    Stack.Undisturbed s (Stack.run (get r k) s).2 ∧
      ((Stack.run (get r k) s).1 = some (.ok (s.shown k)) ∨
        ∃ e, (Stack.run (get r k) s).1 = some (.error e)) := by
  have hfast : E → r.policy.read.onError = .failFast := fun _ => by rw [hp]; rfl
  have htargets : ∀ t, r.hitTargets t = [] := by
    intro t
    simp [Router.hitTargets, Router.promoteTargets, hp, defaultPolicy]
  obtain ⟨s', hund, hres⟩ := Stack.readDown_spec r hfast k [] (List.finRange n) rfl s rfl
  rw [get, Stack.run_bind, Router.get_eq, Stack.run_map]
  obtain ⟨t, v, hv, hrun⟩ | ⟨hv, hrun⟩ | ⟨t, source, hrun⟩ := hres
  · rw [hrun, htargets, hv]
    exact ⟨hund, Or.inl rfl⟩
  · rw [hrun, hv]
    exact ⟨hund, Or.inl rfl⟩
  · rw [hrun]
    exact ⟨hund, Or.inr ⟨_, rfl⟩⟩

theorem getMany_undisturbed (ks : List K) (s : Stack T n) :
    Stack.Undisturbed s (Stack.run (getMany r ks) s).2 := by
  have hfast : E → r.policy.read.onError = .failFast := fun _ => by rw [hp]; rfl
  obtain ⟨s', hund, hres⟩ := Stack.readTiers_spec r hfast ks [] (List.finRange n) rfl s
    (fun _ => .miss) (List.finRange ks.length) (fun i => rfl)
    (fun i => by simp [Stack.view, stacked])
  rw [getMany, Stack.run_bind, Router.readMany, Stack.run_bind]
  obtain ⟨statuses, unresolved, -, hrun⟩ | ⟨t, source, hrun⟩ := hres
  · rw [hrun]
    have hnever : r.policy.read.promote = .never := by rw [hp]; rfl
    simpa [Router.promoteBatch, hnever] using hund
  · rw [hrun]
    exact hund

theorem contains_undisturbed (k : K) (s : Stack T n) :
    Stack.Undisturbed s (Stack.run (contains (V := V) r k) s).2 := by
  have hfast : E → r.policy.read.onError = .failFast := fun _ => by rw [hp]; rfl
  have hund := (Stack.existsDown_spec r hfast k [] (List.finRange n) rfl s rfl).1
  rw [contains, Stack.run_bind, Router.exists_eq, Stack.run_map]
  exact hund

include hw

theorem writeThrough_covered
    {w : Fin n → RouterM n K V E (Except E (Displaced K V))} {es : List (K × V)}
    (hwrites : Stack.Writes T w es) {owed : K → Option V} {s : Stack T n}
    (hs : Covered (owed, s)) (hn : n ≠ 0)
    (hset : Stack.Settles r w es (List.finRange n).reverse [] s) :
    let out := Stack.run (r.writeThrough w (List.finRange n).reverse []) s
    Covered (settle owed es (retained out.1), out.2) := by
  intro out
  refine settle_covered hs ?_
  have hdemote : r.policy.demoteDisplaced = true := by rw [hp]; rfl
  have hfast : E → r.policy.onWriteError = .failFast := fun _ => by rw [hp]; rfl
  have h := Stack.write_settled r hw hwrites hdemote hfast hn hset
  dsimp only [out]
  generalize Stack.run (r.writeThrough w (List.finRange n).reverse []) s = o at h
  obtain ⟨a, s'⟩ := o
  cases a <;> exact h

theorem serve_covered (op : StoreOp K V) {state : (K → Option V) × Stack T n}
    (hs : Covered state) (hop : Settled r state.2 op) : Covered (serve r state op) := by
  obtain ⟨owed, s⟩ := state
  have hund : ∀ s', Stack.Undisturbed s s' → Covered (owed, s') := by
    intro s' h k v hk
    exact (congrFun h.shown k).trans (hs k v hk)
  have hrest : ∀ ks s', Stack.KeepsOthers ks s s' → Covered (eraseAll owed ks, s') := by
    intro ks s' h k v hk
    obtain ⟨hmem, howed⟩ := eraseAll_eq_some.1 hk
    exact (h.shown hmem).trans (hs k v howed)
  have hreadOnly : ∀ es, Covered
      (settle owed es (retained (Except.error (RouterError.readOnly : RouterError E))), s) :=
    fun es => settle_covered hs fun _ _ => rfl
  have hmode : r.policy.write = .writeThrough := by rw [hp]; rfl
  have hany : (List.finRange n).any r.writable = true → n ≠ 0 := by
    intro h hn
    subst hn
    simp at h
  cases op with
  | get k => exact hund _ (get_spec r hp k s).1
  | getMany ks => exact hund _ (getMany_undisturbed r hp ks s)
  | contains k => exact hund _ (contains_undisturbed r hp k s)
  | put k v =>
    rw [serve, put, Stack.run_bind, Router.put, hmode]
    dsimp only
    split
    · exact hreadOnly [(k, v)]
    · next h =>
      exact writeThrough_covered r hw hp (Stack.writes_put k v) hs
        (hany (by simpa using h)) hop
  | putMany es =>
    rw [serve, putMany, Stack.run_bind, Router.putMany, hmode]
    dsimp only
    split
    · exact hreadOnly es
    · next h =>
      exact writeThrough_covered r hw hp (Stack.writes_putMany es) hs
        (hany (by simpa using h)) hop
  | delete k =>
    rw [serve, ← eraseAll_singleton]
    refine hrest [k] _ ?_
    rw [delete, Stack.run_bind]
    exact Stack.deleteTiers_keepsOthers r k _ false [] s
  | deleteMany ks => exact hrest ks _ (Stack.removeTiers_keepsOthers r ks _ _ [] s)

end Steps
end Ledger

end TieredStore

/-- In every history whose writes all settle, what the store owes is read back, unless the
read fails: an acknowledged value is gone only when the caller was handed it. -/
theorem store_never_shrinks_silently {T K V E : Type} [DecidableEq K] [Tier T K V E]
    [LawfulTier T] {n : Nat} (r : Router n) (hw : ∀ i, r.writable i = true)
    (hp : r.policy = TieredStore.defaultPolicy) (s : Stack T n) (ops : List (StoreOp K V))
    (hops : Runs.Along (TieredStore.serve r) (fun state op => TieredStore.Settled r state.2 op)
      (empty, s) ops) :
    let final := ops.foldl (TieredStore.serve r) (empty, s)
    ∀ k v, final.1 k = some v →
      (Stack.run (TieredStore.get r k) final.2).1 = some (.ok (some v)) ∨
        ∃ e, (Stack.run (TieredStore.get r k) final.2).1 = some (.error e) := by
  intro final k v hk
  have hcovered : TieredStore.Covered final :=
    hops.keeps (fun state op hs hop => TieredStore.serve_covered r hw hp op hs hop)
      (fun k v h => by cases h)
  have hget := (TieredStore.get_spec r hp k final.2).2
  rwa [hcovered k v hk] at hget

def memoryStore : Router 2 := .uniform 2 "memory" TieredStore.defaultPolicy

/-- Losses that do not show: the top tier rejects the second put, in the second stack after the
bottom tier has dropped key 1, which the top tier still holds; in the third, the bottom tier rejects
key 1 on its way down and holds it already. -/
theorem store_never_shrinks_silently_spared :
    let final (s : Stack (FlakyTier (MemoryTier Nat Nat)) 2) :=
      [StoreOp.put 1 10, .put 2 20].foldl (TieredStore.serve memoryStore) (empty, s)
    let read (s : Stack (FlakyTier (MemoryTier Nat Nat)) 2) :=
      (Stack.run (TieredStore.get memoryStore 1) (final s).2).1
    ([faultyOver 1 .unbounded, faultyOver 1 (.bounded 1), overFaulty 2].map fun s =>
        (final s).1 1) = [some 10, some 10, some 10] ∧
      (read (faultyOver 1 .unbounded) = some (.ok (some 10)) ∨
        ∃ e, read (faultyOver 1 .unbounded) = some (.error e)) ∧
      (read (faultyOver 1 (.bounded 1)) = some (.ok (some 10)) ∨
        ∃ e, read (faultyOver 1 (.bounded 1)) = some (.error e)) ∧
      (read (overFaulty 2) = some (.ok (some 10)) ∨
        ∃ e, read (overFaulty 2) = some (.error e)) := by
  intro final read
  have hget (s : Stack (FlakyTier (MemoryTier Nat Nat)) 2)
      (hops : Runs.Along (TieredStore.serve memoryStore)
        (fun state op => TieredStore.Settled memoryStore state.2 op) (empty, s)
        [StoreOp.put 1 10, .put 2 20]) :=
    store_never_shrinks_silently memoryStore (fun _ => rfl) rfl s _ hops 1 10
  refine ⟨by decide +kernel, hget _ ?_ (by decide +kernel), hget _ ?_ (by decide +kernel),
    hget _ ?_ (by decide +kernel)⟩
  · refine ⟨⟨trivial, ⟨trivial, trivial⟩, trivial⟩, ⟨trivial, fun _ _ => rfl, ?_⟩, trivial⟩
    exact fun e he => by cases he
  · refine ⟨⟨trivial, ⟨trivial, trivial⟩, trivial⟩, ⟨trivial, fun _ _ => rfl, ?_⟩, trivial⟩
    decide
  · refine ⟨⟨trivial, ⟨trivial, trivial⟩, trivial⟩,
      ⟨trivial, ⟨⟨fun _ _ => ?_, trivial⟩, trivial⟩, trivial⟩, trivial⟩
    decide

/-- The third put pushes key 1 off the bottom and is then rejected by the top tier: the
caller sees a router error, and key 1 is gone unmentioned. -/
theorem store_shrinks_silently :
    let final := [StoreOp.put 1 10, .put 2 20, .put 3 30].foldl
      (TieredStore.serve memoryStore) (empty, faultyOver 2 (.bounded 2))
    final.1 1 = some 10 ∧
      (Stack.run (TieredStore.get memoryStore 1) final.2).1 = some (.ok none) := by
  decide +kernel

end Tierstore
