import Tierstore.Discipline
import Tierstore.Lib.Lockstep

/-! The slots that the builder makes. A read-only slot answers writes with an error of its own;
no run ever sees it. -/
namespace Tierstore
open Effects

class IntoBox (E : Type) where
  into : E → BoxError

instance : IntoBox Infallible := ⟨Empty.elim⟩

/-- A tier as either facade calls it: its errors are boxed. -/
structure Boxed (T : Type) where
  inner : T

namespace Boxed
variable {T K V E α : Type} [IntoBox E]

def mapErr (t : Boxed T) (call : T → Except E α × T) : Except BoxError α × Boxed T :=
  let out := call t.inner
  (out.1.mapError IntoBox.into, ⟨out.2⟩)

theorem ok_of_mapError {result : Except E α} {a : α}
    (h : result.mapError IntoBox.into = .ok a) : result = .ok a := by
  cases result with
  | error e => cases h
  | ok b => rw [Except.ok.inj h]

theorem error_of_mapError {result : Except E α} {e : BoxError}
    (h : result.mapError IntoBox.into = .error e) : ∃ source, result = .error source := by
  cases result with
  | error source => exact ⟨source, rfl⟩
  | ok b => cases h

instance [Tier T K V E] : Tier (Boxed T) K V BoxError where
  get t key := t.mapErr fun tier => Tier.get tier key
  exists_ t key := t.mapErr fun tier => Tier.exists_ tier key
  getMany t keys := t.mapErr fun tier => Tier.getMany tier keys
  put t key value := t.mapErr fun tier => Tier.put tier key value
  delete t key := t.mapErr fun tier => Tier.delete tier key
  putMany t entries := t.mapErr fun tier => Tier.putMany tier entries
  deleteMany t keys := t.mapErr fun tier => Tier.deleteMany tier keys

instance [DecidableEq K] [Tier T K V E] [LawfulTier T] : LawfulTier (Boxed T) where
  contents t := contents t.inner
  get_contents t k := LawfulTier.get_contents t.inner k
  get_ok t k a h := LawfulTier.get_ok t.inner k a (ok_of_mapError h)
  exists_contents t k := LawfulTier.exists_contents t.inner k
  exists_ok t k b h := LawfulTier.exists_ok t.inner k b (ok_of_mapError h)
  getMany_contents t ks := LawfulTier.getMany_contents t.inner ks
  getMany_ok t ks vs h := LawfulTier.getMany_ok t.inner ks vs (ok_of_mapError h)
  put_error t k v e h := by
    obtain ⟨source, hsource⟩ := error_of_mapError h
    exact LawfulTier.put_error t.inner k v source hsource
  put_ok t k v d h := LawfulTier.put_ok t.inner k v d (ok_of_mapError h)
  put_displaced t k v d h := LawfulTier.put_displaced t.inner k v d (ok_of_mapError h)
  delete_error t k e h := by
    obtain ⟨source, hsource⟩ := error_of_mapError h
    exact LawfulTier.delete_error t.inner k source hsource
  delete_ok t k b h := LawfulTier.delete_ok t.inner k b (ok_of_mapError h)
  putMany_ok t es d h := LawfulTier.putMany_ok t.inner es d (ok_of_mapError h)
  putMany_displaced t es d h := LawfulTier.putMany_displaced t.inner es d (ok_of_mapError h)
  putMany_contents t es k v h := LawfulTier.putMany_contents t.inner es k v h
  deleteMany_ok t ks bs h := LawfulTier.deleteMany_ok t.inner ks bs (ok_of_mapError h)
  deleteMany_error t ks e k h := by
    obtain ⟨source, hsource⟩ := error_of_mapError h
    exact LawfulTier.deleteMany_error t.inner ks source k hsource

end Boxed

/-- What a slot holds: a tier behind `Adapter`, or the read half of one behind `ReadOnly`. -/
inductive DynTier (T : Type) where
  | adapter (tier : T)
  | readOnly (tier : T)

namespace DynTier
variable {T K V : Type}

def inner : DynTier T → T
  | .adapter tier => tier
  | .readOnly tier => tier

def isAdapter : DynTier T → Bool
  | .adapter _ => true
  | .readOnly _ => false

def put (slot : DynTier T) (tier : T) : DynTier T :=
  match slot with
  | .adapter _ => .adapter tier
  | .readOnly _ => .readOnly tier

@[simp] theorem inner_put (slot : DynTier T) (tier : T) : (slot.put tier).inner = tier := by
  cases slot <;> rfl

@[simp] theorem isAdapter_put (slot : DynTier T) (tier : T) :
    (slot.put tier).isAdapter = slot.isAdapter := by
  cases slot <;> rfl

def tierIsReadOnly : BoxError := "tier is read-only"

def forward {α : Type} (slot : DynTier T) (call : T → Except BoxError α × T) :
    Except BoxError α × DynTier T :=
  let out := call slot.inner
  (out.1, slot.put out.2)

def forwardWrite {α : Type} (slot : DynTier T) (call : T → Except BoxError α × T) :
    Except BoxError α × DynTier T :=
  match slot with
  | .adapter _ => slot.forward call
  | .readOnly _ => (.error tierIsReadOnly, slot)

instance [Tier T K V BoxError] : Tier (DynTier T) K V BoxError where
  get slot key := slot.forward fun tier => Tier.get tier key
  exists_ slot key := slot.forward fun tier => Tier.exists_ tier key
  getMany slot keys := slot.forward fun tier => Tier.getMany tier keys
  put slot key value := slot.forwardWrite fun tier => Tier.put tier key value
  delete slot key := slot.forwardWrite fun tier => Tier.delete tier key
  putMany slot entries := slot.forwardWrite fun tier => Tier.putMany tier entries
  deleteMany slot keys := slot.forwardWrite fun tier => Tier.deleteMany tier keys

/-- Reads, and writes to an adapter, are the inner tier's own. -/
theorem call_eq [Tier T K V BoxError] (slot : DynTier T) (c : TierCall K V)
    (h : c.isWrite = true → slot.isAdapter = true) :
    Tier.call slot c = slot.forward fun tier => Tier.call tier c := by
  cases slot with
  | adapter tier => cases c <;> rfl
  | readOnly tier =>
    cases c with
    | get key => rfl
    | exists_ key => rfl
    | getMany keys => rfl
    | put key value => cases h rfl
    | delete key => cases h rfl
    | putMany entries => cases h rfl
    | deleteMany keys => cases h rfl

end DynTier

/-- A slot before the first call: a facade is a read-only one if and only if the slot is not
writable. -/
structure TierSlot (T : Type) where
  tier : DynTier T
  name : String
  writable : Bool
  honest : writable = tier.isAdapter

structure RouterBuilder (T : Type) where
  tiers : List (TierSlot T)
  policy : Policy

namespace RouterBuilder
variable {T : Type}

def new (policy : Policy) : RouterBuilder T := { tiers := [], policy }

def tier (b : RouterBuilder T) (name : String) (tier : T) : RouterBuilder T :=
  { b with tiers := b.tiers ++ [{ tier := .adapter tier, name, writable := true, honest := rfl }] }

def readOnlyTier (b : RouterBuilder T) (name : String) (tier : T) : RouterBuilder T :=
  { b with
    tiers := b.tiers ++ [{ tier := .readOnly tier, name, writable := false, honest := rfl }] }

def withPolicy (b : RouterBuilder T) (policy : Policy) : RouterBuilder T := { b with policy }

variable (b : RouterBuilder T)

def router : Router b.tiers.length :=
  { writable := fun i => (b.tiers.get i).writable
    name := fun i => (b.tiers.get i).name
    policy := b.policy }

def stack : Stack (DynTier T) b.tiers.length := .build fun i => (b.tiers.get i).tier

def bare : Stack T b.tiers.length := .build fun i => (b.tiers.get i).tier.inner

/-- `none` is the panic over no tiers. -/
def build : Option (Σ n : Nat, Router n × Stack (DynTier T) n) :=
  if b.tiers.isEmpty then none else some ⟨b.tiers.length, b.router, b.stack⟩

end RouterBuilder

structure TierStats where
  name : String
  readOnly : Bool
  hits : UInt64
  misses : UInt64
  errors : UInt64
  puts : UInt64
  deletes : UInt64
  deriving DecidableEq, Repr

namespace Router
variable {T : Type} {n : Nat} (r : Router n) (s : Stack T n)

def tierStats (i : Fin n) : TierStats :=
  { name := r.name i
    readOnly := !r.writable i
    hits := (s i).counters.hits
    misses := (s i).counters.misses
    errors := (s i).counters.errors
    puts := (s i).counters.puts
    deletes := (s i).counters.deletes }

def stats : List TierStats := List.ofFn (r.tierStats s)

theorem stats_congr {T' : Type} {s' : Stack T' n}
    (h : ∀ i, (s i).counters = (s' i).counters) : r.stats s = r.stats s' := by
  refine congrArg List.ofFn (funext fun i => ?_)
  simp only [tierStats, h]

end Router

/-! ## Calls on a cache spare the read-only tiers -/
namespace TieredCache
variable {n : Nat} {T K V E L : Type} (r : Router n) (singleFlight : Bool)

def PermitsCache : CacheQuery n K V → Prop
  | .tier q => r.Permits q
  | .acquire _ => True
  | .release _ => True

def PermitsLoad : LoadQuery n K V L → Prop
  | .cache q => PermitsCache r q
  | .load _ _ => True

abbrev Spares {α : Type} (p : LoadM n K V E L α) : Prop :=
  p.Safe (PermitsLoad r) (fun _ _ => True) fun _ => True

abbrev SparesCache {α : Type} (p : CacheM n K V E α) : Prop :=
  p.Safe (PermitsCache r) (fun _ _ => True) fun _ => True

variable {r}

theorem spares_lift {α : Type} {p : RouterM n K V E α} (h : Router.Asks r.Permits p) :
    SparesCache r (lift p) := by
  refine Program.Safe.embed ?_ ?_ h
  · exact fun _ hq => hq
  · exact fun _ _ _ => trivial

theorem spares_liftCache {α : Type} {p : CacheM n K V E α} (h : SparesCache r p) :
    Spares r (liftCache p : LoadM n K V E L α) := by
  refine Program.Safe.embed ?_ ?_ h
  · exact fun _ hq => hq
  · exact fun _ _ _ => trivial

variable (r)

theorem lookupGated_spares (key : K) :
    SparesCache r (lookupGated r singleFlight key : CacheM n K V E _) := by
  have hread : SparesCache r (lift (lookup r key) : CacheM n K V E _) :=
    spares_lift (r.execute_permits (.readOne key))
  unfold lookupGated
  split
  · exact hread
  · exact ⟨trivial, fun _ _ => hread.bind fun _ _ => ⟨trivial, fun _ _ => trivial⟩⟩

theorem probe_spares (key : K) : Spares r (probe r key : LoadM n K V E L _) := by
  refine (spares_liftCache (spares_lift (r.get_permits key))).bind fun a _ => ?_
  split <;> trivial

theorem loadAndFill_spares (key : K) (load : Except L V) :
    Spares r (loadAndFill r key load : LoadM n K V E L _) := by
  refine ⟨trivial, fun a _ => ?_⟩
  cases a with
  | error error => trivial
  | ok value =>
    exact (spares_liftCache (spares_lift (r.put_fills key value).permitted)).bind fun _ _ => trivial

theorem getOrLoad_spares (key : K) (load : Except L V) :
    Spares r (getOrLoad r singleFlight key load : LoadM n K V E L _) := by
  refine (probe_spares r key).bind fun a _ => ?_
  cases a with
  | some value => trivial
  | none =>
    dsimp only
    split
    · exact loadAndFill_spares r key load
    · refine ⟨trivial, fun _ _ => (probe_spares r key).bind fun a _ => ?_⟩
      cases a with
      | some value => exact ⟨trivial, fun _ _ => trivial⟩
      | none => exact (loadAndFill_spares r key load).bind fun _ _ => ⟨trivial, fun _ _ => trivial⟩

theorem execute_spares (c : ServiceCall K V L) :
    Spares r (execute r singleFlight c : LoadM n K V E L _) := by
  cases c with
  | router c => exact spares_liftCache (spares_lift (r.execute_permits c))
  | get key =>
    exact spares_liftCache ((lookupGated_spares r singleFlight key).bind fun _ _ => trivial)
  | lookup key => exact spares_liftCache (lookupGated_spares r singleFlight key)
  | getOrLoad key load => exact getOrLoad_spares r singleFlight key load

/-! ## With and without the facades -/

structure Bared (r : Router n) (s : Shared (DynTier T) K n) (s' : Shared T K n) : Prop where
  gates : s.gates = s'.gates
  inner : ∀ i, (s.stack i).tier.inner = (s'.stack i).tier
  counters : ∀ i, (s.stack i).counters = (s'.stack i).counters
  facade : ∀ i, (s.stack i).tier.isAdapter = r.writable i

variable {r} [Tier T K V BoxError]

theorem Bared.exec {s : Shared (DynTier T) K n} {s' : Shared T K n} (h : Bared r s s')
    {q : Query n K V} (hq : r.Permits q) :
    (Stack.exec q s.stack).1 = (Stack.exec q s'.stack).1 ∧
      Bared r { s with stack := (Stack.exec q s.stack).2 }
        { s' with stack := (Stack.exec q s'.stack).2 } := by
  have hcall := (s.stack q.1).tier.call_eq q.2 fun hwrite => (h.facade q.1).trans (hq hwrite)
  have hans : (Stack.exec q s.stack).1 = (Stack.exec q s'.stack).1 := by
    rw [Stack.exec_answer, Stack.exec_answer, hcall, DynTier.forward, h.inner]
  refine ⟨hans, ⟨h.gates, fun i => ?_, fun i => ?_, fun i => ?_⟩⟩
  · by_cases hi : i = q.1
    · subst hi
      simp only [Stack.exec_tier, hcall, DynTier.forward, DynTier.inner_put, h.inner]
    · simp only [Stack.exec_other q _ hi, h.inner]
  · by_cases hi : i = q.1
    · subst hi
      rw [Stack.exec_answer, Stack.exec_answer] at hans
      simp only [Stack.exec, Function.update_self, hans, h.counters]
    · simp only [Stack.exec_other q _ hi, h.counters]
  · by_cases hi : i = q.1
    · subst hi
      simp only [Stack.exec_tier, hcall, DynTier.forward, DynTier.isAdapter_put, h.facade]
    · simp only [Stack.exec_other q _ hi, h.facade]

variable [DecidableEq K]

theorem alike_bare :
    Pool.Alike (execLoad (T := DynTier T) (L := L)) (execLoad (T := T)) (Bared r)
      (PermitsLoad r : LoadQuery n K V L → Prop) := by
  intro q s s' h hq
  cases q with
  | load key result => exact Or.inr ⟨result, s, s', rfl, rfl, h⟩
  | cache q =>
    cases q with
    | tier q =>
      obtain ⟨hans, hnext⟩ := h.exec hq
      refine Or.inr ⟨_, _, _, rfl, ?_, hnext⟩
      rw [hans]
      rfl
    | acquire key =>
      by_cases hheld : key ∈ s.gates
      · have hheld' : key ∈ s'.gates := h.gates ▸ hheld
        exact Or.inl ⟨by simp [execLoad, TieredCache.exec, hheld],
          by simp [execLoad, TieredCache.exec, hheld']⟩
      · have hheld' : key ∉ s'.gates := h.gates ▸ hheld
        refine Or.inr ⟨(), { s with gates := key :: s.gates }, { s' with gates := key :: s'.gates },
          by simp [execLoad, TieredCache.exec, hheld], by simp [execLoad, TieredCache.exec, hheld'],
          ⟨by rw [h.gates], h.inner, h.counters, h.facade⟩⟩
    | release key =>
      exact Or.inr ⟨(), _, _, rfl, rfl, ⟨by simp only [h.gates], h.inner, h.counters, h.facade⟩⟩

/-! ## What becomes of a read-only tier -/

/-- Tier `i` has taken no write: its counters say so, and it shows what it showed. -/
structure Spared [LawfulTier T] (i : Fin n) (s₀ s : Stack T n) : Prop where
  puts : (s i).counters.puts = (s₀ i).counters.puts
  deletes : (s i).counters.deletes = (s₀ i).counters.deletes
  held : s.held i = s₀.held i

omit [DecidableEq K] in
theorem record_read {E : Type} {c : TierCall K V} (h : c.isWrite = false) (a : Except E c.Output)
    (counters : Counters) : (Counters.record c a counters).puts = counters.puts ∧
      (Counters.record c a counters).deletes = counters.deletes := by
  cases c with
  | get key =>
    cases a with
    | error e => exact ⟨rfl, rfl⟩
    | ok found => cases found <;> exact ⟨rfl, rfl⟩
  | exists_ key =>
    cases a with
    | error e => exact ⟨rfl, rfl⟩
    | ok found => cases found <;> exact ⟨rfl, rfl⟩
  | getMany keys => cases a <;> exact ⟨rfl, rfl⟩
  | put key value => cases h
  | delete key => cases h
  | putMany entries => cases h
  | deleteMany keys => cases h

omit [Tier T K V BoxError] in
theorem contents_read {E : Type} [Tier T K V E] [LawfulTier T] {c : TierCall K V}
    (h : c.isWrite = false) (t : T) : contents (Tier.call t c).2 = contents t := by
  cases c with
  | get key => exact LawfulTier.get_contents t key
  | exists_ key => exact LawfulTier.exists_contents t key
  | getMany keys => exact LawfulTier.getMany_contents t keys
  | put key value => cases h
  | delete key => cases h
  | putMany entries => cases h
  | deleteMany keys => cases h

theorem Spared.exec [LawfulTier T] {i : Fin n} (hi : r.writable i = false) {s₀ s : Stack T n}
    (h : Spared i s₀ s) {q : Query n K V} (hq : r.Permits q) :
    Spared i s₀ (Stack.exec q s).2 := by
  by_cases hiq : i = q.1
  · have hread : q.2.isWrite = false := by
      cases hwrite : q.2.isWrite with
      | false => rfl
      | true =>
        have hw := hq hwrite
        rw [← hiq, hi] at hw
        cases hw
    subst hiq
    obtain ⟨hputs, hdeletes⟩ := record_read hread (Stack.exec q s).1 (s q.1).counters
    refine ⟨?_, ?_, ?_⟩
    · rw [← h.puts, ← hputs]
      simp [Stack.exec]
    · rw [← h.deletes, ← hdeletes]
      simp [Stack.exec]
    · rw [Stack.held_exec, contents_read hread]
      exact h.held
  · have hsame := Stack.exec_other q s hiq
    exact ⟨by rw [hsame, h.puts], by rw [hsame, h.deletes],
      (Stack.held_congr hsame).trans h.held⟩

/-- The facade of a read-only tier is never written. However many calls on a router, or on a
cache over it, run at once: they return what they return over the bare tiers, every write they
make goes to a writable tier, and a read-only tier keeps its entries and counts no write. -/
theorem readOnly_never_written {T K V L ι : Type} [DecidableEq K] [Tier T K V BoxError]
    [LawfulTier T] [DecidableEq ι] (b : RouterBuilder T) (singleFlight : Bool)
    (calls : ι → ServiceCall K V L) (schedule : List ι) :
    let c := Pool.run execLoad (startService b.router singleFlight calls b.stack) schedule
    let bare := Pool.run execLoad (startService b.router singleFlight calls b.bare) schedule
    c.threads = bare.threads ∧ (∀ i, (c.shared.stack i).tier.inner = (bare.shared.stack i).tier) ∧
      b.router.stats c.shared.stack = b.router.stats bare.shared.stack ∧
      (∀ e ∈ c.log, ∀ q, e.2 = .cache (.tier q) → q.2.isWrite = true →
        (b.tiers.get q.1).tier.isAdapter = true) ∧
      ∀ i, (b.tiers.get i).tier.isAdapter = false → Spared i b.bare bare.shared.stack := by
  intro c bare
  have hcalls := fun i => execute_spares (E := BoxError) b.router singleFlight (calls i)
  have hstart : Bared b.router { stack := b.stack, gates := ([] : List K) }
      { stack := b.bare, gates := [] } :=
    ⟨rfl, fun _ => rfl, fun _ => rfl, fun i => (b.tiers.get i).honest.symm⟩
  have hlock : Pool.Lockstep (Bared b.router) c bare :=
    Pool.lockstep_run alike_bare hcalls hstart schedule
  refine ⟨hlock.threads, hlock.shared.inner, ?_, ?_, ?_⟩
  · exact b.router.stats_congr _ hlock.shared.counters
  · rintro e he q hq hwrite
    have hok := (Pool.asked_run execLoad hcalls { stack := b.stack, gates := [] }
      schedule).1 e he
    rw [hq] at hok
    exact (b.tiers.get q.1).honest.symm.trans (hok hwrite)
  · intro i hi
    have hwritable : b.router.writable i = false := (b.tiers.get i).honest.trans hi
    refine Pool.keeps_of_safe
      (fun s : Shared T K b.tiers.length => Spared i b.bare s.stack) ?_ hcalls
      ⟨rfl, rfl, rfl⟩ schedule
    rintro q s a s' hs hq hexec
    cases q with
    | load key result =>
      cases hexec
      exact hs
    | cache q =>
      cases q with
      | tier q =>
        cases hexec
        exact hs.exec hwritable hq
      | acquire key =>
        simp only [execLoad, TieredCache.exec] at hexec
        split at hexec
        · cases hexec
        · cases hexec
          exact hs
      | release key =>
        cases hexec
        exact hs

def overOrigin : RouterBuilder (Boxed (MemoryTier Nat Nat)) :=
  ((RouterBuilder.new defaultPolicy).tier "memory" ⟨.unbounded⟩).readOnlyTier "origin"
    ⟨(Tier.put MemoryTier.unbounded 1 10).2⟩

def getPutDelete (i : Fin 3) : ServiceCall Nat Nat Unit :=
  if i.val = 0 then .get 1 else if i.val = 1 then .router (.put 2 20) else .router (.delete 1)

/-- The get promotes the origin's entry, and the delete takes the copy but not the entry. -/
theorem readOnly_never_written_memory :
    let c := Pool.run execLoad
      (startService overOrigin.router true getPutDelete overOrigin.stack) [0, 0, 1, 0, 0, 2, 0]
    let bare := Pool.run execLoad
      (startService overOrigin.router true getPutDelete overOrigin.bare) [0, 0, 1, 0, 0, 2, 0]
    (∀ i, (c.threads i).Done) ∧ c.threads = bare.threads ∧
      bare.shared.stack.held ⟨0, by decide⟩ 1 = none ∧
      bare.shared.stack.held ⟨1, by decide⟩ 1 = some 10 := by
  intro c bare
  obtain ⟨hthreads, -, -, -, hspared⟩ := readOnly_never_written overOrigin true getPutDelete
    [0, 0, 1, 0, 0, 2, 0]
  exact ⟨by decide +kernel, hthreads, by decide +kernel,
    congrFun (hspared ⟨1, by decide⟩ rfl).held 1⟩

/-- One tier and an origin under it: only the first is ever written. -/
example : (((RouterBuilder.new Policy.default).tier "memory" 0).readOnlyTier "origin" 1).build.map
    (fun built => (List.finRange built.1).map built.2.1.writable) = some [true, false] := by decide

end TieredCache
end Tierstore
