import Tierstore.Memory
import Tierstore.Stack

/-! A tier whose single calls fail on a schedule without reaching the tier underneath. Its
batch methods are the looping defaults, so a batch can fail half way. -/
namespace Tierstore
open Overlay

structure FlakyTier (T : Type) where
  inner : T
  calls : Nat
  fails : Nat → Bool

namespace FlakyTier
variable {T K V E α : Type}

/-- One call through the fault: `none` is the injected failure. -/
def attempt (f : T → Except E α × T) (t : FlakyTier T) : Except (Option E) α × FlakyTier T :=
  if t.fails t.calls then (.error none, { t with calls := t.calls + 1 })
  else
    let out := f t.inner
    (out.1.mapError some, { t with inner := out.2, calls := t.calls + 1 })

theorem attempt_ok {f : T → Except E α × T} {t : FlakyTier T} {a : α}
    (h : (attempt f t).1 = .ok a) :
    (f t.inner).1 = .ok a ∧ (attempt f t).2.inner = (f t.inner).2 := by
  unfold attempt at h ⊢
  split at h
  · cases h
  · next hf =>
    rw [if_neg hf]
    refine ⟨?_, rfl⟩
    generalize f t.inner = out at h
    obtain ⟨r, t'⟩ := out
    cases r with
    | error e => cases h
    | ok b => exact congrArg Except.ok (Except.ok.inj h)

theorem attempt_error {f : T → Except E α × T} {t : FlakyTier T} {e : Option E}
    (h : (attempt f t).1 = .error e) :
    (attempt f t).2.inner = t.inner ∨
      ∃ e', (f t.inner).1 = .error e' ∧ (attempt f t).2.inner = (f t.inner).2 := by
  unfold attempt at h ⊢
  split at h
  · next hf =>
    rw [if_pos hf]
    exact Or.inl rfl
  · next hf =>
    rw [if_neg hf]
    generalize f t.inner = out at h
    obtain ⟨r, t'⟩ := out
    cases r with
    | error e' => exact Or.inr ⟨e', rfl, rfl⟩
    | ok b => cases h

instance [Tier T K V E] : Tier (FlakyTier T) K V (Option E) where
  get t k := attempt (fun t => Tier.get t k) t
  exists_ t k := attempt (fun t => Tier.exists_ t k) t
  getMany t ks := getManyDefault (fun t k => attempt (fun t => Tier.get t k) t) t ks
  put t k v := attempt (fun t => Tier.put t k v) t
  delete t k := attempt (fun t => Tier.delete t k) t
  putMany t es := putManyDefault (fun t k v => attempt (fun t => Tier.put t k v) t) t es
  deleteMany t ks := deleteManyDefault (fun t k => attempt (fun t => Tier.delete t k) t) t ks

variable [DecidableEq K] [Tier T K V E] [LawfulTier T]

def held (t : FlakyTier T) : K → Option V := contents t.inner

theorem attempt_held {f : T → Except E α × T} {t : FlakyTier T}
    (hf : contents (f t.inner).2 = contents t.inner) : held (attempt f t).2 = held t := by
  cases h : (attempt f t).1 with
  | ok a => rw [held, (attempt_ok h).2, hf, held]
  | error e =>
    obtain hsame | ⟨e', -, hinner⟩ := attempt_error h
    · rw [held, hsame, held]
    · rw [held, hinner, hf, held]

theorem held_get (t : FlakyTier T) (k : K) :
    held (attempt (fun t => Tier.get t k) t).2 = held t :=
  attempt_held (LawfulTier.get_contents t.inner k)

theorem get_ok (t : FlakyTier T) (k : K) (a : Option V)
    (h : (attempt (fun t : T => Tier.get t k) t).1 = .ok a) : a = held t k :=
  LawfulTier.get_ok t.inner k a (attempt_ok h).1

theorem put_error (t : FlakyTier T) (k : K) (v : V) (e : Option E)
    (h : (attempt (fun t : T => Tier.put t k v) t).1 = .error e) :
    held (attempt (fun t => Tier.put t k v) t).2 = held t := by
  obtain hsame | ⟨e', he, hinner⟩ := attempt_error h
  · rw [held, hsame, held]
  · rw [held, hinner, LawfulTier.put_error t.inner k v e' he, held]

theorem put_ok (t : FlakyTier T) (k : K) (v : V) (d : Displaced K V)
    (h : (attempt (fun t : T => Tier.put t k v) t).1 = .ok d) :
    atop (held (attempt (fun t => Tier.put t k v) t).2) (latest d) =
      write (held t) [(k, v)] := by
  obtain ⟨hok, hinner⟩ := attempt_ok h
  rw [held, hinner]
  exact LawfulTier.put_ok t.inner k v d hok

/-- What a put leaves behind, failed or not. -/
theorem put_held (t : FlakyTier T) (k : K) (v : V) (x : K) (u : V)
    (h : held (attempt (fun t => Tier.put t k v) t).2 x = some u) :
    (x, u) = (k, v) ∨ held t x = some u := by
  cases hres : (attempt (fun t : T => Tier.put t k v) t).1 with
  | ok d =>
    refine write_singleton_cases ?_
    rw [← put_ok t k v d hres]
    exact atop_of_some h _
  | error e => exact Or.inr (by rwa [put_error t k v e hres] at h)

theorem put_displaced (t : FlakyTier T) (k : K) (v : V) (d : Displaced K V)
    (h : (attempt (fun t : T => Tier.put t k v) t).1 = .ok d) :
    ∀ e ∈ d, write (held t) [(k, v)] e.1 = some e.2 :=
  LawfulTier.put_displaced t.inner k v d (attempt_ok h).1

theorem delete_error (t : FlakyTier T) (k : K) (e : Option E)
    (h : (attempt (fun t : T => Tier.delete t k) t).1 = .error e) :
    held (attempt (fun t => Tier.delete t k) t).2 = held t := by
  obtain hsame | ⟨e', he, hinner⟩ := attempt_error h
  · rw [held, hsame, held]
  · rw [held, hinner, LawfulTier.delete_error t.inner k e' he, held]

theorem delete_ok (t : FlakyTier T) (k : K) (b : Bool)
    (h : (attempt (fun t : T => Tier.delete t k) t).1 = .ok b) :
    held (attempt (fun t => Tier.delete t k) t).2 = erase (held t) k := by
  obtain ⟨hok, hinner⟩ := attempt_ok h
  rw [held, hinner]
  exact LawfulTier.delete_ok t.inner k b hok

theorem delete_held (t : FlakyTier T) (k x : K) :
    held (attempt (fun t => Tier.delete t k) t).2 x = held t x ∨
      x = k ∧ held (attempt (fun t => Tier.delete t k) t).2 x = none := by
  cases hres : (attempt (fun t : T => Tier.delete t k) t).1 with
  | ok b =>
    rw [delete_ok t k b hres]
    by_cases hx : x = k
    · exact Or.inr ⟨hx, by simp [erase, hx]⟩
    · exact Or.inl (by simp [erase, hx])
  | error e => exact Or.inl (by rw [delete_error t k e hres])

instance : LawfulTier (FlakyTier T) where
  contents := held
  get_contents := held_get
  get_ok := get_ok
  exists_contents t k := attempt_held (LawfulTier.exists_contents t.inner k)
  exists_ok t k b h := LawfulTier.exists_ok t.inner k b (attempt_ok h).1
  getMany_contents t ks := getManyDefault_held held_get t ks
  getMany_ok t ks vs h := getManyDefault_ok held_get get_ok t ks vs h
  put_error := put_error
  put_ok := put_ok
  put_displaced := put_displaced
  delete_error := delete_error
  delete_ok := delete_ok
  putMany_ok t es d h := putManyDefault_ok put_ok t es d h
  putMany_displaced t es d h :=
    putManyDefault_displaced put_held
      (fun t k v d h e he => write_singleton_cases (put_displaced t k v d h e he)) t es d h
  putMany_contents t es k v h := putManyDefault_contents put_held t es k v h
  deleteMany_ok t ks bs h := deleteManyDefault_ok delete_ok t ks bs h
  deleteMany_error t ks _ k _ := deleteManyDefault_keeps delete_held t ks k

end FlakyTier

/-- One slot that rejects call number `c`, over `bottom`. -/
def faultyOver (c : Nat) (bottom : MemoryTier Nat Nat) : Stack (FlakyTier (MemoryTier Nat Nat)) 2 :=
  Stack.build fun i =>
    if i.val = 0 then { inner := .oneSlot, calls := 0, fails := fun call => call == c }
    else { inner := bottom, calls := 0, fails := fun _ => false }

def overFaulty (c : Nat) : Stack (FlakyTier (MemoryTier Nat Nat)) 2 :=
  Stack.build fun i =>
    if i.val = 0 then { inner := .oneSlot, calls := 0, fails := fun _ => false }
    else { inner := .unbounded, calls := 0, fails := fun call => call == c }

end Tierstore
