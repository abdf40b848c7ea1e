import Mathlib.Data.Set.Card
import Mathlib.Logic.Function.Basic

/-! Counting semaphores of asynchronous tasks. A release hands every registered waker to the
task that releases, which wakes them one by one; the woken tasks race again. -/
namespace Semaphores

/-! ## Counting preimages -/
section Fiber
variable {R A : Type}

def fiber (f : R → A) (a : A) : Set R := {r | f r = a}

theorem fiber_of_iff {f f' : R → A} {a : A} (h : ∀ r, f' r = a ↔ f r = a) :
    fiber f' a = fiber f a := Set.ext h

variable [DecidableEq R] {f : R → A} {r : R} {a b : A}

theorem fiber_update (hr : f r ≠ a) (hb : b ≠ a) : fiber (Function.update f r b) a = fiber f a := by
  refine fiber_of_iff fun x => ?_
  by_cases hx : x = r
  · subst hx
    simp [hr, hb]
  · rw [Function.update_of_ne hx]

theorem encard_fiber_gain (hr : f r ≠ a) :
    (fiber (Function.update f r a) a).encard = (fiber f a).encard + 1 := by
  have hinsert : fiber (Function.update f r a) a = insert r (fiber f a) := by
    ext x
    by_cases hx : x = r <;> simp [fiber, Function.update_apply, hx]
  rw [hinsert, Set.encard_insert_of_notMem (show r ∉ fiber f a from hr)]

theorem encard_fiber_loss (hr : f r = a) (hb : b ≠ a) :
    (fiber (Function.update f r b) a).encard + 1 = (fiber f a).encard := by
  have herase : fiber (Function.update f r b) a = fiber f a \ {r} := by
    ext x
    by_cases hx : x = r <;> simp [fiber, Function.update_apply, hx, hb]
  rw [herase, Set.encard_sdiff_singleton_add_one (show r ∈ fiber f a from hr)]

end Fiber

/-! ## Wakers -/

/-- Wakers and the tasks they wake. `willWake` may miss that two wakers wake the same task. -/
structure Wakers (W T : Type) where
  task : W → T
  willWake : W → W → Bool
  sound : ∀ a b, willWake a b = true → task a = task b

/-- How a task stands to a semaphore. It is asleep once an attempt has failed, until a waker
of its own is woken. -/
inductive Stage (W : Type) where
  | awake
  | asleep (last : W)
  | holds
  | wakes (left : List W)

structure Hall (ι W : Type) where
  free : Nat
  registered : List W
  stage : ι → Stage W

namespace Wakers
variable {W T : Type} (wk : Wakers W T)

def register (ws : List W) (w : W) : List W :=
  if ws.any fun x => wk.willWake x w then ws else ws ++ [w]

theorem mem_register {ws : List W} {w x : W} (h : x ∈ ws) : x ∈ wk.register ws w := by
  unfold register
  split
  · exact h
  · exact List.mem_append_left _ h

theorem task_register (ws : List W) (w : W) : ∃ x ∈ wk.register ws w, wk.task x = wk.task w := by
  unfold register
  split
  · next hany =>
    obtain ⟨x, hx, hwake⟩ := List.any_eq_true.1 hany
    exact ⟨x, hx, wk.sound x w hwake⟩
  · exact ⟨w, by simp, rfl⟩

variable [DecidableEq T]

def rouse (t : T) : Stage W → Stage W
  | .asleep w => if wk.task w = t then .awake else .asleep w
  | st => st

theorem rouse_asleep {t : T} {st : Stage W} {w : W} (h : wk.rouse t st = .asleep w) :
    st = .asleep w ∧ wk.task w ≠ t := by
  cases st with
  | asleep x =>
    simp only [rouse] at h
    split at h
    · cases h
    · next hne =>
      cases h
      exact ⟨rfl, hne⟩
  | awake => cases h
  | holds => cases h
  | wakes left => cases h

theorem rouse_holds {t : T} {st : Stage W} : wk.rouse t st = .holds ↔ st = .holds := by
  cases st with
  | asleep x => simp only [rouse]; split <;> simp
  | awake => simp [rouse]
  | holds => simp [rouse]
  | wakes left => simp [rouse]

theorem rouse_wakes {t : T} {st : Stage W} {left : List W} :
    wk.rouse t st = .wakes left ↔ st = .wakes left := by
  cases st with
  | asleep x => simp only [rouse]; split <;> simp
  | awake => simp [rouse]
  | holds => simp [rouse]
  | wakes left => simp [rouse]

end Wakers

namespace Hall
variable {ι W T : Type}

def Idle (h : Hall ι W) (i : ι) : Prop := h.stage i = .awake ∨ ∃ w, h.stage i = .asleep w

theorem Idle.ne_holds {h : Hall ι W} {i : ι} (hi : h.Idle i) : h.stage i ≠ .holds := by
  obtain hi | ⟨w, hi⟩ := hi <;> simp [hi]

theorem Idle.ne_wakes {h : Hall ι W} {i : ι} (hi : h.Idle i) (left : List W) :
    h.stage i ≠ .wakes left := by
  obtain hi | ⟨w, hi⟩ := hi <;> simp [hi]

/-- Every task asleep has a waker of its own registered, or among those still to be woken. -/
def Heard (wk : Wakers W T) (registered : List W) (stage : ι → Stage W) : Prop :=
  ∀ i w, stage i = .asleep w → (∃ x ∈ registered, wk.task x = wk.task w) ∨
    ∃ j left, stage j = .wakes left ∧ ∃ x ∈ left, wk.task x = wk.task w

structure Sound (wk : Wakers W T) (limit : Nat) (h : Hall ι W) : Prop where
  count : (fiber h.stage .holds).encard + h.free = limit
  quiet : 0 < h.free → h.registered = []
  heard : Heard wk h.registered h.stage

theorem Sound.start (wk : Wakers W T) (limit : Nat) :
    Sound wk limit (ι := ι) { free := limit, registered := [], stage := fun _ => .awake } where
  count := by simp [fiber]
  quiet _ := rfl
  heard := fun _ _ h => by cases h

/-- While a permit is free, whoever is asleep is about to be woken. -/
theorem Sound.waking {wk : Wakers W T} {limit : Nat} {h : Hall ι W} (hs : h.Sound wk limit)
    (hfree : 0 < h.free) {i : ι} {w : W} (hi : h.stage i = .asleep w) :
    ∃ j left, h.stage j = .wakes left ∧ ∃ x ∈ left, wk.task x = wk.task w := by
  obtain ⟨x, hx, -⟩ | hwoken := hs.heard i w hi
  · rw [hs.quiet hfree] at hx
    cases hx
  · exact hwoken

theorem Sound.free_lt {wk : Wakers W T} {limit : Nat} {h : Hall ι W} (hs : h.Sound wk limit)
    {i : ι} (hi : h.stage i = .holds) : h.free < limit := by
  have hone : 1 ≤ (fiber h.stage .holds).encard := Set.one_le_encard_iff_nonempty.2 ⟨i, hi⟩
  have hle : (1 : ℕ∞) + h.free ≤ limit := (add_le_add_left hone _).trans hs.count.le
  have hcast : 1 + h.free ≤ limit := by exact_mod_cast hle
  omega

/-- Nobody else holds the only permit. -/
theorem Sound.holder_unique {wk : Wakers W T} {h : Hall ι W} (hs : h.Sound wk 1) {i j : ι}
    (hi : h.stage i = .holds) (hj : h.stage j = .holds) : i = j := by
  have hle : (fiber h.stage .holds).encard ≤ 1 := le_self_add.trans hs.count.le
  exact Set.encard_le_one_iff.1 hle i j hi hj

variable [DecidableEq ι]

section Heard
variable {wk : Wakers W T} {registered : List W} {stage : ι → Stage W} {i : ι} {st : Stage W}

/-- A task that was waking nobody falls asleep, or does something else, with a waker of its
own registered. -/
theorem Heard.update (h : Heard wk registered stage) {registered' : List W}
    (hsub : ∀ x ∈ registered, x ∈ registered')
    (hleft : ∀ left, stage i = .wakes left → left = [])
    (hst : ∀ w, st = .asleep w → ∃ x ∈ registered', wk.task x = wk.task w) :
    Heard wk registered' (Function.update stage i st) := by
  intro j w hj
  by_cases hji : j = i
  · subst hji
    rw [Function.update_self] at hj
    exact Or.inl (hst w hj)
  · rw [Function.update_of_ne hji] at hj
    obtain ⟨x, hx, htask⟩ | ⟨m, left, hm, x, hx, htask⟩ := h j w hj
    · exact Or.inl ⟨x, hsub x hx, htask⟩
    · by_cases hmi : m = i
      · subst hmi
        rw [hleft left hm] at hx
        cases hx
      · exact Or.inr ⟨m, left, by rw [Function.update_of_ne hmi, hm], x, hx, htask⟩

theorem Heard.release (h : Heard wk registered stage) (hi : stage i = .holds) :
    Heard wk [] (Function.update stage i (.wakes registered)) := by
  intro j w hj
  have hji : j ≠ i := by
    rintro rfl
    simp at hj
  rw [Function.update_of_ne hji] at hj
  obtain ⟨x, hx, htask⟩ | ⟨m, left, hm, hwoken⟩ := h j w hj
  · exact Or.inr ⟨i, registered, Function.update_self .., x, hx, htask⟩
  · have hmi : m ≠ i := by
      rintro rfl
      rw [hi] at hm
      cases hm
    exact Or.inr ⟨m, left, by rw [Function.update_of_ne hmi, hm], hwoken⟩

variable [DecidableEq T]

omit [DecidableEq ι] in
theorem Heard.rouse (h : Heard wk registered stage) (t : T) :
    Heard wk registered fun j => wk.rouse t (stage j) := by
  intro j w hj
  obtain hreg | ⟨m, left, hm, hwoken⟩ := h j w (wk.rouse_asleep hj).1
  · exact Or.inl hreg
  · exact Or.inr ⟨m, left, wk.rouse_wakes.2 hm, hwoken⟩

theorem Heard.wake (h : Heard wk registered stage) {w : W} {left : List W}
    (hi : stage i = .wakes (w :: left)) :
    Heard wk registered
      (Function.update (fun j => wk.rouse (wk.task w) (stage j)) i (.wakes left)) := by
  intro j v hj
  have hji : j ≠ i := by
    rintro rfl
    simp at hj
  rw [Function.update_of_ne hji] at hj
  obtain ⟨hj, hne⟩ := wk.rouse_asleep hj
  obtain hreg | ⟨m, rest, hm, x, hx, htask⟩ := h j v hj
  · exact Or.inl hreg
  · by_cases hmi : m = i
    · subst hmi
      rw [hi] at hm
      cases hm
      obtain rfl | hx := List.mem_cons.1 hx
      · exact absurd htask.symm hne
      · exact Or.inr ⟨m, left, Function.update_self .., x, hx, htask⟩
    · exact Or.inr ⟨m, rest, by rw [Function.update_of_ne hmi]; exact wk.rouse_wakes.2 hm,
        x, hx, htask⟩

end Heard

variable [DecidableEq T]

inductive Step (wk : Wakers W T) (h : Hall ι W) : Hall ι W → Prop where
  | take (i : ι) : h.Idle i → 0 < h.free →
      Step wk h { h with free := h.free - 1, stage := Function.update h.stage i .holds }
  | wait (i : ι) (w : W) : h.Idle i → h.free = 0 →
      Step wk h { h with registered := wk.register h.registered w,
                         stage := Function.update h.stage i (.asleep w) }
  | rise (i : ι) : h.Idle i → Step wk h { h with stage := Function.update h.stage i .awake }
  | release (i : ι) : h.stage i = .holds →
      Step wk h { free := h.free + 1, registered := [],
                  stage := Function.update h.stage i (.wakes h.registered) }
  | wake (i : ι) (w : W) (left : List W) : h.stage i = .wakes (w :: left) →
      Step wk h { h with stage := Function.update (fun j => wk.rouse (wk.task w) (h.stage j)) i
                                    (.wakes left) }
  | rouse (t : T) : Step wk h { h with stage := fun j => wk.rouse t (h.stage j) }
  | leave (i : ι) : h.stage i = .wakes [] →
      Step wk h { h with stage := Function.update h.stage i .awake }

theorem Sound.step {wk : Wakers W T} {limit : Nat} {h h' : Hall ι W} (hs : h.Sound wk limit)
    (hstep : Step wk h h') : h'.Sound wk limit := by
  have hcount := hs.count
  cases hstep with
  | take i hi hfree =>
    refine ⟨?_, fun hpos => hs.quiet hfree,
      hs.heard.update (fun x hx => hx) (fun left hl => absurd hl (hi.ne_wakes left)) (by simp)⟩
    obtain ⟨m, hm⟩ : ∃ m, h.free = m + 1 := ⟨h.free - 1, by omega⟩
    rw [hm, Nat.cast_add, Nat.cast_one] at hcount
    rw [encard_fiber_gain hi.ne_holds, hm, Nat.add_sub_cancel, ← hcount, add_assoc, add_comm 1]
  | wait i w hi hfree =>
    refine ⟨?_, fun hpos => absurd hfree (Nat.ne_of_gt hpos), hs.heard.update
      (fun x hx => wk.mem_register hx) (fun left hl => absurd hl (hi.ne_wakes left)) ?_⟩
    · rw [fiber_update hi.ne_holds (by simp)]
      exact hcount
    · rintro v ⟨⟩
      exact wk.task_register h.registered w
  | rise i hi =>
    refine ⟨?_, hs.quiet, hs.heard.update (fun x hx => hx)
      (fun left hl => absurd hl (hi.ne_wakes left)) (by simp)⟩
    rw [fiber_update hi.ne_holds (by simp)]
    exact hcount
  | release i hi =>
    refine ⟨?_, fun _ => rfl, hs.heard.release hi⟩
    rw [← encard_fiber_loss (b := .wakes h.registered) hi (by simp), add_assoc,
      add_comm 1] at hcount
    rw [Nat.cast_add, Nat.cast_one]
    exact hcount
  | wake i w left hi =>
    refine ⟨?_, hs.quiet, hs.heard.wake hi⟩
    rw [fiber_update (by rw [ne_eq, wk.rouse_holds]; simp [hi]) (by simp),
      fiber_of_iff fun j => wk.rouse_holds]
    exact hcount
  | rouse t =>
    refine ⟨?_, hs.quiet, hs.heard.rouse t⟩
    rw [fiber_of_iff fun j => wk.rouse_holds]
    exact hcount
  | leave i hi =>
    refine ⟨?_, hs.quiet, hs.heard.update (fun x hx => hx) (fun left hl => ?_) (by simp)⟩
    · rw [fiber_update (by simp [hi]) (by simp)]
      exact hcount
    · rw [hi] at hl
      cases hl
      rfl

end Hall
end Semaphores
