import Tierstore.Mmap.Stages

/-! The invariant of concurrent calls on the mmap tier: a key nobody is publishing or removing
is accounted for exactly. -/
namespace Tierstore.Mmap
open Overlay Effects

section Windows
variable {K : Type}

/-- The key of a put whose temporary file is written and whose lock section is not over. -/
def writing : MmapCall K → Option (MmapQuery K) → Option K
  | .put key _, some (.rename _) => some key
  | .put key _, some (.map _) => some key
  | .put key _, some (.account _ _ _) => some key
  | _, _ => none

/-- The key whose new file is in place but not accounted for. -/
def publishing : MmapCall K → Option (MmapQuery K) → Option K
  | .put key _, some (.map _) => some key
  | .put key _, some (.account _ _ _) => some key
  | _, _ => none

/-- The key that is no longer accounted for but whose file is still to be unlinked. -/
def removing : MmapCall K → Option (MmapQuery K) → Option K
  | .delete key, some (.unlink _) => some key
  | _, _ => none

theorem writing_of_publishing {c : MmapCall K} {ask : Option (MmapQuery K)} {key : K}
    (h : publishing c ask = some key) : writing c ask = some key := by
  unfold publishing at h
  split at h
  · exact h
  · exact h
  · cases h

theorem not_removing_of_publishing {c : MmapCall K} {ask : Option (MmapQuery K)} {key : K}
    (h : publishing c ask = some key) : removing c ask = none := by
  unfold publishing at h
  split at h
  · rfl
  · rfl
  · cases h

/-- A put that is under way after its step was before, unless the step started it. -/
theorem writing_of_advance {c : MmapCall K} {stage : Stage K} {q : MmapQuery K}
    (hq : nextQuery c stage = some q) (r : MmapAnswer q) {key : K}
    (h : writing c (nextQuery c (advance stage q r)) = some key) :
    writing c (some q) = some key ∨ ∃ value, q = .writeTmp key value := by
  cases c with
  | put own value =>
    cases stage with
    | start =>
      cases hq
      cases h
      exact Or.inr ⟨value, rfl⟩
    | written =>
      cases hq
      cases r <;> cases h
      exact Or.inl rfl
    | renamed =>
      cases hq
      exact Or.inl h
    | mapped bytes =>
      cases hq
      cases h
    | _ => cases hq
  | get own => cases nextQuery (.get own) (advance stage q r) <;> cases h
  | delete own => cases nextQuery (.delete own) (advance stage q r) <;> cases h

def InPlace [DecidableEq K] (s : State K) : MmapCall K → Option (MmapQuery K) → Prop
  | .put key value, some (.rename _) => s.disk.tmp key = some value
  | .put key value, some (.map _) => s.disk.files key = some value
  | .put key value, some (.account _ _ mapped) =>
    s.disk.files key = some value ∧ mapped = some value
  | .delete key, some (.unlink _) =>
    s.inner.sizes.lookup key = none ∧ s.inner.maps.lookup key = none
  | _, _ => True

/-- What a call has done still shows after a step that leaves its key alone. -/
theorem InPlace.frame [DecidableEq K] {s s' : State K} {c : MmapCall K}
    {ask : Option (MmapQuery K)} (h : InPlace s c ask)
    (htmp : ∀ key, writing c ask = some key → s'.disk.tmp key = s.disk.tmp key)
    (hfiles : ∀ key, publishing c ask = some key → s'.disk.files key = s.disk.files key)
    (hgone : ∀ key, removing c ask = some key → s.inner.sizes.lookup key = none →
      s.inner.maps.lookup key = none →
      s'.inner.sizes.lookup key = none ∧ s'.inner.maps.lookup key = none) :
    InPlace s' c ask := by
  unfold InPlace at h
  split at h
  · next key value _ => exact (htmp key rfl).trans h
  · next key value _ => exact (hfiles key rfl).trans h
  · next key value _ _ _ => exact ⟨(hfiles key rfl).trans h.1, h.2⟩
  · next key _ => exact hgone key rfl h.1 h.2
  · next h₁ h₂ h₃ h₄ =>
    unfold InPlace
    split
    · exact absurd rfl (h₁ _ _ _ rfl)
    · exact absurd rfl (h₂ _ _ _ rfl)
    · exact absurd rfl (h₃ _ _ _ _ _ rfl)
    · exact absurd rfl (h₄ _ _ rfl)
    · trivial

end Windows

variable {K ι : Type} [DecidableEq K]

structure Sound (calls : ι → MmapCall K) (s : State K) (asks : ι → Option (MmapQuery K)) :
    Prop where
  tracked : s.inner.Tracked
  inPlace : ∀ j, InPlace s (calls j) (asks j)
  single : ∀ i j key, writing (calls i) (asks i) = some key →
    writing (calls j) (asks j) = some key → i = j
  apart : ∀ i j key, publishing (calls i) (asks i) = some key →
    removing (calls j) (asks j) ≠ some key
  agrees : ∀ key, (∀ j, publishing (calls j) (asks j) ≠ some key) →
    (∀ j, removing (calls j) (asks j) ≠ some key) → Agrees s.inner s.disk.files key

variable {config : Config} {calls : ι → MmapCall K} {s s' : State K}
  {asks : ι → Option (MmapQuery K)}

/-- A put's file is in place while it publishes it. -/
theorem Sound.published (h : Sound calls s asks) {i : ι} {key : K} {value : Bytes}
    (hcall : calls i = .put key value) (hpub : publishing (calls i) (asks i) = some key) :
    s.disk.files key = some value := by
  have hplace := h.inPlace i
  rw [hcall] at hpub hplace
  unfold publishing at hpub
  split at hpub
  · next hc hask =>
    cases hc
    rw [hask] at hplace
    exact hplace
  · next hc hask =>
    cases hc
    rw [hask] at hplace
    exact hplace.1
  · cases hpub

/-- Only keys nobody is removing are accounted for. -/
theorem Sound.not_removing (h : Sound calls s asks) {key : K} (hkey : key ∈ s.inner.sizes)
    (j : ι) : removing (calls j) (asks j) ≠ some key := by
  intro hrem
  have hplace := h.inPlace j
  unfold removing at hrem
  split at hrem
  · next hcall hask =>
    cases hrem
    rw [hcall, hask] at hplace
    have hsome := AList.lookup_isSome.2 hkey
    rw [hplace.1] at hsome
    cases hsome
  · cases hrem

variable [DecidableEq ι]

/-- What a step of thread `i` has to keep. -/
theorem Sound.update (h : Sound calls s asks) {i : ι} {next : Option (MmapQuery K)}
    (htracked : s'.inner.Tracked) (hself : InPlace s' (calls i) next)
    (hothers : ∀ j ≠ i, InPlace s' (calls j) (asks j))
    (hwriting : ∀ key, writing (calls i) next = some key →
      ∀ j ≠ i, writing (calls j) (asks j) ≠ some key)
    (hpublishing : ∀ key, publishing (calls i) next = some key →
      ∀ j ≠ i, removing (calls j) (asks j) ≠ some key)
    (hremoving : ∀ key, removing (calls i) next = some key →
      ∀ j ≠ i, publishing (calls j) (asks j) ≠ some key)
    (hagrees : ∀ key, publishing (calls i) next ≠ some key → removing (calls i) next ≠ some key →
      (∀ j ≠ i, publishing (calls j) (asks j) ≠ some key) →
      (∀ j ≠ i, removing (calls j) (asks j) ≠ some key) → Agrees s'.inner s'.disk.files key) :
    Sound calls s' (Function.update asks i next) := by
  refine ⟨htracked, fun j => ?_, fun j₁ j₂ key h₁ h₂ => ?_, fun j₁ j₂ key h₁ h₂ => ?_,
    fun key h₁ h₂ => ?_⟩
  · by_cases hj : j = i
    · subst hj
      rwa [Function.update_self]
    · rw [Function.update_of_ne hj]
      exact hothers j hj
  · by_cases hj₁ : j₁ = i <;> by_cases hj₂ : j₂ = i
    · rw [hj₁, hj₂]
    · subst hj₁
      rw [Function.update_self] at h₁
      rw [Function.update_of_ne hj₂] at h₂
      exact absurd h₂ (hwriting key h₁ j₂ hj₂)
    · subst hj₂
      rw [Function.update_of_ne hj₁] at h₁
      rw [Function.update_self] at h₂
      exact absurd h₁ (hwriting key h₂ j₁ hj₁)
    · rw [Function.update_of_ne hj₁] at h₁
      rw [Function.update_of_ne hj₂] at h₂
      exact h.single j₁ j₂ key h₁ h₂
  · by_cases hj₁ : j₁ = i <;> by_cases hj₂ : j₂ = i
    · subst hj₁
      subst hj₂
      rw [not_removing_of_publishing h₁] at h₂
      cases h₂
    · subst hj₁
      rw [Function.update_self] at h₁
      rw [Function.update_of_ne hj₂] at h₂
      exact hpublishing key h₁ j₂ hj₂ h₂
    · subst hj₂
      rw [Function.update_of_ne hj₁] at h₁
      rw [Function.update_self] at h₂
      exact hremoving key h₂ j₁ hj₁ h₁
    · rw [Function.update_of_ne hj₁] at h₁
      rw [Function.update_of_ne hj₂] at h₂
      exact h.apart j₁ j₂ key h₁ h₂
  · have hi₁ := h₁ i
    have hi₂ := h₂ i
    rw [Function.update_self] at hi₁ hi₂
    refine hagrees key hi₁ hi₂ (fun j hj => ?_) fun j hj => ?_
    · have hj' := h₁ j
      rwa [Function.update_of_ne hj] at hj'
    · have hj' := h₂ j
      rwa [Function.update_of_ne hj] at hj'

omit [DecidableEq ι] in
/-- What the invariant says of a key that neither thread `i` nor another is busy with. -/
theorem Sound.agrees_of (h : Sound calls s asks) {i : ι} {key : K}
    (hpub : publishing (calls i) (asks i) ≠ some key)
    (hrem : removing (calls i) (asks i) ≠ some key)
    (hpubs : ∀ j ≠ i, publishing (calls j) (asks j) ≠ some key)
    (hrems : ∀ j ≠ i, removing (calls j) (asks j) ≠ some key) :
    Agrees s.inner s.disk.files key := by
  refine h.agrees key (fun j => ?_) fun j => ?_
  · by_cases hj : j = i
    · rwa [hj]
    · exact hpubs j hj
  · by_cases hj : j = i
    · rwa [hj]
    · exact hrems j hj

end Tierstore.Mmap
