import Tierstore.Mmap.Sound

/-! What each step has to respect so that the invariant holds: one lemma for each query. -/
namespace Tierstore.Mmap
open Overlay Effects

variable {K ι : Type} [DecidableEq K] [DecidableEq ι] {config : Config} {calls : ι → MmapCall K}
  {s : State K} {asks : ι → Option (MmapQuery K)} {i : ι} {key : K} {value bytes : Bytes}

/-- A step that leaves everything but the eviction order as it is, and opens or closes no
window. -/
theorem Sound.idle (h : Sound calls s asks) (inner : Inner K) {next : Option (MmapQuery K)}
    (htracked : inner.Tracked) (hmaps : inner.maps = s.inner.maps)
    (hsizes : inner.sizes = s.inner.sizes) (hself : InPlace { s with inner } (calls i) next)
    (hwriting : writing (calls i) next = writing (calls i) (asks i))
    (hpublishing : publishing (calls i) next = publishing (calls i) (asks i))
    (hremoving : removing (calls i) next = removing (calls i) (asks i)) :
    Sound calls { s with inner } (Function.update asks i next) := by
  refine h.update htracked hself (fun j hj => ?_) (fun x hx j hj hx' => ?_)
    (fun x hx j hj => ?_) (fun x hx j hj hx' => ?_) fun x hpub hrem hpubs hrems => ?_
  · refine (h.inPlace j).frame (fun _ _ => rfl) (fun _ _ => rfl) fun x _ hsize hmap => ?_
    exact ⟨by rw [hsizes, hsize], by rw [hmaps, hmap]⟩
  · rw [hwriting] at hx
    exact hj (h.single j i x hx' hx)
  · rw [hpublishing] at hx
    exact h.apart i j x hx
  · rw [hremoving] at hx
    exact h.apart j i x hx' hx
  · rw [hpublishing] at hpub
    rw [hremoving] at hrem
    have hagrees := h.agrees_of hpub hrem hpubs hrems
    exact ⟨by rw [hsizes, hagrees.size], by rw [hmaps]; exact hagrees.mapping⟩

/-- A get's step is idle whatever it asks next. -/
theorem Sound.reads (h : Sound calls s asks) (inner : Inner K) {next : Option (MmapQuery K)}
    (hcall : calls i = .get key) (htracked : inner.Tracked) (hmaps : inner.maps = s.inner.maps)
    (hsizes : inner.sizes = s.inner.sizes) :
    Sound calls { s with inner } (Function.update asks i next) := by
  refine h.idle inner htracked hmaps hsizes ?_ ?_ ?_ ?_ <;> rw [hcall]
  · trivial
  all_goals rfl

theorem Sound.writeTmp (h : Sound calls s asks) (hcall : calls i = .put key value)
    (hask : asks i = some (.writeTmp key value))
    (halone : ∀ j ≠ i, writing (calls j) (asks j) ≠ some key) :
    Sound calls (exec config (.writeTmp key value) s).2
      (Function.update asks i (some (.rename key))) := by
  refine h.update h.tracked ?_ (fun j hj => ?_) (fun x hx j hj => ?_) (fun x hx => ?_)
    (fun x hx => ?_) fun x hpub hrem hpubs hrems => ?_
  · rw [hcall]
    exact Function.update_self key (some value) s.disk.tmp
  · refine (h.inPlace j).frame (fun x hx => ?_) (fun _ _ => rfl)
      fun _ _ hsize hmap => ⟨hsize, hmap⟩
    have hne : x ≠ key := by
      rintro rfl
      exact halone j hj hx
    exact Function.update_of_ne hne (some value) s.disk.tmp
  · rw [hcall] at hx
    cases hx
    exact halone j hj
  · rw [hcall] at hx
    cases hx
  · rw [hcall] at hx
    cases hx
  · refine h.agrees_of ?_ ?_ hpubs hrems <;> rw [hcall, hask] <;> exact fun e => by cases e

omit [DecidableEq ι] in
theorem Sound.tmp_written (h : Sound calls s asks) (hcall : calls i = .put key value)
    (hask : asks i = some (.rename key)) : s.disk.tmp key = some value := by
  have hplace := h.inPlace i
  rw [hcall, hask] at hplace
  exact hplace

/-- No delete of the key may be about to unlink when a put renames. -/
theorem Sound.rename (h : Sound calls s asks) (hcall : calls i = .put key value)
    (hask : asks i = some (.rename key))
    (hkept : ∀ j, removing (calls j) (asks j) ≠ some key) :
    Sound calls (exec config (.rename key) s).2 (Function.update asks i (some (.map key))) := by
  have hbusy : writing (calls i) (asks i) = some key := by
    rw [hcall, hask]
    rfl
  have hne {j : ι} (hj : j ≠ i) {x : K} (hx : writing (calls j) (asks j) = some x) : x ≠ key := by
    rintro rfl
    exact hj (h.single j i x hx hbusy)
  simp only [exec, h.tmp_written hcall hask]
  refine h.update h.tracked ?_ (fun j hj => ?_) (fun x hx j hj hx' => ?_) (fun x hx j hj => ?_)
    (fun x hx => ?_) fun x hpub hrem hpubs hrems => ?_
  · rw [hcall]
    exact Function.update_self key (some value) s.disk.files
  · refine (h.inPlace j).frame (fun x hx => ?_) (fun x hx => ?_)
      fun _ _ hsize hmap => ⟨hsize, hmap⟩
    · exact Function.update_of_ne (hne hj hx) none s.disk.tmp
    · exact Function.update_of_ne (hne hj (writing_of_publishing hx)) (some value) s.disk.files
  · rw [hcall] at hx
    cases hx
    exact hne hj hx' rfl
  · rw [hcall] at hx
    cases hx
    exact hkept j
  · rw [hcall] at hx
    cases hx
  · have hx : x ≠ key := by
      rintro rfl
      rw [hcall] at hpub
      exact hpub rfl
    have hagrees : Agrees s.inner s.disk.files x := by
      refine h.agrees_of ?_ ?_ hpubs hrems <;> rw [hcall, hask] <;> exact fun e => by cases e
    exact hagrees.unchanged ⟨rfl, rfl, Function.update_of_ne hx (some value) s.disk.files⟩

/-- A put maps the file it has just renamed. -/
theorem Sound.mapNew (h : Sound calls s asks) (hcall : calls i = .put key value)
    (hask : asks i = some (.map key)) (len : Nat) :
    s.disk.files key = some value ∧
      Sound calls s (Function.update asks i (some (.account key len (s.disk.files key)))) := by
  have hfile : s.disk.files key = some value := by
    refine h.published hcall ?_
    rw [hcall, hask]
    rfl
  refine ⟨hfile, ?_⟩
  refine h.idle s.inner h.tracked rfl rfl ?_ ?_ ?_ ?_ <;> rw [hcall]
  · exact ⟨hfile, hfile⟩
  · rw [hask]
    rfl
  · rw [hask]
    rfl
  · rw [hask]
    rfl

theorem evicted_accounted {len : Nat} {mapped : Option Bytes} (h : s.inner.Tracked) {x : K}
    (hx : x ∈ evicted config s key len mapped) (hne : x ≠ key) : x ∈ s.inner.sizes := by
  unfold evicted at hx
  cases hbudget : config.budget with
  | none =>
    rw [hbudget] at hx
    cases hx
  | some budget =>
    rw [hbudget] at hx
    have hmem := victims_accounted (h.record config.eviction key len mapped) hx
    rw [Inner.record_sizes, AList.mem_insert] at hmem
    exact hmem.resolve_left hne

omit [DecidableEq ι] in
/-- What the lock section of a put finds: its own file is in place, and the entries it evicts
are accounted for exactly. -/
theorem Sound.account_ready (h : Sound calls s asks) (hcall : calls i = .put key value)
    {mapped : Option Bytes} (hask : asks i = some (.account key value.length mapped))
    (hvictims : ∀ x ∈ evicted config s key value.length mapped,
      ∀ j ≠ i, publishing (calls j) (asks j) ≠ some x) :
    s.disk.files key = some value ∧ mapped = some value ∧
      ∀ x ∈ evicted config s key value.length mapped,
        Agrees (s.inner.record config.eviction key value.length mapped) s.disk.files x := by
  have hplace := h.inPlace i
  rw [hcall, hask] at hplace
  obtain ⟨hfile, rfl⟩ := hplace
  refine ⟨hfile, rfl, fun x hx => ?_⟩
  by_cases hne : x = key
  · subst hne
    exact record_agrees config s x hfile
  · have hrem := h.not_removing (evicted_accounted h.tracked hx hne)
    have hagrees : Agrees s.inner s.disk.files x := by
      refine h.agrees_of (i := i) ?_ (hrem i) (hvictims x hx) fun j _ => hrem j
      rw [hcall, hask]
      rintro heq
      cases heq
      exact hne rfl
    exact hagrees.unchanged (record_unchanged config s key value.length (some value) hne)

/-- No put of a key may have its new file in place when another put's eviction takes the
key. -/
theorem Sound.account (h : Sound calls s asks) (hcall : calls i = .put key value)
    {mapped : Option Bytes} (hask : asks i = some (.account key value.length mapped))
    (hvictims : ∀ x ∈ evicted config s key value.length mapped,
      ∀ j ≠ i, publishing (calls j) (asks j) ≠ some x) :
    Sound calls (exec config (.account key value.length mapped) s).2
      (Function.update asks i none) := by
  obtain ⟨hfile, rfl, hready⟩ := h.account_ready hcall hask hvictims
  obtain ⟨htracked, htmp, hothers, htaken⟩ :=
    account_spec config s key value.length (some value) h.tracked hready
  have hpub : publishing (calls i) (asks i) = some key := by
    rw [hcall, hask]
    rfl
  have hsame {x : K} (hx : x ≠ key) (hkept : x ∉ evicted config s key value.length (some value)) :
      Unchanged s.inner (Mmap.account config s key value.length (some value)).2.inner
        s.disk.files (Mmap.account config s key value.length (some value)).2.disk.files x :=
    (record_unchanged config s key value.length (some value) hx).trans (hothers x hkept)
  refine h.update htracked ?_ (fun j hj => ?_) (fun x hx => ?_) (fun x hx => ?_)
    (fun x hx => ?_) fun x _ _ hpubs hrems => ?_
  · rw [hcall]
    trivial
  · refine (h.inPlace j).frame (fun x _ => congrFun htmp x) (fun x hx => ?_)
      fun x hx hsize hmap => ?_
    · have hne : x ≠ key := by
        rintro rfl
        exact hj (h.single j i x (writing_of_publishing hx) (writing_of_publishing hpub))
      exact (hsame hne fun hgone => hvictims x hgone j hj hx).file
    · have hne : x ≠ key := by
        rintro rfl
        exact h.apart i j x hpub hx
      have hkept : x ∉ evicted config s key value.length (some value) := fun hgone =>
        h.not_removing (evicted_accounted h.tracked hgone hne) j hx
      exact ⟨(hsame hne hkept).size.trans hsize, (hsame hne hkept).mapping.trans hmap⟩
  · rw [hcall] at hx
    cases hx
  · rw [hcall] at hx
    cases hx
  · rw [hcall] at hx
    cases hx
  · by_cases hgone : x ∈ evicted config s key value.length (some value)
    · exact (htaken x hgone).1.agrees
    · by_cases hne : x = key
      · subst hne
        exact (record_agrees config s x hfile).unchanged (hothers x hgone)
      · refine (h.agrees_of (i := i) ?_ ?_ hpubs hrems).unchanged (hsame hne hgone)
        · rw [hpub]
          exact fun e => hne (Option.some.inj e).symm
        · rw [not_removing_of_publishing hpub]
          exact fun e => by cases e

/-- A get may retain only what the file shows, unless a put of the key is about to replace
the mapping. -/
theorem Sound.retain (h : Sound calls s asks) (hcall : calls i = .get key)
    (hfresh : key ∈ s.inner.sizes → s.disk.files key = some bytes ∨
      ∃ j, publishing (calls j) (asks j) = some key) :
    Sound calls (exec config (.retain key bytes) s).2 (Function.update asks i none) := by
  refine h.update (h.tracked.retain _ _ _) ?_ (fun j hj => ?_) (fun x hx => ?_) (fun x hx => ?_)
    (fun x hx => ?_) fun x _ _ hpubs hrems => ?_
  · rw [hcall]
    trivial
  · refine (h.inPlace j).frame (fun _ _ => rfl) (fun _ _ => rfl) fun x _ hsize hmap => ?_
    have hnot : x ∉ s.inner.sizes := AList.lookup_eq_none.1 hsize
    refine ⟨by rw [← hsize]; exact congrArg _ (Inner.retain_sizes _ _ _ _), ?_⟩
    refine (Inner.retain_maps _ _ _ _ _).trans ?_
    rw [if_neg, hmap]
    rintro ⟨rfl, hmem⟩
    exact hnot hmem
  · rw [hcall] at hx
    cases hx
  · rw [hcall] at hx
    cases hx
  · rw [hcall] at hx
    cases hx
  · have hagrees : Agrees s.inner s.disk.files x := by
      refine h.agrees_of ?_ ?_ hpubs hrems <;> rw [hcall] <;> exact fun e => by cases e
    refine ⟨?_, fun b hb => ?_⟩
    · refine Eq.trans ?_ hagrees.size
      exact congrArg (AList.lookup x) (Inner.retain_sizes _ _ _ _)
    · replace hb := (Inner.retain_maps _ _ _ _ _).symm.trans hb
      split at hb
      · next hwhere =>
        obtain ⟨rfl, hmem⟩ := hwhere
        cases hb
        obtain hfile | ⟨j, hj⟩ := hfresh hmem
        · exact hfile
        · have hji : j ≠ i := by
            rintro rfl
            rw [hcall] at hj
            cases hj
          exact absurd hj (hpubs j hji)
      · exact hagrees.mapping b hb

/-- No put of the key may have its new file in place when a delete begins. -/
theorem Sound.forget (h : Sound calls s asks) (hcall : calls i = .delete key)
    (hask : asks i = some (.forget key))
    (hkept : ∀ j, publishing (calls j) (asks j) ≠ some key) :
    Sound calls (exec config (.forget key) s).2 (Function.update asks i (some (.unlink key))) := by
  refine h.update (h.tracked.forget _) ?_ (fun j hj => ?_) (fun x hx => ?_) (fun x hx => ?_)
    (fun x hx j hj => ?_) fun x _ hrem hpubs hrems => ?_
  · rw [hcall]
    exact ⟨(Inner.forget_sizes _ _ _).trans (if_pos rfl),
      (Inner.forget_maps _ _ _).trans (if_pos rfl)⟩
  · refine (h.inPlace j).frame (fun _ _ => rfl) (fun _ _ => rfl) fun x _ hsize hmap => ?_
    refine ⟨(Inner.forget_sizes _ _ _).trans ?_, (Inner.forget_maps _ _ _).trans ?_⟩
    · rw [hsize, ite_self]
    · rw [hmap, ite_self]
  · rw [hcall] at hx
    cases hx
  · rw [hcall] at hx
    cases hx
  · rw [hcall] at hx
    cases hx
    exact hkept j
  · have hne : x ≠ key := by
      rintro rfl
      rw [hcall] at hrem
      exact hrem rfl
    have hagrees : Agrees s.inner s.disk.files x := by
      refine h.agrees_of ?_ ?_ hpubs hrems <;> rw [hcall, hask] <;> exact fun e => by cases e
    exact hagrees.unchanged ⟨(Inner.forget_sizes _ _ _).trans (if_neg hne),
      (Inner.forget_maps _ _ _).trans (if_neg hne), rfl⟩

theorem Sound.unlink (h : Sound calls s asks) (hcall : calls i = .delete key)
    (hask : asks i = some (.unlink key)) :
    Sound calls (exec config (.unlink key) s).2 (Function.update asks i none) := by
  have hrem : removing (calls i) (asks i) = some key := by
    rw [hcall, hask]
    rfl
  have hplace := h.inPlace i
  rw [hcall, hask] at hplace
  refine h.update h.tracked ?_ (fun j hj => ?_) (fun x hx => ?_) (fun x hx => ?_)
    (fun x hx => ?_) fun x _ _ hpubs hrems => ?_
  · rw [hcall]
    trivial
  · refine (h.inPlace j).frame (fun _ _ => rfl) (fun x hx => ?_)
      fun _ _ hsize hmap => ⟨hsize, hmap⟩
    refine if_neg ?_
    rintro rfl
    exact h.apart j i x hx hrem
  · rw [hcall] at hx
    cases hx
  · rw [hcall] at hx
    cases hx
  · rw [hcall] at hx
    cases hx
  · by_cases hne : x = key
    · subst hne
      exact Vacant.agrees ⟨hplace.1, hplace.2, if_pos rfl⟩
    · refine (h.agrees_of (i := i) ?_ ?_ hpubs hrems).unchanged ⟨rfl, rfl, if_neg hne⟩
      · rw [hcall]
        exact fun e => by cases e
      · rw [hrem]
        exact fun e => hne (Option.some.inj e).symm

end Tierstore.Mmap
