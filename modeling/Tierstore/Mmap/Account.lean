import Tierstore.Mmap.Tier

/-! The lock section of a put: accounting for the new file, and the eviction loop. -/
namespace Tierstore.Mmap
open Overlay

variable {K : Type} [DecidableEq K]

/-- The accounted size of `key` is that of its file, and a retained mapping shows it. -/
structure Agrees (inner : Inner K) (files : K → Option Bytes) (key : K) : Prop where
  size : inner.sizes.lookup key = (files key).map List.length
  mapping : ∀ bytes, inner.maps.lookup key = some bytes → files key = some bytes

structure Vacant (inner : Inner K) (files : K → Option Bytes) (key : K) : Prop where
  size : inner.sizes.lookup key = none
  mapping : inner.maps.lookup key = none
  file : files key = none

structure Unchanged (inner inner' : Inner K) (files files' : K → Option Bytes) (key : K) :
    Prop where
  size : inner'.sizes.lookup key = inner.sizes.lookup key
  mapping : inner'.maps.lookup key = inner.maps.lookup key
  file : files' key = files key

/-- Opening accounts for every entry file exactly, and retains no mapping. -/
theorem scan_agrees {files : K → Option Bytes} {found : List (K × Nat)}
    (hkeys : (found.map Prod.fst).Nodup)
    (hfound : ∀ key len, (key, len) ∈ found ↔ ∃ bytes, files key = some bytes ∧ bytes.length = len)
    (key : K) : Agrees (Inner.scan found) files key := by
  refine ⟨?_, fun bytes hbytes => ?_⟩
  · have hsize (len : Nat) := (Inner.scan_sizes hkeys key len).trans (hfound key len)
    cases hfile : files key with
    | some bytes => exact (hsize bytes.length).2 ⟨bytes, hfile, rfl⟩
    | none =>
      refine Option.eq_none_iff_forall_ne_some.2 fun len hlen => ?_
      obtain ⟨bytes, hbytes, -⟩ := (hsize len).1 hlen
      rw [hfile] at hbytes
      cases hbytes
  · rw [Inner.scan_maps] at hbytes
    cases hbytes

theorem Vacant.agrees {inner : Inner K} {files : K → Option Bytes} {key : K}
    (h : Vacant inner files key) : Agrees inner files key := by
  refine ⟨by rw [h.size, h.file]; rfl, fun bytes hbytes => ?_⟩
  rw [h.mapping] at hbytes
  cases hbytes

theorem Agrees.unchanged {inner inner' : Inner K} {files files' : K → Option Bytes} {key : K}
    (h : Agrees inner files key) (hsame : Unchanged inner inner' files files' key) :
    Agrees inner' files' key := by
  refine ⟨by rw [hsame.size, hsame.file, h.size], fun bytes hbytes => ?_⟩
  rw [hsame.mapping] at hbytes
  rw [hsame.file]
  exact h.mapping bytes hbytes

theorem Vacant.unchanged {inner inner' : Inner K} {files files' : K → Option Bytes} {key : K}
    (h : Vacant inner files key) (hsame : Unchanged inner inner' files files' key) :
    Vacant inner' files' key :=
  ⟨hsame.size.trans h.size, hsame.mapping.trans h.mapping, hsame.file.trans h.file⟩

theorem Unchanged.trans {inner inner' inner'' : Inner K} {files files' files'' : K → Option Bytes}
    {key : K} (h : Unchanged inner inner' files files' key)
    (h' : Unchanged inner' inner'' files' files'' key) :
    Unchanged inner inner'' files files'' key :=
  ⟨h'.size.trans h.size, h'.mapping.trans h.mapping, h'.file.trans h.file⟩

theorem evict_vacant (inner : Inner K) (files : K → Option Bytes) (oldest : K) :
    Vacant (inner.evict oldest) (erase files oldest) oldest :=
  ⟨by rw [Inner.evict_sizes, if_pos rfl], by rw [Inner.evict_maps, if_pos rfl], by simp [erase]⟩

theorem evict_unchanged (inner : Inner K) (files : K → Option Bytes) {oldest key : K}
    (h : key ≠ oldest) :
    Unchanged inner (inner.evict oldest) files (erase files oldest) key :=
  ⟨by rw [Inner.evict_sizes, if_neg h], by rw [Inner.evict_maps, if_neg h], by simp [erase, h]⟩

theorem victims_accounted {budget fuel : Nat} {inner : Inner K} (h : inner.Tracked) {key : K}
    (hkey : key ∈ inner.victims budget fuel) : key ∈ inner.sizes := by
  induction fuel generalizing inner with
  | zero => cases hkey
  | succ fuel ih =>
    rw [Inner.victims] at hkey
    split at hkey
    · obtain ⟨order, hpop⟩ | ⟨oldest, order, hold, hpop⟩ := Inner.popOldest_cases h
      · rw [hpop] at hkey
        cases hkey
      · rw [hpop] at hkey
        obtain rfl | hlater := List.mem_cons.1 hkey
        · exact hold
        · have hordered : ({ inner with order } : Inner K).Tracked := h
          have hmem := ih (hordered.evict oldest) hlater
          rw [← AList.lookup_isSome, Inner.evict_sizes] at hmem
          split at hmem
          · cases hmem
          · exact AList.lookup_isSome.1 hmem
    · cases hkey

/-- The eviction loop leaves every victim vacant and hands its entry back; it touches no
other key. -/
theorem evictLoop_spec (budget fuel : Nat) {inner : Inner K} {files : K → Option Bytes}
    (h : inner.Tracked) (hvictims : ∀ key ∈ inner.victims budget fuel, Agrees inner files key) :
    let out := evictLoop budget fuel inner files
    out.2.1.Tracked ∧
      (∀ key ∉ inner.victims budget fuel, Unchanged inner out.2.1 files out.2.2 key) ∧
      ∀ key ∈ inner.victims budget fuel, Vacant out.2.1 out.2.2 key ∧
        ∃ bytes, files key = some bytes ∧ (key, bytes) ∈ out.1 := by
  induction fuel generalizing inner files with
  | zero => exact ⟨h, fun key _ => ⟨rfl, rfl, rfl⟩, fun key hkey => by cases hkey⟩
  | succ fuel ih =>
    rw [Inner.victims] at hvictims ⊢
    rw [evictLoop]
    by_cases hover : inner.total > budget
    · rw [if_pos hover] at hvictims ⊢
      rw [if_pos hover]
      obtain ⟨order, hpop⟩ | ⟨oldest, order, hold, hpop⟩ := Inner.popOldest_cases h
      · rw [hpop] at hvictims ⊢
        exact ⟨h, fun key _ => ⟨rfl, rfl, rfl⟩, fun key hkey => by cases hkey⟩
      · rw [hpop] at hvictims ⊢
        dsimp only at hvictims ⊢
        generalize hpopped : ({ inner with order } : Inner K) = popped at hvictims ⊢
        have hsame (key : K) : Unchanged inner popped files files key := by
          subst hpopped
          exact ⟨rfl, rfl, rfl⟩
        have htracked : popped.Tracked := by
          subst hpopped
          exact h
        have hone (key : K) (hne : key ≠ oldest) :
            Unchanged inner (popped.evict oldest) files (erase files oldest) key :=
          (hsame key).trans (evict_unchanged popped files hne)
        have hvacant := evict_vacant popped files oldest
        have hlater : ∀ key ∈ (popped.evict oldest).victims budget fuel,
            Agrees (popped.evict oldest) (erase files oldest) key := by
          intro key hkey
          by_cases hne : key = oldest
          · rw [hne]
            exact hvacant.agrees
          · exact (hvictims key (List.mem_cons_of_mem _ hkey)).unchanged (hone key hne)
        have hnotagain : oldest ∉ (popped.evict oldest).victims budget fuel := by
          intro hagain
          have hmem := victims_accounted (htracked.evict oldest) hagain
          rw [← AList.lookup_isSome, hvacant.size] at hmem
          cases hmem
        obtain ⟨hend, hothers, htaken⟩ := ih (htracked.evict oldest) hlater
        refine ⟨hend, fun key hkey => ?_, fun key hkey => ?_⟩
        · obtain ⟨hne, hrest⟩ := not_or.1 (mt List.mem_cons.2 hkey)
          exact (hone key hne).trans (hothers key hrest)
        · obtain rfl | hrest := List.mem_cons.1 hkey
          · refine ⟨hvacant.unchanged (hothers key hnotagain), ?_⟩
            have hagrees := hvictims key (List.mem_cons_self)
            obtain ⟨bytes, hfile⟩ : ∃ bytes, files key = some bytes := by
              have hsome := AList.lookup_isSome.2 hold
              rw [hagrees.size] at hsome
              exact Option.isSome_iff_exists.1 (by simpa using hsome)
            refine ⟨bytes, hfile, List.mem_append_left _ ?_⟩
            have hbytes : (inner.maps.lookup key).or (files key) = some bytes := by
              cases hmap : inner.maps.lookup key with
              | none => simpa using hfile
              | some mapped =>
                rw [← hfile, hagrees.mapping mapped hmap]
                rfl
            rw [hbytes]
            simp
          · obtain ⟨hgone, bytes, hfile, hback⟩ := htaken key hrest
            have hne : key ≠ oldest := fun e => hnotagain (e ▸ hrest)
            exact ⟨hgone, bytes, by rw [← (hone key hne).file, hfile],
              List.mem_append_right _ hback⟩
    · rw [if_neg hover] at hvictims ⊢
      rw [if_neg hover]
      exact ⟨h, fun key _ => ⟨rfl, rfl, rfl⟩, fun key hkey => by cases hkey⟩

section Account
variable (config : Config) (s : State K) (key : K) (len : Nat) (mapped : Option Bytes)

def evicted : List K :=
  match config.budget with
  | none => []
  | some budget =>
    let inner := s.inner.record config.eviction key len mapped
    inner.victims budget inner.order.length

/-- A tier without a budget hands nothing back. -/
theorem account_unbounded (h : config.budget = none) :
    account config s key len mapped =
      ([], { s with inner := s.inner.record config.eviction key len mapped }) := by
  rw [account, h]

/-- The lock section of a put accounts for the new file, and then leaves every evicted key
vacant and hands its entry back. -/
theorem account_spec (h : s.inner.Tracked)
    (hevicted : ∀ x ∈ evicted config s key len mapped,
      Agrees (s.inner.record config.eviction key len mapped) s.disk.files x) :
    let out := account config s key len mapped
    out.2.inner.Tracked ∧ out.2.disk.tmp = s.disk.tmp ∧
      (∀ x ∉ evicted config s key len mapped,
        Unchanged (s.inner.record config.eviction key len mapped) out.2.inner
          s.disk.files out.2.disk.files x) ∧
      ∀ x ∈ evicted config s key len mapped, Vacant out.2.inner out.2.disk.files x ∧
        ∃ bytes, s.disk.files x = some bytes ∧ (x, bytes) ∈ out.1 := by
  have hrecord := h.record config.eviction key len mapped
  unfold account
  unfold evicted at hevicted ⊢
  cases hbudget : config.budget with
  | none =>
    rw [hbudget] at hevicted
    exact ⟨hrecord, rfl, fun x _ => ⟨rfl, rfl, rfl⟩, fun x hx => by cases hx⟩
  | some budget =>
    rw [hbudget] at hevicted
    obtain ⟨htracked, hothers, htaken⟩ := evictLoop_spec budget _ hrecord hevicted
    exact ⟨htracked, rfl, hothers, htaken⟩

/-- The key of the put itself agrees with its file after the first half of the section. -/
theorem record_agrees {value : Bytes} (hfile : s.disk.files key = some value) :
    Agrees (s.inner.record config.eviction key value.length (some value)) s.disk.files key := by
  refine ⟨?_, fun bytes hbytes => ?_⟩
  · rw [Inner.record_sizes, AList.lookup_insert, hfile]
    rfl
  · rw [Inner.record_maps, if_pos rfl] at hbytes
    rw [hfile, ← hbytes]
    rfl

theorem record_unchanged {x : K} (hx : x ≠ key) :
    Unchanged s.inner (s.inner.record config.eviction key len mapped) s.disk.files s.disk.files
      x := by
  refine ⟨?_, ?_, rfl⟩
  · rw [Inner.record_sizes, AList.lookup_insert_ne hx]
  · rw [Inner.record_maps, if_neg hx]

end Account
end Tierstore.Mmap
