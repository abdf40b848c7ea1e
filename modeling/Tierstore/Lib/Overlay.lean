import Mathlib.Data.Option.Basic
import Mathlib.Data.List.Basic

/-! Partial maps stacked on one another: an upper map shadows the lower ones. Entries on
the move between two maps are a layer of their own, in which the later entry wins. -/
namespace Overlay
variable {K V ι : Type*}

def atop (m w : K → Option V) : K → Option V := fun k => (m k).or (w k)

def empty : K → Option V := fun _ => none

@[simp] theorem empty_apply (k : K) : (empty : K → Option V) k = none := rfl

@[simp] theorem empty_atop (m : K → Option V) : atop empty m = m := by
  funext k
  simp [atop]

@[simp] theorem atop_empty (m : K → Option V) : atop m empty = m := by
  funext k
  simp [atop]

theorem atop_assoc (a b c : K → Option V) : atop (atop a b) c = atop a (atop b c) := by
  funext k
  simp [atop, Option.or_assoc]

theorem atop_of_some {m : K → Option V} {k : K} {v : V} (h : m k = some v) (w : K → Option V) :
    atop m w k = some v := by
  simp [atop, h]

theorem atop_of_none {m : K → Option V} {k : K} (h : m k = none) (w : K → Option V) :
    atop m w k = w k := by
  simp [atop, h]

def stacked (layer : ι → K → Option V) : List ι → K → Option V
  | [] => empty
  | i :: is => atop (layer i) (stacked layer is)

theorem stacked_append (layer : ι → K → Option V) (is js : List ι) :
    stacked layer (is ++ js) = atop (stacked layer is) (stacked layer js) := by
  induction is with
  | nil => simp [stacked]
  | cons i is ih => simp [stacked, ih, atop_assoc]

theorem stacked_congr {layer layer' : ι → K → Option V} {is : List ι}
    (h : ∀ i ∈ is, layer i = layer' i) : stacked layer is = stacked layer' is := by
  induction is with
  | nil => rfl
  | cons i is ih =>
    rw [stacked, stacked, h i (by simp), ih fun j hj => h j (List.mem_cons_of_mem i hj)]

theorem stacked_eq_none {layer : ι → K → Option V} {is : List ι} {k : K} :
    stacked layer is k = none ↔ ∀ i ∈ is, layer i k = none := by
  induction is with
  | nil => simp [stacked]
  | cons i is ih => simp [stacked, atop, ih]

theorem stacked_congr_at {layer layer' : ι → K → Option V} {is : List ι} {k : K}
    (h : ∀ i ∈ is, layer i k = layer' i k) : stacked layer is k = stacked layer' is k := by
  induction is with
  | nil => rfl
  | cons i is ih =>
    rw [stacked, stacked, atop, atop, h i (by simp),
      ih fun j hj => h j (List.mem_cons_of_mem i hj)]

/-- The uppermost layer with the key. -/
theorem exists_top_of_stacked {layer : ι → K → Option V} {is : List ι} {k : K} {v : V}
    (h : stacked layer is k = some v) :
    ∃ above i below, is = above ++ i :: below ∧ (∀ j ∈ above, layer j k = none) ∧
      layer i k = some v := by
  induction is with
  | nil => cases h
  | cons i is ih =>
    cases hi : layer i k with
    | some w =>
      rw [stacked, atop_of_some hi] at h
      exact ⟨[], i, is, rfl, by simp, hi.trans h⟩
    | none =>
      rw [stacked, atop_of_none hi] at h
      obtain ⟨above, j, below, rfl, hnone, hj⟩ := ih h
      refine ⟨i :: above, j, below, rfl, fun x hx => ?_, hj⟩
      obtain rfl | hx := List.mem_cons.1 hx
      · exact hi
      · exact hnone x hx

/-- What a stack shows for a key is some layer's own entry. -/
theorem exists_layer_of_stacked {layer : ι → K → Option V} {is : List ι} {k : K} {v : V}
    (h : stacked layer is k = some v) : ∃ i ∈ is, layer i k = some v := by
  induction is with
  | nil => cases h
  | cons i is ih =>
    cases hi : layer i k with
    | some w =>
      rw [stacked, atop_of_some hi] at h
      exact ⟨i, by simp, hi.trans h⟩
    | none =>
      rw [stacked, atop_of_none hi] at h
      obtain ⟨j, hj, hv⟩ := ih h
      exact ⟨j, List.mem_cons_of_mem i hj, hv⟩

section Entries
variable [DecidableEq K]

def single (k : K) (v : V) : K → Option V := fun x => if x = k then some v else none

/-- A list of entries as a layer: the last entry of a key counts. -/
def latest : List (K × V) → K → Option V
  | [] => empty
  | (k, v) :: rest => atop (latest rest) (single k v)

def write (m : K → Option V) (entries : List (K × V)) : K → Option V := atop (latest entries) m

def erase (m : K → Option V) (k : K) : K → Option V := fun x => if x = k then none else m x

def eraseAll (m : K → Option V) (ks : List K) : K → Option V :=
  fun x => if x ∈ ks then none else m x

@[simp] theorem single_self (k : K) (v : V) : single k v k = some v := by simp [single]

theorem single_of_ne {k x : K} (h : x ≠ k) (v : V) : single k v x = none := by
  simp [single, h]

@[simp] theorem latest_nil : (latest [] : K → Option V) = empty := rfl

theorem latest_singleton (k : K) (v : V) : latest [(k, v)] = single k v := by
  simp [latest]

theorem latest_append (a b : List (K × V)) : latest (a ++ b) = atop (latest b) (latest a) := by
  induction a with
  | nil => simp
  | cons e a ih => simp [latest, ih, atop_assoc]

theorem latest_mem {entries : List (K × V)} {k : K} {v : V} (h : latest entries k = some v) :
    (k, v) ∈ entries := by
  induction entries with
  | nil => cases h
  | cons e rest ih =>
    obtain ⟨x, w⟩ := e
    cases hr : latest rest k with
    | some u =>
      rw [latest, atop_of_some hr] at h
      exact List.mem_cons_of_mem _ (ih (hr.trans h))
    | none =>
      rw [latest, atop_of_none hr] at h
      by_cases hx : k = x
      · subst k
        simp only [single_self, Option.some.injEq] at h
        simp [h]
      · simp [single_of_ne hx] at h

theorem latest_eq_none {entries : List (K × V)} {k : K} :
    latest entries k = none ↔ k ∉ entries.map Prod.fst := by
  induction entries with
  | nil => simp
  | cons e rest ih =>
    obtain ⟨x, w⟩ := e
    by_cases hx : k = x
    · subst k
      cases hr : latest rest x <;> simp [latest, atop, hr]
    · simp [latest, atop, single_of_ne hx, ih, hx]

@[simp] theorem write_nil (m : K → Option V) : write m [] = m := by simp [write]

theorem write_append (m : K → Option V) (a b : List (K × V)) :
    write m (a ++ b) = write (write m a) b := by
  simp [write, latest_append, atop_assoc]

theorem write_cons (m : K → Option V) (e : K × V) (rest : List (K × V)) :
    write m (e :: rest) = write (write m [e]) rest :=
  write_append m [e] rest

theorem write_singleton (m : K → Option V) (k : K) (v : V) (x : K) :
    write m [(k, v)] x = if x = k then some v else m x := by
  by_cases hx : x = k <;> simp [write, latest_singleton, atop, single, hx]

theorem write_singleton_cases {m : K → Option V} {k x : K} {v w : V}
    (h : write m [(k, v)] x = some w) : (x, w) = (k, v) ∨ m x = some w := by
  rw [write_singleton] at h
  by_cases hx : x = k
  · simp only [hx, if_true, Option.some.injEq] at h
    exact Or.inl (by rw [hx, h])
  · exact Or.inr (by simpa [hx] using h)

theorem write_atop (m w : K → Option V) (entries : List (K × V)) :
    write (atop m w) entries = atop (write m entries) w := by
  simp [write, atop_assoc]

theorem write_of_notMem {entries : List (K × V)} {k : K} (h : k ∉ entries.map Prod.fst)
    (m : K → Option V) : write m entries k = m k :=
  atop_of_none (latest_eq_none.2 h) m

theorem write_congr {m w : K → Option V} {entries : List (K × V)}
    (h : ∀ k, k ∉ entries.map Prod.fst → m k = w k) : write m entries = write w entries := by
  funext k
  cases hk : latest entries k with
  | some v => rw [write, write, atop_of_some hk, atop_of_some hk]
  | none => rw [write, write, atop_of_none hk, atop_of_none hk, h k (latest_eq_none.1 hk)]

/-- Writing entries a map already shows changes nothing. -/
theorem write_of_agree {m : K → Option V} {entries : List (K × V)}
    (h : ∀ e ∈ entries, m e.1 = some e.2) : write m entries = m := by
  funext k
  cases hk : latest entries k with
  | none => exact atop_of_none hk m
  | some v =>
    rw [write, atop_of_some hk]
    exact (h (k, v) (latest_mem hk)).symm

/-- Writing one entry, any number of times. -/
theorem write_of_all_eq {m : K → Option V} {k : K} {v : V} {entries : List (K × V)}
    (hne : entries ≠ []) (h : ∀ e ∈ entries, e = (k, v)) : write m entries k = some v := by
  cases hk : latest entries k with
  | none =>
    obtain ⟨e, he⟩ := List.exists_mem_of_ne_nil entries hne
    exact absurd (List.mem_map.2 ⟨e, he, congrArg Prod.fst (h e he)⟩) (latest_eq_none.1 hk)
  | some w =>
    rw [write, atop_of_some hk, (Prod.mk.inj (h (k, w) (latest_mem hk))).2]

/-- Under a map that shows the entries anyway, writing them changes nothing. -/
theorem atop_write_of_agree {a w : K → Option V} {entries : List (K × V)}
    (h : ∀ e ∈ entries, atop a w e.1 = some e.2) : atop a (write w entries) = atop a w := by
  funext k
  cases ha : a k with
  | some v => rw [atop_of_some ha, atop_of_some ha]
  | none =>
    rw [atop_of_none ha, atop_of_none ha]
    cases hk : latest entries k with
    | none => exact atop_of_none hk w
    | some v =>
      have hv := h (k, v) (latest_mem hk)
      rw [atop_of_none ha] at hv
      rw [write, atop_of_some hk]
      exact hv.symm

/-- The first entry may be left out of a write if its key has a value above, or the same below. -/
theorem atop_write_cons_of_shown {a m w : K → Option V} {e : K × V} {entries : List (K × V)} {x : K}
    (h : x = e.1 → a x = none → atop m w x = some e.2) :
    atop a (atop (write m (e :: entries)) w) x = atop a (atop (write m entries) w) x := by
  cases ha : a x with
  | some v => rw [atop_of_some ha, atop_of_some ha]
  | none =>
    rw [atop_of_none ha, atop_of_none ha, ← write_atop, ← write_atop]
    cases hlater : latest entries x with
    | some v =>
      have hfirst : latest (e :: entries) x = some v := atop_of_some hlater _
      rw [write, write, atop_of_some hlater, atop_of_some hfirst]
    | none =>
      have hkept (u : K → Option V) : write u entries x = u x := atop_of_none hlater u
      rw [write_cons, hkept, hkept, write_singleton]
      split
      next hx => exact (h hx ha).symm
      next => rfl

/-- Below a map that has nothing else for their keys, entries are written as if on top of it. -/
theorem atop_write_of_same {a w : K → Option V} {entries : List (K × V)}
    (h : ∀ e ∈ entries, ∀ v, a e.1 = some v → v = e.2) :
    atop a (write w entries) = write (atop a w) entries := by
  funext k
  cases hk : latest entries k with
  | none => simp only [write, atop, hk, Option.none_or]
  | some v =>
    have htop : write (atop a w) entries k = some v := atop_of_some hk _
    have hunder : write w entries k = some v := atop_of_some hk _
    rw [htop]
    cases ha : a k with
    | none => rw [atop_of_none ha, hunder]
    | some u =>
      rw [atop_of_some ha, h (k, v) (latest_mem hk) u ha]

/-- A write on top makes the same write below superfluous. -/
theorem write_atop_write (a w : K → Option V) (entries : List (K × V)) :
    write (atop a (write w entries)) entries = write (atop a w) entries := by
  funext k
  cases hk : latest entries k with
  | some v => simp only [write, atop_of_some hk]
  | none => simp [write, atop, hk]

theorem write_write (m : K → Option V) (entries : List (K × V)) :
    write (write m entries) entries = write m entries := by
  simpa using write_atop_write empty m entries

theorem eraseAll_eq_some {m : K → Option V} {ks : List K} {k : K} {v : V} :
    eraseAll m ks k = some v ↔ k ∉ ks ∧ m k = some v := by
  by_cases hk : k ∈ ks <;> simp [eraseAll, hk]

theorem eraseAll_atop (m w : K → Option V) (ks : List K) :
    eraseAll (atop m w) ks = atop (eraseAll m ks) (eraseAll w ks) := by
  funext x
  by_cases hx : x ∈ ks <;> simp [eraseAll, atop, hx]

theorem eraseAll_singleton (m : K → Option V) (k : K) : eraseAll m [k] = erase m k := by
  funext x
  simp [eraseAll, erase]

theorem eraseAll_append (m : K → Option V) (ks js : List K) :
    eraseAll m (ks ++ js) = eraseAll (eraseAll m ks) js := by
  funext x
  by_cases hj : x ∈ js <;> by_cases hk : x ∈ ks <;> simp [eraseAll, hj, hk]

theorem eraseAll_eraseAll (m : K → Option V) (ks : List K) :
    eraseAll (eraseAll m ks) ks = eraseAll m ks := by
  rw [← eraseAll_append]
  funext x
  simp [eraseAll]

/-- Erasing above the keys that are written below leaves the write visible. -/
theorem eraseAll_atop_write (a w : K → Option V) (entries : List (K × V)) :
    atop (eraseAll a (entries.map Prod.fst)) (write w entries) = write (atop a w) entries := by
  funext x
  cases hx : latest entries x with
  | none =>
    have hmem := latest_eq_none.1 hx
    simp only [write, atop, eraseAll, hx, hmem, if_false, Option.none_or]
  | some v =>
    have hmem : x ∈ entries.map Prod.fst := by
      by_contra hn
      rw [latest_eq_none.2 hn] at hx
      cases hx
    simp only [write, atop, eraseAll, hx, hmem, if_true, Option.none_or, Option.some_or]

/-- Putting back what was taken out restores the map. -/
theorem atop_erase_single {m : K → Option V} {k : K} {v : V} (h : m k = some v) :
    atop (erase m k) (single k v) = m := by
  funext x
  by_cases hx : x = k
  · subst x
    simp [atop, erase, h]
  · simp [atop, erase, single, hx]

end Entries

/-! ## Losses -/

/-- `m` is `w` up to losses, and loses nothing when `exact` holds. -/
def Within (exact : Prop) (m w : K → Option V) : Prop :=
  (∀ k v, m k = some v → w k = some v) ∧ (exact → m = w)

namespace Within
variable {exact : Prop} {a b m w : K → Option V}

theorem refl (exact : Prop) (m : K → Option V) : Within exact m m :=
  ⟨fun _ _ h => h, fun _ => rfl⟩

theorem trans (h₁ : Within exact a b) (h₂ : Within exact b m) : Within exact a m :=
  ⟨fun k v h => h₂.1 k v (h₁.1 k v h), fun he => (h₁.2 he).trans (h₂.2 he)⟩

theorem mono {strict : Prop} (h : Within exact a b) (himp : strict → exact) :
    Within strict a b := ⟨h.1, fun hs => h.2 (himp hs)⟩

/-- A map that returned what it lost. -/
theorem of_conserved [DecidableEq K] {lost : List (K × V)} (h : atop m (latest lost) = w)
    (hlost : exact → lost = []) : Within exact m w := by
  refine ⟨fun k v hv => ?_, fun he => ?_⟩
  · rw [← h]
    exact atop_of_some hv _
  · have hnil := hlost he
    subst hnil
    simpa using h

theorem atop_right (a : K → Option V) (h : Within exact m w) :
    Within exact (atop a m) (atop a w) := by
  refine ⟨fun k v hv => ?_, fun he => by rw [h.2 he]⟩
  cases ha : a k with
  | some u => rwa [atop_of_some ha] at hv ⊢
  | none =>
    rw [atop_of_none ha] at hv ⊢
    exact h.1 k v hv

theorem write [DecidableEq K] (h : Within exact m w) (entries : List (K × V)) :
    Within exact (write m entries) (write w entries) := h.atop_right (latest entries)

/-- Entries that the whole map shows anyway may be written under a part of it. -/
theorem atop_write [DecidableEq K] {entries : List (K × V)} (h : Within exact (atop a w) m)
    (hm : ∀ e ∈ entries, m e.1 = some e.2) :
    Within exact (atop a (Overlay.write w entries)) m := by
  refine ⟨fun k v hv => ?_, fun he => ?_⟩
  · cases ha : a k with
    | some u =>
      rw [atop_of_some ha] at hv
      exact h.1 k v (by rw [atop_of_some ha, hv])
    | none =>
      rw [atop_of_none ha] at hv
      cases hk : latest entries k with
      | some u =>
        rw [Overlay.write, atop_of_some hk] at hv
        cases hv
        exact hm (k, v) (latest_mem hk)
      | none =>
        rw [Overlay.write, atop_of_none hk] at hv
        exact h.1 k v (by rw [atop_of_none ha, hv])
  · have hover := h.2 he
    rw [atop_write_of_agree fun e hmem => by rw [hover, hm e hmem], hover]

theorem eraseAll [DecidableEq K] (h : Within exact m w) (ks : List K) :
    Within exact (eraseAll m ks) (eraseAll w ks) := by
  refine ⟨fun k v hv => ?_, fun he => by rw [h.2 he]⟩
  by_cases hk : k ∈ ks
  · simp [Overlay.eraseAll, hk] at hv
  · simp only [Overlay.eraseAll, hk, if_false] at hv ⊢
    exact h.1 k v hv

end Within
end Overlay
