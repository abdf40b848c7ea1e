import Mathlib.Algebra.BigOperators.Group.List.Basic
import Mathlib.Algebra.GroupWithZero.Nat
import Mathlib.Data.List.Nodup
import Mathlib.Data.List.Perm.Basic

/-! Keyed items in eviction order: an item is added or moved at the end, changed in its place,
or taken out, and the shelf is shortened from the front until it fits. -/
universe u v

structure Item (K : Type u) (V : Type v) where
  key : K
  value : V
  price : Nat

/-- The oldest item first. -/
abbrev ItemShelf (K : Type u) (V : Type v) := List (Item K V)

namespace ItemShelf
variable {K : Type u} {V : Type v}

def keys (shelf : ItemShelf K V) : List K := shelf.map Item.key

def total (shelf : ItemShelf K V) : Nat := (shelf.map Item.price).sum

@[simp] theorem keys_nil : keys ([] : ItemShelf K V) = [] := rfl
@[simp] theorem keys_cons (item : Item K V) (shelf : ItemShelf K V) :
    keys (item :: shelf) = item.key :: keys shelf := rfl
@[simp] theorem keys_append (shelf more : ItemShelf K V) :
    keys (shelf ++ more) = keys shelf ++ keys more := List.map_append
@[simp] theorem total_nil : total ([] : ItemShelf K V) = 0 := rfl
@[simp] theorem total_cons (item : Item K V) (shelf : ItemShelf K V) :
    total (item :: shelf) = item.price + total shelf := by simp [total]
@[simp] theorem total_append (shelf more : ItemShelf K V) :
    total (shelf ++ more) = total shelf + total more := by simp [total]
theorem length_keys (shelf : ItemShelf K V) : (keys shelf).length = shelf.length :=
  List.length_map _

variable [DecidableEq K]

def find (shelf : ItemShelf K V) (key : K) : Option (Item K V) :=
  List.find? (fun item => item.key = key) shelf

def without (shelf : ItemShelf K V) (key : K) : ItemShelf K V :=
  List.filter (fun item => item.key ≠ key) shelf

def replace (shelf : ItemShelf K V) (item : Item K V) : ItemShelf K V :=
  List.map (fun other => if other.key = item.key then item else other) shelf

def toEnd (shelf : ItemShelf K V) (item : Item K V) : ItemShelf K V :=
  shelf.without item.key ++ [item]

theorem without_cons (item : Item K V) (shelf : ItemShelf K V) (key : K) :
    without (item :: shelf) key =
      if item.key = key then without shelf key else item :: without shelf key := by
  by_cases h : item.key = key <;> simp [without, h]

theorem replace_cons (first : Item K V) (shelf : ItemShelf K V) (item : Item K V) :
    replace (first :: shelf) item =
      (if first.key = item.key then item else first) :: replace shelf item := rfl

theorem without_of_notMem {shelf : ItemShelf K V} {key : K} (h : key ∉ keys shelf) :
    shelf.without key = shelf := by
  refine List.filter_eq_self.2 fun item hitem => ?_
  rw [decide_eq_true_iff]
  rintro rfl
  exact h (List.mem_map_of_mem hitem)

theorem replace_of_notMem {shelf : ItemShelf K V} {item : Item K V} (h : item.key ∉ keys shelf) :
    shelf.replace item = shelf := by
  induction shelf with
  | nil => rfl
  | cons first shelf ih =>
    rw [keys_cons, List.mem_cons, not_or] at h
    rw [replace_cons, if_neg (Ne.symm h.1), ih h.2]

section Find
variable {shelf : ItemShelf K V} {key : K} {item : Item K V}

theorem find_cons (item : Item K V) (shelf : ItemShelf K V) (key : K) :
    find (item :: shelf) key = if item.key = key then some item else find shelf key := by
  by_cases h : item.key = key <;> simp [find, h]

theorem key_of_find (h : find shelf key = some item) : item.key = key := by
  simpa using List.find?_some h

theorem mem_of_find (h : find shelf key = some item) : item ∈ shelf := List.mem_of_find?_eq_some h

theorem find_isSome : (find shelf key).isSome ↔ key ∈ keys shelf := by
  induction shelf with
  | nil => simp [find]
  | cons item shelf ih =>
    rw [find_cons, keys_cons, List.mem_cons]
    by_cases h : item.key = key
    · simp [h]
    · rw [if_neg h, ih]
      simp [Ne.symm h]

theorem find_eq_none : find shelf key = none ↔ key ∉ keys shelf := by
  rw [← find_isSome]
  simp

theorem find_of_mem (hnd : (keys shelf).Nodup) (h : item ∈ shelf) :
    find shelf item.key = some item := by
  induction shelf with
  | nil => cases h
  | cons first shelf ih =>
    obtain ⟨hnot, hnd⟩ := List.nodup_cons.1 hnd
    rw [find_cons]
    obtain rfl | hrest := List.mem_cons.1 h
    · rw [if_pos rfl]
    · have hne : first.key ≠ item.key := by
        intro heq
        exact hnot (heq ▸ List.mem_map_of_mem hrest)
      rw [if_neg hne, ih hnd hrest]

theorem find_append (shelf more : ItemShelf K V) (key : K) :
    find (shelf ++ more) key = (find shelf key).or (find more key) := List.find?_append

theorem find_without (shelf : ItemShelf K V) (key x : K) :
    find (shelf.without key) x = if x = key then none else find shelf x := by
  induction shelf with
  | nil => simp [without, find]
  | cons item shelf ih =>
    rw [without_cons, find_cons]
    by_cases hkey : item.key = key
    · rw [if_pos hkey, ih, hkey]
      by_cases hx : x = key
      · simp [hx]
      · simp [hx, Ne.symm hx]
    · rw [if_neg hkey, find_cons, ih]
      by_cases hx : item.key = x
      · subst hx
        simp [hkey]
      · simp [hx]

theorem find_replace (shelf : ItemShelf K V) (item : Item K V) (x : K) :
    find (shelf.replace item) x =
      if x = item.key ∧ (find shelf x).isSome then some item else find shelf x := by
  induction shelf with
  | nil => simp [replace, find]
  | cons first shelf ih =>
    rw [replace_cons, find_cons, find_cons, ih]
    by_cases hx : x = item.key
    · subst hx
      by_cases hfirst : first.key = item.key <;> simp [hfirst]
    · by_cases hfirst : first.key = item.key
      · simp [hfirst, hx, Ne.symm hx]
      · simp [hfirst, hx]

theorem find_toEnd (shelf : ItemShelf K V) (item : Item K V) (x : K) :
    find (shelf.toEnd item) x = if x = item.key then some item else find shelf x := by
  rw [toEnd, find_append, find_without, find_cons]
  by_cases hx : x = item.key
  · simp [hx]
  · simp [hx, Ne.symm hx, find]

end Find

section Keys
variable (shelf : ItemShelf K V) (item : Item K V) (key : K)

theorem keys_without : keys (shelf.without key) = (keys shelf).filter fun x => x ≠ key := by
  simp [keys, without, List.filter_map, Function.comp_def]

theorem keys_replace : keys (shelf.replace item) = keys shelf := by
  simp only [keys, replace, List.map_map]
  refine List.map_congr_left fun other _ => ?_
  by_cases h : other.key = item.key <;> simp [h]

theorem keys_toEnd :
    keys (shelf.toEnd item) = ((keys shelf).filter fun x => x ≠ item.key) ++ [item.key] := by
  rw [toEnd, keys_append, keys_without]
  rfl

end Keys

section Totals
variable {shelf : ItemShelf K V} {key : K} {old item : Item K V}

/-- An item taken out is one item less, and its price comes off the total. -/
theorem without_of_find (hnd : (keys shelf).Nodup) (h : find shelf key = some old) :
    total (shelf.without key) + old.price = total shelf ∧
      (shelf.without key).length + 1 = shelf.length := by
  induction shelf with
  | nil => cases h
  | cons first shelf ih =>
    obtain ⟨hnot, hnd⟩ := List.nodup_cons.1 hnd
    rw [find_cons] at h
    rw [without_cons]
    by_cases hfirst : first.key = key
    · rw [if_pos hfirst] at h ⊢
      cases h
      rw [← hfirst, without_of_notMem hnot, total_cons, List.length_cons]
      omega
    · rw [if_neg hfirst] at h ⊢
      obtain ⟨htotal, hlen⟩ := ih hnd h
      rw [total_cons, total_cons, List.length_cons, List.length_cons]
      omega

theorem total_replace (hnd : (keys shelf).Nodup) (h : find shelf item.key = some old) :
    total (shelf.replace item) + old.price = total shelf + item.price := by
  induction shelf with
  | nil => cases h
  | cons first shelf ih =>
    obtain ⟨hnot, hnd⟩ := List.nodup_cons.1 hnd
    rw [find_cons] at h
    rw [replace_cons, total_cons, total_cons]
    by_cases hfirst : first.key = item.key
    · rw [if_pos hfirst] at h ⊢
      cases h
      rw [replace_of_notMem (hfirst ▸ hnot)]
      omega
    · rw [if_neg hfirst] at h ⊢
      have hrest := ih hnd h
      omega

end Totals

/-! ## Shortening -/

def shed {α : Type u} (fits : List α → Bool) : List α → List α × List α
  | [] => ([], [])
  | item :: rest =>
    if fits (item :: rest) then ([], item :: rest)
    else (item :: (shed fits rest).1, (shed fits rest).2)

section Shed
variable {α : Type u} (fits : List α → Bool) (items : List α)

theorem shed_append : (shed fits items).1 ++ (shed fits items).2 = items := by
  induction items with
  | nil => rfl
  | cons item rest ih =>
    rw [shed]
    split
    · rfl
    · exact congrArg (item :: ·) ih

theorem shed_fits (hnil : fits [] = true) : fits (shed fits items).2 = true := by
  induction items with
  | nil => exact hnil
  | cons item rest ih =>
    rw [shed]
    split
    · assumption
    · exact ih

theorem shed_of_fits (h : fits items = true) : shed fits items = ([], items) := by
  cases items with
  | nil => rfl
  | cons item rest => rw [shed, if_pos h]

/-- One item too many. -/
theorem shed_first {item : α} {rest : List α} (h : fits (item :: rest) = false)
    (hrest : fits rest = true) : shed fits (item :: rest) = ([item], rest) := by
  rw [shed, if_neg (h ▸ Bool.false_ne_true), shed_of_fits fits rest hrest]

/-- No shorter prefix would do. -/
theorem shed_shortest {front back : List α} (h : items = front ++ back) (hback : fits back = true) :
    (shed fits items).1.length ≤ front.length := by
  induction items generalizing front with
  | nil => exact Nat.zero_le _
  | cons item rest ih =>
    rw [shed]
    split
    · exact Nat.zero_le _
    · next hnot =>
      cases front with
      | nil =>
        rw [List.nil_append] at h
        exact absurd (h ▸ hback) hnot
      | cons first front =>
        rw [List.cons_append, List.cons.injEq] at h
        exact Nat.succ_le_succ (ih h.2)

end Shed
end ItemShelf
