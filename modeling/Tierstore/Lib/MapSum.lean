import Mathlib.Algebra.BigOperators.Group.List.Basic
import Mathlib.Algebra.GroupWithZero.Nat
import Mathlib.Data.List.AList

/-! Sums over the entries of a finite map, as entries come and go. -/
namespace MapSum
variable {K E : Type} (f : E → Nat)

def total (m : AList fun _ : K => E) : Nat := (m.entries.map fun e => f e.2).sum

variable [DecidableEq K]

theorem total_insert (m : AList fun _ : K => E) (key : K) (e : E) :
    total f (m.insert key e) = f e + total f (m.erase key) := by
  rw [total, AList.entries_insert, List.map_cons, List.sum_cons]
  rfl

theorem total_erase {m : AList fun _ : K => E} {key : K} {e : E}
    (h : m.lookup key = some e) : f e + total f (m.erase key) = total f m := by
  have hmem : key ∈ m.entries.keys := AList.mem_keys.1 (AList.lookup_isSome.1 (by simp [h]))
  obtain ⟨e', before, rest, -, hentries, herase⟩ := List.exists_of_kerase hmem
  obtain rfl : e' = e := by
    have hlookup : e' ∈ m.lookup key := AList.mem_lookup_iff.2 (by rw [hentries]; simp)
    exact Option.some.inj (hlookup.symm.trans h)
  have hleft : (m.erase key).entries = before ++ rest := herase
  simp only [total, hentries, hleft, List.map_append, List.map_cons, List.sum_append,
    List.sum_cons]
  omega

theorem total_erase_none {m : AList fun _ : K => E} {key : K} (h : m.lookup key = none) :
    total f (m.erase key) = total f m := by
  have hnot : key ∉ m.entries.keys := fun hmem => AList.lookup_eq_none.1 h (AList.mem_keys.2 hmem)
  have hsame : (m.erase key).entries = m.entries := List.kerase_of_notMem_keys hnot
  rw [total, hsame, total]

/-- What is left without a key is what the key does not hold. -/
theorem total_erase_eq (m : AList fun _ : K => E) (key : K) :
    ((m.lookup key).map f).getD 0 + total f (m.erase key) = total f m := by
  cases h : m.lookup key with
  | none => simp [total_erase_none f h]
  | some e => simp [total_erase f h]

theorem total_eq_zero {m : AList fun _ : K => E}
    (h : ∀ key e, m.lookup key = some e → f e = 0) : total f m = 0 := by
  refine List.sum_eq_zero fun n hn => ?_
  obtain ⟨⟨key, e⟩, he, rfl⟩ := List.mem_map.1 hn
  exact h key e (AList.mem_lookup_iff.2 he)

end MapSum
