import Mathlib.Algebra.GroupWithZero.Nat
import Mathlib.Data.List.Basic

/-! Buffers of a fixed length: slices and writes in place, both of which fail out of bounds, and
numbers as little-endian bytes. -/
namespace Buffers

/-! ## Windows -/
section Windows
variable {α : Type*} {buf src out : List α} {start stop base : Nat}

/-- `buf[start..stop]`; nothing where it panics. -/
def slice (buf : List α) (start stop : Nat) : Option (List α) :=
  if start ≤ stop ∧ stop ≤ buf.length then some ((buf.drop start).take (stop - start)) else none

/-- `buf[base..base + src.len()].copy_from_slice(src)`; nothing where it panics. -/
def overwrite (buf : List α) (base : Nat) (src : List α) : Option (List α) :=
  if base + src.length ≤ buf.length then
    some (buf.take base ++ src ++ buf.drop (base + src.length))
  else none

theorem slice_of_le (h : start ≤ stop) (h' : stop ≤ buf.length) :
    slice buf start stop = some ((buf.drop start).take (stop - start)) := if_pos ⟨h, h'⟩

theorem overwrite_of_le (h : base + src.length ≤ buf.length) :
    overwrite buf base src = some (buf.take base ++ src ++ buf.drop (base + src.length)) :=
  if_pos h

theorem length_slice (h : slice buf start stop = some out) : out.length = stop - start := by
  rw [slice] at h
  split at h
  next hin =>
    obtain rfl := Option.some.inj h
    rw [List.length_take, List.length_drop]
    omega
  next => cases h

theorem length_overwrite (h : overwrite buf base src = some out) : out.length = buf.length := by
  rw [overwrite] at h
  split at h
  next hin =>
    obtain rfl := Option.some.inj h
    simp only [List.length_append, List.length_take, List.length_drop]
    omega
  next => cases h

/-- Two writes next to each other are one. -/
theorem overwrite_append (src src' : List α) :
    overwrite buf base (src ++ src') =
      (overwrite buf base src).bind fun out => overwrite out (base + src.length) src' := by
  by_cases h : base + src.length ≤ buf.length
  · have hbase : (buf.take base ++ src).length = base + src.length := by
      rw [List.length_append, List.length_take]
      omega
    have hlength : (buf.take base ++ src ++ buf.drop (base + src.length)).length = buf.length :=
      length_overwrite (overwrite_of_le h)
    have hrest : (buf.take base ++ src ++ buf.drop (base + src.length)).drop
        (base + src.length + src'.length) = buf.drop (base + src.length + src'.length) := by
      rw [← List.drop_drop, List.drop_left' hbase, List.drop_drop]
    rw [overwrite_of_le h, Option.bind_some, overwrite, overwrite, hlength, hrest,
      List.length_append, ← Nat.add_assoc, List.take_left' hbase,
      ← List.append_assoc (buf.take base)]
  · have h' : ¬ base + (src ++ src').length ≤ buf.length := by
      rw [List.length_append]
      omega
    rw [overwrite, if_neg h', overwrite, if_neg h, Option.bind_none]

/-- A slice of what was just written. -/
theorem slice_overwrite (h : overwrite buf base src = some out) (hstop : stop ≤ src.length) :
    slice out (base + start) (base + stop) = slice src start stop := by
  have hlength := length_overwrite h
  rw [overwrite] at h
  split at h
  next hin =>
    obtain rfl := Option.some.inj h
    have hbase : (buf.take base).length = base := by
      rw [List.length_take]
      omega
    by_cases hle : start ≤ stop
    · rw [slice_of_le (by omega) (by omega), slice_of_le hle hstop, ← List.drop_drop,
        List.append_assoc, List.drop_left' hbase, Nat.add_sub_add_left,
        List.drop_append_of_le_length (by omega), List.take_append_of_le_length]
      rw [List.length_drop]
      omega
    · rw [slice, if_neg (by omega), slice, if_neg (by omega)]
  next => cases h

/-- A slice away from a write. -/
theorem slice_overwrite_of_apart (h : overwrite buf base src = some out)
    (hapart : stop ≤ base ∨ base + src.length ≤ start) :
    slice out start stop = slice buf start stop := by
  have hlength := length_overwrite h
  rw [overwrite] at h
  split at h
  next hin =>
    obtain rfl := Option.some.inj h
    rw [slice, slice, hlength]
    by_cases hwindow : start ≤ stop ∧ stop ≤ buf.length
    · rw [if_pos hwindow, if_pos hwindow]
      refine congrArg some (List.ext_getElem? fun i => ?_)
      simp only [List.getElem?_take, List.getElem?_drop]
      split
      next hi =>
        obtain hleft | hright := hapart
        · rw [List.append_assoc, List.getElem?_append_left (by rw [List.length_take]; omega),
            List.getElem?_take, if_pos (by omega)]
        · have hlen : (buf.take base ++ src).length = base + src.length := by
            rw [List.length_append, List.length_take]
            omega
          rw [List.getElem?_append_right (by omega), hlen, List.getElem?_drop]
          congr 1
          omega
      next => rfl
    · rw [if_neg hwindow, if_neg hwindow]
  next => cases h

end Windows

/-! ## Numbers -/

def toLeBytes : Nat → Nat → List UInt8
  | 0, _ => []
  | width + 1, n => UInt8.ofNat (n % 256) :: toLeBytes width (n / 256)

def fromLeBytes : List UInt8 → Nat
  | [] => 0
  | byte :: bytes => byte.toNat + 256 * fromLeBytes bytes

@[simp] theorem length_toLeBytes (width n : Nat) : (toLeBytes width n).length = width := by
  induction width generalizing n with
  | zero => rfl
  | succ width ih => rw [toLeBytes, List.length_cons, ih]

theorem fromLeBytes_toLeBytes {width n : Nat} (h : n < 256 ^ width) :
    fromLeBytes (toLeBytes width n) = n := by
  induction width generalizing n with
  | zero =>
    rw [Nat.pow_zero] at h
    rw [toLeBytes, fromLeBytes]
    omega
  | succ width ih =>
    have hrest : n / 256 < 256 ^ width := by
      rw [Nat.pow_succ] at h
      omega
    have hbyte : (UInt8.ofNat (n % 256)).toNat = n % 256 := by
      rw [UInt8.toNat_ofNat']
      omega
    rw [toLeBytes, fromLeBytes, ih hrest, hbyte]
    omega

end Buffers
