import Mathlib.Data.List.Basic
import Tierstore.Disk.Tier
import Tierstore.Mmap.Directory

/-! Ranged reads of the two byte tiers: the mmap tier slices a mapping within its bounds, the
file-per-key tier makes a buffer, seeks and reads exactly. -/
namespace Tierstore
open Effects Files

/-! ## The mmap tier -/
namespace Mmap

inductive RangeError where
  | io (e : FsError)
  | rangeTooLarge
  | outOfBounds

/-- `Bytes::slice`; nothing where it panics. -/
def slice (bytes : Bytes) (start stop : Nat) : Option Bytes :=
  if start ≤ stop ∧ stop ≤ bytes.length then some ((bytes.drop start).take (stop - start)) else none

def Fs.readRange (config : Config) (inner : Inner Key) (key : Key) (start stop : UInt64) :
    FsM (Outcome RangeError (Option Bytes) × Inner Key) := do
  match ← get config inner key with
  | (.error e, inner) => pure (.returned (.error (.io e)), inner)
  | (.ok none, inner) => pure (.returned (.ok none), inner)
  | (.ok (some bytes), inner) =>
    match usizeTryFrom start, usizeTryFrom stop with
    | some start, some stop =>
      if start > stop ∨ stop > bytes.length then
        pure (.returned (.error .outOfBounds), inner)
      else
        match slice bytes start stop with
        | some part => pure (.returned (.ok (some part)), inner)
        | none => pure (.panicked, inner)
    | _, _ => pure (.returned (.error .rangeTooLarge), inner)

end Mmap

/-! ## What each tier makes of a stored value -/
section Cases
variable (stored : Option (List UInt8)) (start stop : UInt64)

def part (value : List UInt8) : List UInt8 :=
  (value.drop start.toNat).take (stop.toNat - start.toNat)

def InBounds (value : List UInt8) : Prop := start ≤ stop ∧ stop.toNat ≤ value.length

instance (value : List UInt8) : Decidable (InBounds start stop value) :=
  inferInstanceAs (Decidable (_ ∧ _))

theorem usizeTryFrom_eq (n : UInt64) : usizeTryFrom n = some n.toNat := by
  have hlt := n.toNat_lt
  rw [usizeTryFrom, if_pos]
  rw [usizeMax]
  omega

variable {stored start stop}

theorem Mmap.run_readRange {sys : Mmap.System} {w : Mmap.World} {config : Mmap.Config}
    {inner : Mmap.Inner Mmap.Key} {key : Mmap.Key}
    (hget : (sys.run (Mmap.Fs.get config inner key) w).1.1 = .ok stored) :
    (sys.run (Mmap.Fs.readRange config inner key start stop) w).1.1 =
      match stored with
      | none => .returned (.ok none)
      | some value =>
        if InBounds start stop value then .returned (.ok (some (part start stop value)))
        else .returned (.error .outOfBounds) := by
  rw [Mmap.System.run] at hget
  rw [Mmap.System.run, Mmap.Fs.readRange, Program.run_bind]
  revert hget
  generalize (Mmap.Fs.get config inner key).run sys.exec w = out
  obtain ⟨⟨result, inner'⟩, w'⟩ := out
  rintro rfl
  cases stored with
  | none => rfl
  | some value =>
    simp only [usizeTryFrom_eq]
    by_cases hin : InBounds start stop value
    · have hslice : Mmap.slice value start.toNat stop.toNat = some (part start stop value) :=
        if_pos ⟨UInt64.le_iff_toNat_le.1 hin.1, hin.2⟩
      have hno : ¬ (start.toNat > stop.toNat ∨ stop.toNat > value.length) := by
        rintro (h | h)
        · exact absurd (UInt64.le_iff_toNat_le.1 hin.1) (by omega)
        · exact absurd hin.2 (by omega)
      rw [if_neg hno, hslice, if_pos hin]
      rfl
    · have hout : start.toNat > stop.toNat ∨ stop.toNat > value.length := by
        by_contra hno
        refine hin ⟨UInt64.le_iff_toNat_le.2 ?_, ?_⟩ <;> omega
      rw [if_pos hout, if_neg hin]
      rfl

/-- What a get finds is the file under the entry path. -/
theorem Disk.get_stored {sys : Disk.System} {fs : Disk.FileSystem} {root : Disk.Path}
    {key : String} (hget : ((Disk.DiskTier.get root key).run (Disk.exec sys) fs).1 = .ok stored) :
    stored = none ∧ fs.names.lookup (Disk.pathFor root key) = none ∨
      ∃ file, stored = some (fs.data file) ∧
        fs.names.lookup (Disk.pathFor root key) = some (.file file) := by
  rw [Disk.DiskTier.get, Program.run_bind, Program.run_ask] at hget
  simp only [Disk.exec] at hget
  cases hnode : fs.names.lookup (Disk.pathFor root key) with
  | none =>
    rw [hnode] at hget
    cases hget
    exact Or.inl ⟨rfl, rfl⟩
  | some node =>
    rw [hnode] at hget
    cases node with
    | dir => cases hget
    | file file =>
      cases hget
      exact Or.inr ⟨file, rfl, rfl⟩

/-- The file-per-key tier looks at the order of the offsets first, and at the length of the value
only through a read that comes up short. -/
theorem Disk.run_readRange {sys : Disk.System} {fs : Disk.FileSystem} {root : Disk.Path}
    {key : String} (allocates : Nat → Bool)
    (hget : ((Disk.DiskTier.get root key).run (Disk.exec sys) fs).1 = .ok stored) :
    ((Disk.DiskTier.readRange root allocates key start stop).run (Disk.exec sys) fs).1 =
      if start > stop then .returned (.error .invalidInput)
      else
        match stored with
        | none => .returned (.ok none)
        | some value =>
          if start.toNat > sys.seekMax then .returned (.error .invalidInput)
          else if stop.toNat - start.toNat > isizeMax then .panicked
          else if stop.toNat - start.toNat ≠ 0 ∧ allocates (stop.toNat - start.toNat) = false then
            .aborted
          else if start < stop ∧ value.length < stop.toNat then
            .returned (.error .unexpectedEof)
          else .returned (.ok (some (part start stop value))) := by
  rw [Disk.DiskTier.readRange]
  by_cases horder : start > stop
  · rw [if_pos horder, if_pos horder]
    rfl
  rw [if_neg horder, if_neg horder, Program.run_bind, Program.run_ask]
  have hle : start ≤ stop := UInt64.not_lt.1 horder
  simp only [Disk.exec, usizeTryFrom_eq, UInt64.toNat_sub_of_le _ _ hle]
  obtain ⟨rfl, hnode⟩ | ⟨file, rfl, hnode⟩ := Disk.get_stored hget
  · rw [hnode]
    rfl
  · simp only [hnode, Program.run_bind, Program.run_ask, Disk.exec]
    by_cases hseek : start.toNat > sys.seekMax
    · rw [if_pos hseek, if_pos hseek]
      rfl
    rw [if_neg hseek, if_neg hseek]
    by_cases hlarge : stop.toNat - start.toNat > isizeMax
    · simp only [if_pos hlarge]
      rfl
    simp only [if_neg hlarge]
    by_cases hfull : stop.toNat - start.toNat ≠ 0 ∧
        allocates (stop.toNat - start.toNat) = false
    · simp only [if_pos hfull]
      rfl
    simp only [if_neg hfull, Program.run_bind, Program.run_ask, Disk.exec]
    -- a read of no bytes is never short
    have hshort : (((fs.data file).drop start.toNat).take (stop.toNat - start.toNat)).length <
        stop.toNat - start.toNat ↔ start < stop ∧ (fs.data file).length < stop.toNat := by
      rw [List.length_take, List.length_drop, UInt64.lt_iff_toNat_lt]
      omega
    by_cases hlen : start < stop ∧ (fs.data file).length < stop.toNat
    · rw [if_pos (hshort.2 hlen), if_pos hlen]
      rfl
    · rw [if_neg (mt hshort.1 hlen), if_neg hlen]
      rfl

/-! ## Where the two are exact and agree -/

def Outcome.Fails {ε α : Type} (o : Outcome ε α) : Prop := ∃ e, o = .returned (.error e)

def Outcome.Agrees {ε ε' α : Type} (o : Outcome ε α) (o' : Outcome ε' α) : Prop :=
  (∃ a, o = .returned (.ok a) ∧ o' = .returned (.ok a)) ∨ o.Fails ∧ o'.Fails

/-- Both outcomes are the slice where the range lies in the value, errors where it does not, and
the same in every case. -/
structure ExactRange {ε ε' : Type} (stored : Option (List UInt8)) (start stop : UInt64)
    (o : Outcome ε (Option (List UInt8))) (o' : Outcome ε' (Option (List UInt8))) : Prop where
  inside : ∀ value, stored = some value → InBounds start stop value →
    o = .returned (.ok (some (part start stop value))) ∧
      o' = .returned (.ok (some (part start stop value)))
  outside : ∀ value, stored = some value → ¬ InBounds start stop value → o.Fails ∧ o'.Fails
  agree : o.Agrees o'

def HasBuffer (allocates : Nat → Bool) (len : Nat) : Prop :=
  len ≤ isizeMax ∧ (len = 0 ∨ allocates len = true)

instance (allocates : Nat → Bool) (len : Nat) : Decidable (HasBuffer allocates len) :=
  inferInstanceAs (Decidable (_ ∧ _))

/-- No inverted range of an absent key; for a present one, unless the range is inverted or its
start cannot be sought, there is a buffer for it, and it is not an empty one past the end. -/
def Tame (allocates : Nat → Bool) (seekMax : Nat) (stored : Option (List UInt8))
    (start stop : UInt64) : Prop :=
  match stored with
  | none => start ≤ stop
  | some value => start ≤ stop → start.toNat ≤ seekMax →
      HasBuffer allocates (stop.toNat - start.toNat) ∧
        ¬ (start = stop ∧ value.length < stop.toNat)

instance (allocates : Nat → Bool) (seekMax : Nat) (stored : Option (List UInt8))
    (start stop : UInt64) : Decidable (Tame allocates seekMax stored start stop) := by
  unfold Tame
  cases stored <;> infer_instance

theorem Outcome.not_fails_ok {ε α : Type} {a : α} :
    ¬ (Outcome.returned (.ok a) : Outcome ε α).Fails := by
  rintro ⟨e, h⟩
  cases h

theorem Outcome.not_fails_panicked {ε α : Type} : ¬ (Outcome.panicked : Outcome ε α).Fails := by
  rintro ⟨e, h⟩
  cases h

theorem Outcome.not_fails_aborted {ε α : Type} : ¬ (Outcome.aborted : Outcome ε α).Fails := by
  rintro ⟨e, h⟩
  cases h

/-- Out of the value, the slice fails, so the other call has to fail too. -/
theorem exactRange_of_not_within {ε ε' : Type} {value : List UInt8} {start stop : UInt64} {e : ε'}
    {o : Outcome ε (Option (List UInt8))} (hout : ¬ InBounds start stop value) :
    ExactRange (some value) start stop o (.returned (.error e)) ↔ o.Fails := by
  constructor
  · exact fun h => (h.outside value rfl hout).1
  · intro h
    refine ⟨?_, fun _ _ _ => ⟨h, e, rfl⟩, Or.inr ⟨h, e, rfl⟩⟩
    rintro _ ⟨⟩ hin
    exact absurd hin hout

/-- Inside the value, the slice succeeds, so the other call has to return it too. -/
theorem exactRange_of_within {ε ε' : Type} {value : List UInt8} {start stop : UInt64}
    {o : Outcome ε (Option (List UInt8))} (hin : InBounds start stop value) :
    ExactRange (some value) start stop o
        (.returned (.ok (some (part start stop value))) : Outcome ε' (Option (List UInt8))) ↔
      o = .returned (.ok (some (part start stop value))) := by
  constructor
  · exact fun h => (h.inside value rfl hin).1
  · rintro rfl
    refine ⟨?_, ?_, Or.inl ⟨_, rfl, rfl⟩⟩
    · rintro _ ⟨⟩ _
      exact ⟨rfl, rfl⟩
    · rintro _ ⟨⟩ hout
      exact absurd hin hout

theorem no_buffer_cases {allocates : Nat → Bool} {len : Nat} :
    ¬ HasBuffer allocates len ↔ len > isizeMax ∨ len ≠ 0 ∧ allocates len = false := by
  rw [HasBuffer, not_and_or, Nat.not_le, not_or, Bool.not_eq_true]

/-- Ranged reads of one stored value, or of none, through the two tiers are exact and agree just
where the range is tame. No file is longer than the largest offset that can be sought. -/
theorem ranged_reads_exact_iff {disk : Disk.System} {fs : Disk.FileSystem} {root : Disk.Path}
    {allocates : Nat → Bool} {mmap : Mmap.System} {w : Mmap.World} {config : Mmap.Config}
    {inner : Mmap.Inner Mmap.Key} {key : Mmap.Key} {stored : Option (List UInt8)}
    (hdisk : ((Disk.DiskTier.get root key.1).run (Disk.exec disk) fs).1 = .ok stored)
    (hmmap : (mmap.run (Mmap.Fs.get config inner key) w).1.1 = .ok stored)
    (hfits : ∀ value, stored = some value → value.length ≤ disk.seekMax) (start stop : UInt64) :
    ExactRange stored start stop
        ((Disk.DiskTier.readRange root allocates key.1 start stop).run (Disk.exec disk) fs).1
        (mmap.run (Mmap.Fs.readRange config inner key start stop) w).1.1 ↔
      Tame allocates disk.seekMax stored start stop := by
  rw [Disk.run_readRange allocates hdisk, Mmap.run_readRange hmmap]
  cases stored with
  | none =>
    by_cases horder : start > stop
    · rw [if_pos horder]
      refine iff_of_false (fun h => ?_) (UInt64.not_le.2 horder)
      obtain ⟨a, ha, -⟩ | ⟨-, hfails⟩ := h.agree
      · cases ha
      · exact Outcome.not_fails_ok hfails
    · rw [if_neg horder]
      refine iff_of_true ⟨nofun, nofun, Or.inl ⟨none, rfl, rfl⟩⟩ (UInt64.not_lt.1 horder)
  | some value =>
    have hvalue := hfits value rfl
    simp only [Tame]
    by_cases horder : start > stop
    · have hout : ¬ InBounds start stop value := fun hin => UInt64.not_le.2 horder hin.1
      rw [if_pos horder, if_neg hout, exactRange_of_not_within hout]
      exact iff_of_true ⟨_, rfl⟩ fun hle => absurd hle (UInt64.not_le.2 horder)
    have hle : start ≤ stop := UInt64.not_lt.1 horder
    have hle' := UInt64.le_iff_toNat_le.1 hle
    rw [if_neg horder]
    by_cases hseek : start.toNat > disk.seekMax
    · have hout : ¬ InBounds start stop value := fun hin => by
        have hlen := hin.2
        omega
      rw [if_pos hseek, if_neg hout, exactRange_of_not_within hout]
      exact iff_of_true ⟨_, rfl⟩ fun _ hseek' => absurd hseek' (Nat.not_le.2 hseek)
    rw [if_neg hseek]
    simp only [hle, Nat.le_of_not_lt hseek, forall_const]
    by_cases hbuffer : HasBuffer allocates (stop.toNat - start.toNat)
    · obtain ⟨hsmall, hroom⟩ := not_or.1 (mt no_buffer_cases.2 (not_not.2 hbuffer))
      rw [if_neg hsmall, if_neg hroom]
      by_cases hin : InBounds start stop value
      · rw [if_pos hin, exactRange_of_within hin, if_neg fun h => Nat.not_lt.2 hin.2 h.2]
        exact iff_of_true rfl ⟨hbuffer, fun h => Nat.not_lt.2 hin.2 h.2⟩
      · have hlen : value.length < stop.toNat := Nat.lt_of_not_le fun h => hin ⟨hle, h⟩
        rw [if_neg hin, exactRange_of_not_within hin]
        by_cases hlt : start < stop
        · rw [if_pos ⟨hlt, hlen⟩]
          exact iff_of_true ⟨_, rfl⟩ ⟨hbuffer, fun h => UInt64.ne_of_lt hlt h.1⟩
        · have heq : start = stop := UInt64.le_antisymm hle (UInt64.not_lt.1 hlt)
          rw [if_neg fun h => hlt h.1]
          exact iff_of_false Outcome.not_fails_ok fun h => h.2 ⟨heq, hlen⟩
    · have hlost {o : Outcome Disk.FsError (Option (List UInt8))}
          (ho : o = .panicked ∨ o = .aborted) : ¬ ExactRange (some value) start stop o
            (if InBounds start stop value then
              (.returned (.ok (some (part start stop value))) : Outcome Mmap.RangeError _)
            else .returned (.error .outOfBounds)) := by
        split
        · next hin =>
          rw [exactRange_of_within hin]
          obtain rfl | rfl := ho <;> nofun
        · next hout =>
          rw [exactRange_of_not_within hout]
          obtain rfl | rfl := ho
          · exact Outcome.not_fails_panicked
          · exact Outcome.not_fails_aborted
      refine iff_of_false (hlost ?_) fun h => hbuffer h.1
      obtain hlarge | hfull := no_buffer_cases.1 hbuffer
      · exact Or.inl (if_pos hlarge)
      · by_cases hlarge : stop.toNat - start.toNat > isizeMax
        · exact Or.inl (if_pos hlarge)
        · exact Or.inr (by rw [if_neg hlarge, if_pos hfull])

namespace Ranges

def dir : Disk.Path := [.rootDir, .normal ['c']]

def inOrder : Disk.System :=
  { order := fun _ names => names, listed := fun _ names => .refl names, seekMax := 2 ^ 44 - 4096
    seekMax_le := by decide }

def allocates (len : Nat) : Bool := len ≤ 2 ^ 30

def key : Mmap.Key := ⟨"k", by decide⟩

def files : Disk.FileSystem :=
  (Table.ofDirs [dir] []).create (Disk.pathFor dir key.1) [1, 2, 3]

def world : Mmap.World :=
  { dir := (∅ : Mmap.Directory).insert (Mmap.entryName key) [1, 2, 3], clock := 0 }

def reliable : Mmap.System := .plain fun _ => false

def config : Mmap.Config := { budget := none, eviction := .fifo }

def ofDisk (key : String) (start stop : UInt64) : Outcome Disk.FsError (Option Disk.Bytes) :=
  ((Disk.DiskTier.readRange dir allocates key start stop).run (Disk.exec inOrder) files).1

def ofMmap (key : Mmap.Key) (start stop : UInt64) :
    Outcome Mmap.RangeError (Option Disk.Bytes) :=
  (reliable.run (Mmap.Fs.readRange config (.scan []) key start stop) world).1.1

end Ranges

/-- The last two bytes of three. -/
theorem ranged_reads_exact_tail :
    ExactRange (some [1, 2, 3]) 1 3 (Ranges.ofDisk Ranges.key.1 1 3)
      (Ranges.ofMmap Ranges.key 1 3) :=
  (ranged_reads_exact_iff rfl rfl (by rintro _ ⟨⟩; decide) 1 3).2 (by decide)

/-- An empty range past the end of a value is an empty success of one tier; an inverted range of
an absent key is an error of one tier and absence to the other; a range far past the end makes
one tier ask for a buffer that it cannot have. -/
theorem ranged_reads_differ :
    Ranges.ofDisk "k" 7 7 = .returned (.ok (some [])) ∧
      Ranges.ofMmap Ranges.key 7 7 = .returned (.error .outOfBounds) ∧
      Ranges.ofDisk "j" 2 1 = .returned (.error .invalidInput) ∧
      Ranges.ofMmap ⟨"j", by decide⟩ 2 1 = .returned (.ok none) ∧
      Ranges.ofDisk "k" 0 1099511627776 = .aborted ∧
      Ranges.ofMmap Ranges.key 0 1099511627776 = .returned (.error .outOfBounds) ∧
      ¬ ExactRange (some [1, 2, 3]) 7 7 (Ranges.ofDisk "k" 7 7) (Ranges.ofMmap Ranges.key 7 7) := by
  have hempty : Ranges.ofDisk "k" 7 7 = .returned (.ok (some [])) := rfl
  refine ⟨hempty, rfl, rfl, rfl, rfl, rfl, fun h => ?_⟩
  rw [hempty] at h
  exact Outcome.not_fails_ok (h.outside _ rfl (by decide)).1

end Cases
end Tierstore
