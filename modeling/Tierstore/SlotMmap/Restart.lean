import Tierstore.SlotMmap.Rejected

/-! A restart keeps the bytes and nothing else. Headers alone delimit the records, whatever the
slots held before, and the scan finds the entries that the tier served. -/
namespace Tierstore.SlotMmap
open Runs
variable {slots slotSize : Nat} {before after inner : Inner}

structure Reopened (slots : Nat) (before after : Inner) : Prop where
  index : ∀ key, after.index.lookup key = before.index.lookup key
  served : ∀ key, ∃ found, before.fetch key = some found ∧ after.fetch key = some found
  free_nodup : after.free.Nodup
  rest_free : ∀ slot, slot ∈ after.free ↔
    slot < slots ∧ ∀ key, after.index.lookup key ≠ some slot
  distinct : Distinct slots after.slotSize after.mmap

/-- An indexed key is served what its record says. -/
theorem Sound.fetch (h : Sound slots inner) {key : String} {slot : Nat}
    (hkey : inner.index.lookup key = some slot) :
    ∃ value, readSlot inner.mmap inner.slotSize slot = some (some (key, value)) ∧
      inner.fetch key = some (some value) := by
  obtain ⟨value, hread⟩ := h.recorded.held key slot hkey
  refine ⟨value, hread, ?_⟩
  rw [Inner.fetch, hkey]
  simp only [hread]
  rfl

/-- Two sound tiers over the same bytes serve the same. -/
theorem Sound.reopened (hbefore : Sound slots before) (hafter : Sound slots after)
    (hmmap : after.mmap = before.mmap) (hslotSize : after.slotSize = before.slotSize) :
    Reopened slots before after := by
  have hindex : ∀ key, after.index.lookup key = before.index.lookup key := by
    refine fun key => Option.ext fun slot => ?_
    rw [hafter.lookup_iff, hbefore.lookup_iff, hmmap, hslotSize]
  refine ⟨hindex, fun key => ?_, hafter.partition.free_nodup, fun slot => ?_, hafter.distinct⟩
  · cases hkey : before.index.lookup key with
    | none =>
      refine ⟨none, ?_, ?_⟩
      · rw [Inner.fetch, hkey]
        rfl
      · rw [Inner.fetch, hindex, hkey]
        rfl
    | some slot =>
      obtain ⟨value, hread, hfetch⟩ := hbefore.fetch hkey
      obtain ⟨value', hread', hfetch'⟩ := hafter.fetch ((hindex key).trans hkey)
      rw [hmmap, hslotSize, hread] at hread'
      simp only [Option.some.injEq, Prod.mk.injEq, true_and] at hread'
      exact ⟨some value, hfetch, hread' ▸ hfetch'⟩
  · constructor
    · intro hfree
      exact ⟨(hafter.partition.covered slot).2 (.inl hfree), fun key hkey =>
        hafter.partition.apart key slot hkey hfree⟩
    · rintro ⟨hslot, hnone⟩
      obtain hfree | ⟨key, hkey⟩ := (hafter.partition.covered slot).1 hslot
      · exact hfree
      · exact absurd hkey (hnone key)

/-- With slots this small, whatever fits has lengths that the header can state. -/
theorem encodable_of_fits {key : String} {value : Bytes} (hmax : slotSize ≤ 65535)
    (hfits : Inner.needed key value ≤ slotSize) : Encodable key value := by
  rw [Inner.needed] at hfits
  rw [Encodable, u16Max, u32Max]
  omega

/-- No put is overlooked then. -/
theorem running_foldl {state : Checked Inner} (h : Running slots slotSize state)
    (hsize : header < slotSize) (hmax : slotSize ≤ 65535) (calls : List Call) :
    Running slots slotSize (calls.foldl step state) := by
  refine keeps (fun state c hstate => hstate.step hsize c fun hover => ?_) calls h
  obtain ⟨inner, rfl, rfl, -⟩ := hstate
  cases c with
  | put key value =>
    obtain ⟨_, hsome, hfits, -, -, henc⟩ := hover
    obtain rfl := Option.some.inj hsome
    exact henc (encodable_of_fits hmax (Inner.fits_iff.1 hfits))
  | get key => exact hover
  | getRef key => exact hover
  | «exists» key => exact hover
  | delete key => exact hover

/-- After any calls on a new file, its bytes reopen to the same entries; and on any bytes of the
right length, opening and every later call stay within bounds. -/
theorem survives_restart (hsize : header < slotSize) (slots : Nat) :
    (slotSize ≤ 65535 → ∀ (n : Nat) (calls : List Call), ∃ before after,
      calls.foldl step (openFile (List.replicate n 0) slots slotSize) = some before ∧
      openFile before.mmap slots slotSize = some after ∧ Reopened slots before after) ∧
    ∀ file : Bytes, file.length = slots * slotSize → ∀ calls : List Call, ∃ inner,
      calls.foldl step (openFile file slots slotSize) = some inner ∧
      ∀ key, (∃ found, inner.fetch key = some found) ∧ ∃ found, inner.getRef key = some found := by
  constructor
  · intro hmax n calls
    obtain ⟨new, hopen, hnew, hsound, -⟩ := openFile_zeros hsize slots n
    have hrunning : Running slots slotSize (openFile (List.replicate n 0) slots slotSize) :=
      ⟨new, hopen, hnew, hsound⟩
    obtain ⟨before, hbefore, rfl, hsound⟩ := running_foldl hrunning hsize hmax calls
    obtain ⟨after, hafter, hmmap, hslotSize, hreopened⟩ :=
      openFile_sound hsize hsound.length hsound.distinct
    exact ⟨before, after, hbefore, hafter, hsound.reopened hreopened hmmap hslotSize⟩
  · intro file hlength calls
    obtain ⟨opened, hopen, hrange⟩ := openFile_inRange hsize hlength
    have hstep : ∀ state c, (∃ inner, state = some inner ∧ InRange slots inner) →
        ∃ inner, step state c = some inner ∧ InRange slots inner := by
      intro state c ⟨inner, hstate, hinner⟩
      obtain ⟨answer, after, hperform, hafter⟩ := hinner.perform c
      exact ⟨after, by rw [hstate, step, Option.bind_some, hperform, Option.map_some], hafter⟩
    obtain ⟨inner, hinner, hrange⟩ := keeps hstep calls ⟨opened, hopen, hrange⟩
    exact ⟨inner, hinner, fun key => ⟨hrange.fetch key, hrange.getRef key⟩⟩

/-- The third put evicts the first entry and takes its slot, the fourth reuses the deleted one's.
Bytes that nobody wrote open as well. -/
theorem survives_restart_two_slots :
    let calls : List Call :=
      [.put "a" [1], .put "b" [2], .put "c" [3], .delete "b", .put "d" [4]]
    (∃ before after, calls.foldl step (openFile [] 2 16) = some before ∧
      openFile before.mmap 2 16 = some after ∧ Reopened 2 before after ∧
      ["a", "b", "c", "d"].map after.fetch =
        [some none, some none, some (some [3]), some (some [4])]) ∧
    ∃ inner, calls.foldl step (openFile (List.replicate 32 255) 2 16) = some inner ∧
      inner.fetch "d" = some (some [4]) := by
  intro calls
  obtain ⟨hzeros, hany⟩ := survives_restart (by decide : header < 16) 2
  obtain ⟨before, after, hbefore, hafter, hreopened⟩ := hzeros (by decide) 0 calls
  obtain ⟨inner, hinner, -⟩ := hany (List.replicate 32 255) (by simp) calls
  have hserved : ((calls.foldl step (openFile [] 2 16)).bind fun before =>
      openFile before.mmap 2 16).map (fun after => ["a", "b", "c", "d"].map after.fetch) =
        some [some none, some none, some (some [3]), some (some [4])] := by
    decide +kernel
  have hlast : (calls.foldl step (openFile (List.replicate 32 255) 2 16)).map
      (fun inner => inner.fetch "d") = some (some (some [4])) := by
    decide +kernel
  refine ⟨⟨before, after, hbefore, hafter, hreopened, ?_⟩, inner, hinner, ?_⟩
  · rw [List.replicate_zero] at hbefore
    rw [hbefore, Option.bind_some, hafter] at hserved
    exact Option.some.inj hserved
  · rw [hinner] at hlast
    exact Option.some.inj hlast

end Tierstore.SlotMmap
