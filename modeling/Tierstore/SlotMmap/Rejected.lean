import Tierstore.SlotMmap.Opening

/-! Puts that fail. The size check bounds the bytes of a whole entry, the slot writer those of its
key and of its value: an entry between the two bounds gives up a slot before it is refused. -/
namespace Tierstore.SlotMmap
open Runs
variable {slots slotSize : Nat} {inner : Inner}

def Untouched (inner after : Inner) : Prop :=
  after.index = inner.index ∧ after.order = inner.order ∧ after.free = inner.free ∧
    ∀ key, after.fetch key = inner.fetch key

def Call.Rejected : (c : Call) → c.Output → Prop
  | .put _ _, answer => ∃ e, answer = .error e
  | _, _ => False

/-- The call returns and leaves every slot either free or with one key; if it is a put that fails,
nothing has changed. -/
def Harmless (slots : Nat) (state : Checked Inner) (c : Call) : Prop :=
  ∃ inner answer after, state = some inner ∧ inner.perform c = some (answer, after) ∧
    Partitioned slots after ∧ (c.Rejected answer → Untouched inner after)

/-- The call is a put that is refused only once it has its slot. -/
def Overlooked (slots : Nat) (state : Checked Inner) : Call → Prop
  | .put key value => ∃ inner, state = some inner ∧ inner.Overlooks slots key value
  | _ => False

def Running (slots slotSize : Nat) (state : Checked Inner) : Prop :=
  ∃ inner, state = some inner ∧ inner.slotSize = slotSize ∧ Sound slots inner

theorem Sound.inRange (h : Sound slots inner) (hsize : header < inner.slotSize) :
    InRange slots inner where
  length := h.length
  roomy := hsize
  index_lt := fun _ _ hkey => h.partition.lt hkey
  free_lt := fun slot hslot => (h.partition.covered slot).2 (.inl hslot)

/-- What a call that is not overlooked does to a sound tier. -/
theorem Sound.perform (h : Sound slots inner) (hsize : header < inner.slotSize) (c : Call)
    (hc : ¬ Overlooked slots (some inner) c) :
    ∃ answer after, inner.perform c = some (answer, after) ∧ Sound slots after ∧
      after.slotSize = inner.slotSize ∧ (c.Rejected answer → after = inner) := by
  cases c with
  | get key =>
    obtain ⟨found, hfound⟩ := (h.inRange hsize).fetch key
    exact ⟨found, inner, by rw [Inner.perform, hfound, Option.map_some], h, rfl, fun _ => rfl⟩
  | getRef key =>
    obtain ⟨found, hfound⟩ := (h.inRange hsize).getRef key
    exact ⟨found, inner, by rw [Inner.perform, hfound, Option.map_some], h, rfl, fun _ => rfl⟩
  | «exists» key => exact ⟨_, inner, rfl, h, rfl, fun _ => rfl⟩
  | put key value =>
    obtain ⟨answer, after, hinsert, hsound, hslotSize, hsame⟩ :=
      h.insert fun hover => hc ⟨inner, rfl, hover⟩
    exact ⟨answer, after, hinsert, hsound, hslotSize, fun hrejected => hrejected.elim hsame⟩
  | delete key =>
    obtain ⟨existed, after, hremove, hsound, hslotSize⟩ := h.remove key
    exact ⟨existed, after, hremove, hsound, hslotSize, fun hrejected => hrejected.elim⟩

theorem Running.step {state : Checked Inner} (h : Running slots slotSize state)
    (hsize : header < slotSize) (c : Call) (hc : ¬ Overlooked slots state c) :
    Running slots slotSize (step state c) := by
  obtain ⟨inner, rfl, rfl, hsound⟩ := h
  obtain ⟨answer, after, hperform, hafter, hslotSize, -⟩ := hsound.perform hsize c hc
  refine ⟨after, ?_, hslotSize, hafter⟩
  rw [SlotMmap.step, Option.bind_some, hperform, Option.map_some]

/-- One call does no harm exactly if it is not overlooked. -/
theorem Running.along_harmless {state : Checked Inner} (h : Running slots slotSize state)
    (hsize : header < slotSize) (c : Call) :
    Harmless slots state c ↔ ¬ Overlooked slots state c := by
  obtain ⟨inner, rfl, rfl, hsound⟩ := h
  constructor
  · intro hharmless hover
    obtain ⟨_, answer, after, hstate, hperform, -, hsame⟩ := hharmless
    obtain rfl := Option.some.inj hstate
    cases c with
    | put key value =>
      obtain ⟨_, hstate', hover⟩ := hover
      obtain rfl := Option.some.inj hstate'
      obtain ⟨e, spoiled, hinsert, hcost⟩ := hsound.insert_overlooked hover
      simp only [Inner.perform, hinsert, Option.some.injEq, Prod.mk.injEq] at hperform
      obtain ⟨rfl, rfl⟩ := hperform
      obtain ⟨-, horder, hfree, -⟩ := hsame ⟨e, rfl⟩
      obtain hne | hne := hcost
      · exact hne hfree
      · exact hne horder
    | get key => exact hover
    | getRef key => exact hover
    | «exists» key => exact hover
    | delete key => exact hover
  · intro hc
    obtain ⟨answer, after, hperform, hafter, -, hsame⟩ := hsound.perform hsize c hc
    refine ⟨inner, answer, after, rfl, hperform, hafter.partition, fun hrejected => ?_⟩
    obtain rfl := hsame hrejected
    exact ⟨rfl, rfl, rfl, fun _ => rfl⟩

/-- From a new file, all calls of a run are harmless exactly if none is an overlooked put. -/
theorem harmless_iff (hsize : header < slotSize) (slots n : Nat) (calls : List Call) :
    Along step (Harmless slots) (openFile (List.replicate n 0) slots slotSize) calls ↔
      Along step (fun state c => ¬ Overlooked slots state c)
        (openFile (List.replicate n 0) slots slotSize) calls := by
  obtain ⟨inner, hopen, hslotSize, hsound, -⟩ := openFile_zeros hsize slots n
  have hrunning : Running slots slotSize (openFile (List.replicate n 0) slots slotSize) :=
    ⟨inner, hopen, hslotSize, hsound⟩
  exact along_congr (fun state c hstate => hstate.along_harmless hsize c)
    (fun state c hstate hc => hstate.step hsize c hc) hrunning calls

/-- The second put evicts the first entry, a delete gives the slot back, and a third put takes
it. -/
theorem harmless_iff_one_slot :
    let calls : List Call := [.put "a" [1], .put "b" [2], .delete "b", .put "c" [3]]
    Along step (Harmless 1) (openFile [] 1 16) calls ∧
      (calls.foldl step (openFile [] 1 16)).map (fun inner => ["a", "b", "c"].map inner.fetch) =
        some [some none, some none, some (some [3])] := by
  intro calls
  refine ⟨(harmless_iff (by decide) 1 0 calls).2 ⟨?_, ?_, id, ?_, trivial⟩, by decide +kernel⟩
  · rintro ⟨_, -, -, -, -, henc⟩
    exact henc (by decide)
  · rintro ⟨_, -, -, -, -, henc⟩
    exact henc (by decide)
  · rintro ⟨_, -, -, -, -, henc⟩
    exact henc (by decide)

/-! ## A key too long -/

theorem length_asBytes_replicate (n : Nat) :
    (asBytes (String.ofList (List.replicate n 'a'))).length = n := by
  rw [asBytes, String.toUTF8_eq_toByteArray, String.toByteArray_ofList, Array.length_toList]
  induction n with
  | zero => rfl
  | succ n ih =>
    have hone : (['a'].utf8Encode).data.size = 1 := by decide
    rw [List.replicate_succ, List.utf8Encode_cons, ByteArray.data_append, Array.size_append, ih,
      hone, Nat.add_comm]

def longKey : String := String.ofList (List.replicate (2 ^ 16) 'a')

/-- A slot that is large enough for the key is lost to it. -/
theorem rejected_put_leaks :
    ¬ Along step (Harmless 1) (openFile [] 1 (header + 2 ^ 16)) [.put longKey []] := by
  have hsize : header < header + 2 ^ 16 := by decide
  have hlength : (asBytes longKey).length = 2 ^ 16 := length_asBytes_replicate (2 ^ 16)
  obtain ⟨inner, hopen, hslotSize, hsound, hnone⟩ := openFile_zeros hsize 1 0
  rw [List.replicate_zero] at hopen
  have hrunning : Running 1 (header + 2 ^ 16) (openFile [] 1 (header + 2 ^ 16)) :=
    ⟨inner, hopen, hslotSize, hsound⟩
  intro hall
  refine (hrunning.along_harmless hsize (.put longKey [])).1 hall.1 ⟨inner, hopen, ?_⟩
  refine ⟨Inner.fits_iff.2 ?_, hnone longKey, Nat.one_pos, fun henc => ?_⟩
  · rw [Inner.needed, hlength, hslotSize, List.length_nil, Nat.add_zero]
  · have hle := henc.1
    rw [hlength, u16Max] at hle
    omega

end Tierstore.SlotMmap
