import Tierstore.MemoryOrder
import Tierstore.Mmap.Restart

/-! The mmap tier beside the memory tier: with the same budget both keep the ordered list of
their values, priced by length. -/
namespace Tierstore.Mmap
open Effects ItemShelf

def byLength (limits : Limits) (eviction : Eviction) (shelf : ItemShelf Key Bytes) :
    OrderedTier Key Bytes :=
  { limits, eviction, weigh := fun _ value => value.length, shelf }

section Disk
variable {sys : System} {w : World} {config : Config} {inner : Inner Key}
  {shelf : ItemShelf Key Bytes}

structure Answers {α : Type} (sys : System) (w : World) (call : FsM (Except FsError α × Inner Key))
    (ref : α × ItemShelf Key Bytes) : Prop where
  answer : (sys.run call w).1.1 = .ok ref.1
  synced : Synced (sys.run call w).1.2 (sys.run call w).2.dir ref.2

theorem get_answers (hcalm : sys.Calm) (h : Synced inner w.dir shelf)
    (hroom : shelf.length + 1 < 2 ^ 64) (key : Key) :
    Answers sys w (Fs.get config inner key) (Ordered.read config.eviction shelf key) := by
  obtain ⟨inner', clock, ⟨hrun, hsynced⟩ | ⟨-, hmiss⟩⟩ := System.get_run sys h hroom config key
  · refine ⟨?_, ?_⟩
    · rw [hrun, Ordered.read, h.values]
    · rw [hrun]
      exact hsynced
  · rw [hcalm.misses] at hmiss
    cases hmiss

theorem put_answers (hcalm : sys.Calm) (h : Synced inner w.dir shelf)
    (hroom : shelf.length + 1 < 2 ^ 64) {key : Key} {value : Bytes}
    (hfits : shelf.total + value.length ≤ usizeMax) :
    Answers sys w (Fs.put config inner key value)
      (Ordered.write config.limits config.eviction shelf (itemOf key value)) := by
  have hplace : (Ordered.place config.eviction shelf (itemOf key value)).total ≤ usizeMax := by
    have htotal := Ordered.total_place config.eviction h.nodup (itemOf key value)
    change _ = shelf.total + value.length at htotal
    omega
  obtain ⟨w', ⟨hstores, -⟩ | ⟨hloses, -⟩ | ⟨out, inner', hrun, hsynced, hout⟩⟩ :=
    System.put_run sys h hroom hplace (hcalm.unlinks _ _)
  · simp [System.stores, hcalm _] at hstores
  · simp [System.loses, hcalm _] at hloses
  · refine ⟨?_, ?_⟩
    · rw [hrun, hout hcalm]
    · rw [hrun]
      exact hsynced

theorem delete_answers (hcalm : sys.Calm) (h : Synced inner w.dir shelf) (key : Key) :
    Answers sys w (Fs.delete inner key) (Ordered.remove shelf key) := by
  obtain ⟨result, w', hrun, ⟨hfails, -⟩ | ⟨-, hresult, hfile⟩⟩ := System.delete_run sys w inner key
  · rw [hcalm] at hfails
    cases hfails
  · refine ⟨?_, ?_⟩
    · rw [hrun, hresult, Ordered.remove, ← h.values, Option.isSome_map]
    · rw [hrun]
      exact h.forget hfile

theorem Answers.cons {α β : Type} {one : Inner Key → α → FsM (Except FsError β × Inner Key)}
    {a : α} {rest : List α} {first : β × ItemShelf Key Bytes} {more : List β × ItemShelf Key Bytes}
    (h : Answers sys w (one inner a) first)
    (hrest : ∀ inner' w', Synced inner' w'.dir first.2 →
      Answers sys w' (Fs.each one inner' rest) more) :
    Answers sys w (Fs.each one inner (a :: rest)) (first.1 :: more.1, more.2) := by
  obtain ⟨hanswer, hsynced⟩ := hrest _ _ h.synced
  obtain ⟨out, hone⟩ : ∃ out, sys.run (one inner a) w = out := ⟨_, rfl⟩
  have hfirst := h.answer
  rw [hone] at hfirst hanswer hsynced
  obtain ⟨⟨result, inner'⟩, w'⟩ := out
  cases hfirst
  have heach : sys.run (Fs.each one inner (a :: rest)) w =
      (((sys.run (Fs.each one inner' rest) w').1.1.map (first.1 :: ·),
        (sys.run (Fs.each one inner' rest) w').1.2), (sys.run (Fs.each one inner' rest) w').2) := by
    rw [Fs.each, System.run_bind, hone]
    dsimp only
    rw [System.run_bind]
    rfl
  refine ⟨?_, ?_⟩
  · rw [heach]
    exact congrArg (Except.map (first.1 :: ·)) hanswer
  · rw [heach]
    exact hsynced

theorem getMany_answers (hcalm : sys.Calm) (h : Synced inner w.dir shelf) (keys : List Key)
    (hroom : shelf.length + keys.length < 2 ^ 64) :
    Answers sys w (Fs.each (Fs.get config) inner keys)
      (Ordered.readBatch config.eviction shelf keys) := by
  induction keys generalizing inner w shelf with
  | nil => exact ⟨rfl, h⟩
  | cons key rest ih =>
    rw [List.length_cons] at hroom
    refine (get_answers hcalm h (by omega) key).cons fun inner' w' h' => ih h' ?_
    rw [Ordered.read, Ordered.length_use _ h.nodup]
    omega

def writes (config : Config) : ItemShelf Key Bytes → List (Key × Bytes) →
    List (Displaced Key Bytes) × ItemShelf Key Bytes
  | shelf, [] => ([], shelf)
  | shelf, entry :: rest =>
    let first := Ordered.write config.limits config.eviction shelf (itemOf entry.1 entry.2)
    let more := writes config first.2 rest
    (first.1 :: more.1, more.2)

theorem writes_flatten (config : Config) (shelf : ItemShelf Key Bytes)
    (entries : List (Key × Bytes)) :
    ((writes config shelf entries).1.flatten, (writes config shelf entries).2) =
      Ordered.writeBatch config.limits config.eviction shelf
        (entries.map fun entry => itemOf entry.1 entry.2) := by
  induction entries generalizing shelf with
  | nil => rfl
  | cons entry rest ih =>
    rw [List.map_cons, Ordered.writeBatch, ← ih]
    rfl

theorem putMany_answers (hcalm : sys.Calm) (h : Synced inner w.dir shelf)
    (entries : List (Key × Bytes)) (hroom : shelf.length + entries.length < 2 ^ 64)
    (hfits : Ordered.Affords config.limits config.eviction shelf
      (entries.map fun entry => itemOf entry.1 entry.2)) :
    Answers sys w (Fs.each (fun inner entry => Fs.put config inner entry.1 entry.2) inner entries)
      (writes config shelf entries) := by
  induction entries generalizing inner w shelf with
  | nil => exact ⟨rfl, h⟩
  | cons entry rest ih =>
    rw [List.length_cons] at hroom
    have hfirst : Answers sys w (Fs.put config inner entry.1 entry.2)
        (Ordered.write config.limits config.eviction shelf (itemOf entry.1 entry.2)) :=
      put_answers hcalm h (by omega) hfits.1
    have hlen := Ordered.length_write config.limits config.eviction shelf (itemOf entry.1 entry.2)
    refine hfirst.cons (a := entry) fun inner' w' h' => ?_
    exact ih h' (by omega) hfits.2

theorem deleteMany_answers (hcalm : sys.Calm) (h : Synced inner w.dir shelf) (keys : List Key) :
    Answers sys w (Fs.each Fs.delete inner keys) (Ordered.removeBatch shelf keys) := by
  induction keys generalizing inner w shelf with
  | nil => exact ⟨rfl, h⟩
  | cons key rest ih => exact (delete_answers hcalm h key).cons fun inner' w' h' => ih h'

/-- A call that the counters can take answers as the list does. -/
theorem call_answers (hcalm : sys.Calm) (h : Synced inner w.dir shelf) (c : TierCall Key Bytes)
    (hroom : shelf.length + (OrderedCall.tier c).moves < 2 ^ 64)
    (hfits : (byLength config.limits config.eviction shelf).Affords (.tier c)) :
    (sys.run (Fs.call config inner c) w).1.1.toOption =
        ((byLength config.limits config.eviction shelf).perform (.tier c)).1.toOption ∧
      Synced (sys.run (Fs.call config inner c) w).1.2 (sys.run (Fs.call config inner c) w).2.dir
        ((byLength config.limits config.eviction shelf).perform (.tier c)).2.shelf := by
  cases c with
  | get key =>
    obtain ⟨hanswer, hsynced⟩ := get_answers hcalm h hroom key
    exact ⟨congrArg Except.toOption hanswer, hsynced⟩
  | exists_ key =>
    obtain ⟨clock, hrun | ⟨hfails, -⟩⟩ := System.exists_run sys h key
    · rw [Fs.call, hrun]
      refine ⟨?_, h⟩
      rw [← h.values, Option.isSome_map]
      rfl
    · rw [hcalm] at hfails
      cases hfails
  | getMany keys =>
    obtain ⟨hanswer, hsynced⟩ := getMany_answers hcalm h keys hroom
    exact ⟨congrArg Except.toOption hanswer, hsynced⟩
  | put key value =>
    obtain ⟨hanswer, hsynced⟩ := put_answers hcalm h hroom hfits.1
    exact ⟨congrArg Except.toOption hanswer, hsynced⟩
  | delete key =>
    obtain ⟨hanswer, hsynced⟩ := delete_answers hcalm h key
    exact ⟨congrArg Except.toOption hanswer, hsynced⟩
  | putMany entries =>
    obtain ⟨hanswer, hsynced⟩ := putMany_answers hcalm h entries hroom hfits
    have hflat := writes_flatten config shelf entries
    have hperform : (byLength config.limits config.eviction shelf).perform
        (.tier (.putMany entries)) =
          (.ok (writes config shelf entries).1.flatten,
            byLength config.limits config.eviction (writes config shelf entries).2) := by
      change (Except.ok (Ordered.writeBatch config.limits config.eviction shelf
        (entries.map fun entry => itemOf entry.1 entry.2)).1, byLength config.limits
          config.eviction (Ordered.writeBatch config.limits config.eviction shelf
            (entries.map fun entry => itemOf entry.1 entry.2)).2) = _
      rw [← hflat]
    rw [hperform, Fs.call, System.run_bind]
    exact ⟨congrArg (fun r => (r.map List.flatten).toOption) hanswer, hsynced⟩
  | deleteMany keys =>
    obtain ⟨hanswer, hsynced⟩ := deleteMany_answers hcalm h keys
    exact ⟨congrArg Except.toOption hanswer, hsynced⟩

end Disk

/-! ## Runs -/

def observeMemory (tier : MemoryTier Key Bytes) (c : TierCall Key Bytes) :
    (Option c.Output × Nat) × MemoryTier Key Bytes :=
  let out := tier.perform (.tier c)
  ((out.1.toOption, out.2.weight), out.2)

def observeList (tier : OrderedTier Key Bytes) (c : TierCall Key Bytes) :
    (Option c.Output × Nat) × OrderedTier Key Bytes :=
  let out := tier.perform (.tier c)
  ((out.1.toOption, out.2.shelf.total), out.2)

def Machine.observe (sys : System) (m : Machine) (c : TierCall Key Bytes) :
    (Option c.Output × Nat) × Machine :=
  match m.tier with
  | none => ((none, 0), m)
  | some handle =>
    let out := sys.run (Fs.call handle.config handle.inner c) m.world
    ((out.1.1.toOption, out.1.2.total),
      { world := out.2, tier := some { handle with inner := out.1.2 } })

def Takes (ref : OrderedTier Key Bytes) (c : TierCall Key Bytes) : Prop :=
  ref.Affords (.tier c) ∧ ref.shelf.length + (OrderedCall.tier c).moves < 2 ^ 64

instance decideTakes (ref : OrderedTier Key Bytes) (c : TierCall Key Bytes) :
    Decidable (Takes ref c) := inferInstanceAs (Decidable (_ ∧ _ < _))

def Machine.Keeps (m : Machine) (ref : OrderedTier Key Bytes) : Prop :=
  ∃ handle, m.tier = some handle ∧
    ref = byLength handle.config.limits handle.config.eviction ref.shelf ∧
    Synced handle.inner m.world.dir ref.shelf

theorem Machine.Keeps.step {sys : System} (hcalm : sys.Calm) {m : Machine}
    {ref : OrderedTier Key Bytes} (h : m.Keeps ref) {c : TierCall Key Bytes}
    (htakes : Takes ref c) :
    (m.observe sys c).1 = (observeList ref c).1 ∧
      (m.observe sys c).2.Keeps (observeList ref c).2 := by
  obtain ⟨handle, htier, href, hsynced⟩ := h
  obtain ⟨haffords, hroom⟩ := htakes
  rw [href] at haffords
  obtain ⟨hanswer, hnext⟩ := call_answers hcalm hsynced c hroom haffords
  rw [← href] at hanswer hnext
  have hobserve : m.observe sys c =
      (((sys.run (Fs.call handle.config handle.inner c) m.world).1.1.toOption,
        (sys.run (Fs.call handle.config handle.inner c) m.world).1.2.total),
      { world := (sys.run (Fs.call handle.config handle.inner c) m.world).2
        tier := some { handle with
          inner := (sys.run (Fs.call handle.config handle.inner c) m.world).1.2 } }) := by
    simp only [Machine.observe, htier]
  rw [hobserve]
  refine ⟨?_, _, rfl, ?_, hnext⟩
  · rw [hanswer, hnext.shelved.total]
    rfl
  · have hkept := ref.perform_eq (.tier c)
    change (ref.perform (.tier c)).2 = _
    rw [hkept, href]
    rfl

/-- Without failing calls the mmap tier answers as the list does. -/
theorem Machine.Keeps.log {sys : System} (hcalm : sys.Calm) {m : Machine}
    {ref : OrderedTier Key Bytes} (h : m.Keeps ref) {calls : List (TierCall Key Bytes)}
    (htakes : Runs.Along (fun ref c => (observeList ref c).2) Takes ref calls) :
    Runs.log (Machine.observe sys) m calls = Runs.log observeList ref calls := by
  induction calls generalizing m ref with
  | nil => rfl
  | cons c rest ih =>
    obtain ⟨hanswer, hnext⟩ := h.step hcalm htakes.1
    rw [Runs.log, Runs.log, hanswer, ih hnext htakes.2]

/-! ## The memory tier -/

def priced (budget : ℕ+) (eviction : Eviction) : MemoryTier Key Bytes :=
  (MemoryTier.boundedBytes budget fun _ value => Fin.ofNat (2 ^ 64) value.length).withEviction
    eviction

def opened (sys : System) (clock : Nat) (budget : ℕ+) (eviction : Eviction) : Machine :=
  Machine.run sys { world := { dir := ∅, clock }, tier := none }
    [.done (.opening (some budget)), .withEviction eviction]

theorem affords_price {limits : Limits} {eviction : Eviction} {shelf : ItemShelf Key Bytes}
    {items : List (Item Key Bytes)} (h : Ordered.Affords limits eviction shelf items) :
    ∀ item ∈ items, item.price ≤ usizeMax := by
  induction items generalizing shelf with
  | nil => exact fun _ hitem => absurd hitem List.not_mem_nil
  | cons first rest ih =>
    intro item hitem
    obtain rfl | hrest := List.mem_cons.1 hitem
    · exact (Nat.le_add_left _ _).trans h.1
    · exact ih h.2 item hrest

section Memory
variable {budget : ℕ+} {eviction : Eviction} {inner : Tierstore.Inner Key Bytes}
  {shelf : ItemShelf Key Bytes}

/-- Prices are lengths where they fit a `usize`. -/
theorem priced_item {key : Key} {value : Bytes} (h : value.length ≤ usizeMax) :
    ((priced budget eviction).reference shelf).item (key, value) = itemOf key value := by
  have hlt : value.length < 2 ^ 64 := Nat.lt_of_le_pred (by decide) h
  have hprice : (Fin.ofNat (2 ^ 64) value.length : Usize).val = value.length :=
    Nat.mod_eq_of_lt hlt
  simp only [OrderedTier.item, itemOf, Item.mk.injEq, true_and]
  exact hprice

theorem reference_perform {c : TierCall Key Bytes}
    (hfits : (byLength (priced budget eviction).limits eviction shelf).Affords (.tier c)) :
    (((priced budget eviction).reference shelf).perform (.tier c)).1 =
        ((byLength (priced budget eviction).limits eviction shelf).perform (.tier c)).1 ∧
      (((priced budget eviction).reference shelf).perform (.tier c)).2.shelf =
        ((byLength (priced budget eviction).limits eviction shelf).perform (.tier c)).2.shelf ∧
      ((priced budget eviction).reference shelf).Affords (.tier c) := by
  cases c with
  | put key value =>
    have hitem : ((priced budget eviction).reference shelf).item (key, value) =
        (byLength (priced budget eviction).limits eviction shelf).item (key, value) :=
      priced_item (affords_price hfits _ List.mem_cons_self)
    change (Except.ok (Ordered.write _ _ _ (((priced budget eviction).reference shelf).item _)).1 =
      _) ∧ (Ordered.write _ _ _ (((priced budget eviction).reference shelf).item _)).2 = _ ∧
        Ordered.Affords _ _ _ [((priced budget eviction).reference shelf).item _]
    rw [hitem]
    exact ⟨rfl, rfl, hfits⟩
  | putMany entries =>
    have hitems : entries.map ((priced budget eviction).reference shelf).item =
        entries.map (byLength (priced budget eviction).limits eviction shelf).item := by
      refine List.map_congr_left fun entry hentry => ?_
      exact priced_item (affords_price hfits _ (List.mem_map_of_mem hentry))
    change (Except.ok (Ordered.writeBatch _ _ _
      (entries.map ((priced budget eviction).reference shelf).item)).1 = _) ∧
        (Ordered.writeBatch _ _ _
          (entries.map ((priced budget eviction).reference shelf).item)).2 = _ ∧
        Ordered.Affords _ _ _ (entries.map ((priced budget eviction).reference shelf).item)
    rw [hitems]
    exact ⟨rfl, rfl, hfits⟩
  | get _ | exists_ _ | getMany _ | delete _ | deleteMany _ => exact ⟨rfl, rfl, trivial⟩

def Lists (budget : ℕ+) (eviction : Eviction) (tier : MemoryTier Key Bytes)
    (ref : OrderedTier Key Bytes) : Prop :=
  ∃ inner, tier = { priced budget eviction with inner } ∧
    ref = byLength (priced budget eviction).limits eviction ref.shelf ∧
    inner.Shelved ref.shelf

theorem Lists.step {tier : MemoryTier Key Bytes} {ref : OrderedTier Key Bytes}
    (h : Lists budget eviction tier ref) {c : TierCall Key Bytes} (hstamps : tier.Stamped (.tier c))
    (haffords : ref.Affords (.tier c)) :
    Takes ref c ∧ (observeMemory tier c).1 = (observeList ref c).1 ∧
      Lists budget eviction (observeMemory tier c).2 (observeList ref c).2 := by
  obtain ⟨inner, rfl, href, hshelved⟩ := h
  have hroom := hshelved.bounded
  change inner.nextStamp.toNat + _ < _ at hstamps
  have hfits := haffords
  rw [href] at hfits
  obtain ⟨hanswer, hshelf, hpriced⟩ := reference_perform hfits
  rw [← href] at hanswer hshelf
  have htier : (({ priced budget eviction with inner } : MemoryTier Key Bytes).perform
      (.tier c)).2 = { priced budget eviction with
        inner := (({ priced budget eviction with inner } : MemoryTier Key Bytes).perform
          (.tier c)).2.inner } := by
    cases c <;> rfl
  have hkept : ({ priced budget eviction with inner } : MemoryTier Key Bytes).inner.Shelved
      ref.shelf := hshelved
  obtain ⟨shelf', hout, hnext, hshelved', -⟩ :=
    MemoryTier.perform_refines hkept hstamps hpriced
  have hsame : shelf' = (ref.perform (.tier c)).2.shelf := by
    rw [← hshelf]
    exact (congrArg OrderedTier.shelf hnext).symm
  subst hsame
  refine ⟨⟨haffords, by omega⟩, ?_, _, htier, ?_, hshelved'⟩
  · refine Prod.ext ?_ hshelved'.total
    exact congrArg Except.toOption (hout.trans hanswer)
  · change (ref.perform (.tier c)).2 = _
    rw [ref.perform_eq, href]
    rfl

theorem Lists.log {tier : MemoryTier Key Bytes} {ref : OrderedTier Key Bytes}
    (h : Lists budget eviction tier ref) {calls : List (TierCall Key Bytes)}
    (hstamps : Runs.Along (fun tier c => (observeMemory tier c).2)
      (fun tier c => tier.Stamped (.tier c)) tier calls)
    (haffords : Runs.Along (fun ref c => (observeList ref c).2)
      (fun ref c => ref.Affords (.tier c)) ref calls) :
    Runs.log observeMemory tier calls = Runs.log observeList ref calls ∧
      Runs.Along (fun ref c => (observeList ref c).2) Takes ref calls := by
  induction calls generalizing tier ref with
  | nil => exact ⟨rfl, trivial⟩
  | cons c rest ih =>
    obtain ⟨htakes, hanswer, hnext⟩ := h.step hstamps.1 haffords.1
    obtain ⟨hlog, hrest⟩ := ih hnext hstamps.2 haffords.2
    refine ⟨?_, htakes, hrest⟩
    rw [Runs.log, Runs.log, hanswer, hlog]

end Memory

theorem opened_keeps {sys : System} (hcalm : sys.Calm) (clock : Nat) (budget : ℕ+)
    (eviction : Eviction) :
    (opened sys clock budget eviction).Keeps
      (byLength (priced budget eviction).limits eviction []) := by
  obtain ⟨result, clock', hrun, hok, hsynced⟩ := System.openInner_run sys
    (w := { dir := ∅, clock }) owned_empty (show Counted ∅ by decide +kernel)
  obtain ⟨inner, rfl⟩ := hok hcalm
  obtain ⟨shelf, hshelf⟩ := hsynced inner rfl
  have hnil : shelf = [] := by
    cases shelf with
    | nil => rfl
    | cons item rest =>
      have hfind := hshelf.files item.key
      rw [find_cons, if_pos rfl] at hfind
      cases hfind
  subst hnil
  refine ⟨{ config := { budget := some budget, eviction }, inner }, ?_, rfl, ?_⟩
  · simp [opened, Machine.run, Machine.step, Machine.finish, hrun]
  · simp only [opened, Machine.run, List.foldl_cons, List.foldl_nil, Machine.step, Machine.finish,
      hrun]
    exact hshelf

/-- As long as the stamps of the memory tier last, both tiers give the same answers and hold the
same number of bytes after every call. -/
theorem mmap_evicts_as_memory (sys : System) (hcalm : sys.Calm) (clock : Nat) (budget : ℕ+)
    (eviction : Eviction) (calls : List (TierCall Key Bytes))
    (hfits : Runs.Along (fun ref c => (observeList ref c).2) (fun ref c => ref.Affords (.tier c))
      (byLength (priced budget eviction).limits eviction []) calls)
    (hstamps : Runs.Along (fun tier c => (observeMemory tier c).2)
      (fun tier c => tier.Stamped (.tier c)) (priced budget eviction) calls) :
    Runs.log (Machine.observe sys) (opened sys clock budget eviction) calls =
      Runs.log observeMemory (priced budget eviction) calls := by
  have hlists : Lists budget eviction (priced budget eviction)
      (byLength (priced budget eviction).limits eviction []) :=
    ⟨.new, rfl, rfl, Inner.shelved_new⟩
  obtain ⟨hlog, htakes⟩ := hlists.log hstamps hfits
  rw [hlog]
  exact (opened_keeps hcalm clock budget eviction).log hcalm htakes

namespace Wrapped

def one : Key := ⟨"1", by decide⟩
def two : Key := ⟨"2", by decide⟩
def three : Key := ⟨"3", by decide⟩

def reused : List (TierCall Key Bytes) :=
  [.put one [1, 2], .put two [3], .get one, .delete two, .putMany [(two, [4]), (three, [5, 6])],
    .getMany [one, two], .put one [7], .exists_ two]

theorem mmap_evicts_as_memory_reused :
    Runs.log (Machine.observe (.plain fun _ => false)) (opened (.plain fun _ => false) 0 4 .lru)
        reused = Runs.log observeMemory (priced 4 .lru) reused ∧
      (Runs.after observeMemory (priced 4 .lru) reused).inner.values two = some [4] :=
  ⟨mmap_evicts_as_memory _ (fun _ => rfl) 0 4 .lru reused (by decide +kernel) (by decide +kernel),
    by decide +kernel⟩

def behindStale (drawn : UInt64) : Tierstore.Inner Key Bytes :=
  { map := AList.insert two { value := [0], weight := 1, stamp := 2 } ∅
    order := [(one, 1), (two, 2)]
    totalWeight := 1
    nextStamp := drawn }

def keyTwo : OrderedTier Key Bytes := byLength (priced 2 .fifo).limits .fifo [itemOf two [0]]

theorem after_puts (m : Nat) (drawn : UInt64) :
    Runs.after observeMemory { priced 2 .fifo with inner := behindStale drawn }
        (List.replicate m (.put two [0])) =
      { priced 2 .fifo with inner := behindStale (drawn + UInt64.ofNat m) } ∧
      Runs.after observeList keyTwo (List.replicate m (.put two [0])) = keyTwo ∧
      Runs.Along (fun ref c => (observeList ref c).2) Takes keyTwo
        (List.replicate m (.put two [0])) := by
  induction m generalizing drawn with
  | zero => exact ⟨by simp [Runs.after], rfl, trivial⟩
  | succ m ih =>
    have hmemory : observeMemory { priced 2 .fifo with inner := behindStale drawn } (.put two [0]) =
        ((some [], 1), { priced 2 .fifo with inner := behindStale (drawn + 1) }) := rfl
    have hlist : observeList keyTwo (.put two [0]) = ((some [], 1), keyTwo) := rfl
    have hsum : drawn + 1 + UInt64.ofNat m = drawn + UInt64.ofNat (m + 1) := by
      rw [UInt64.ofNat_add, UInt64.add_assoc, UInt64.add_comm 1]
      rfl
    obtain ⟨hrest, hkept, halong⟩ := ih (drawn + 1)
    rw [List.replicate_succ, Runs.after_cons, Runs.after_cons, Runs.Along, hmemory, hlist, ← hsum]
    exact ⟨hrest, hkept, by decide +kernel, halong⟩

def around (mid : List (TierCall Key Bytes)) : List (TierCall Key Bytes) :=
  [.put one [0], .delete one, .put two [0]] ++ mid ++ [.put one [0], .put three [0]]

def puts : List (TierCall Key Bytes) := List.replicate (2 ^ 64 - 2) (.put two [0])

def gone : (c : TierCall Key Bytes) × (Option c.Output × Nat) → List Key
  | ⟨.put _ _, some displaced, _⟩ => displaced.map Prod.fst
  | _ => []

/-- If `mid` brings the stamps back to zero, the stale ticket of key 1 has the stamp of its new
one. -/
theorem around_differs {mid : List (TierCall Key Bytes)}
    (hmemory : Runs.after observeMemory { priced 2 .fifo with inner := behindStale 2 } mid =
      { priced 2 .fifo with inner := behindStale 0 })
    (hlist : Runs.after observeList keyTwo mid = keyTwo) :
    Runs.log observeList (byLength (priced 2 .fifo).limits .fifo []) (around mid) ≠
      Runs.log observeMemory (priced 2 .fifo) (around mid) := by
  have htier : Runs.after observeMemory (priced 2 .fifo)
      [.put one [0], .delete one, .put two [0]] =
        { priced 2 .fifo with inner := behindStale 2 } := rfl
  have hfirst : Runs.after observeList (byLength (priced 2 .fifo).limits .fifo [])
      [.put one [0], .delete one, .put two [0]] = keyTwo := rfl
  intro h
  rw [around, Runs.log_append, Runs.log_append _ (priced 2 .fifo), Runs.after_append,
    Runs.after_append, htier, hfirst, hmemory, hlist] at h
  have hlast := List.append_inj_right h (by rw [Runs.length_log, Runs.length_log])
  have hkeys := congrArg (List.map gone) hlast
  revert hkeys
  decide +kernel

/-- After all stamps of the memory tier are drawn, the stale ticket of a deleted key counts again:
the memory tier displaces key 1 where the mmap tier displaces the older key 2. -/
theorem order_differs_at_wrap :
    Runs.Along (fun ref c => (observeList ref c).2) (fun ref c => ref.Affords (.tier c))
        (byLength (priced 2 .fifo).limits .fifo []) (around puts) ∧
      Runs.log (Machine.observe (.plain fun _ => false)) (opened (.plain fun _ => false) 0 2 .fifo)
          (around puts) ≠ Runs.log observeMemory (priced 2 .fifo) (around puts) := by
  obtain ⟨hmemory, hlist, htakes⟩ := after_puts (2 ^ 64 - 2) 2
  have hzero : 2 + UInt64.ofNat (2 ^ 64 - 2) = 0 := by decide
  rw [hzero] at hmemory
  have halong : Runs.Along (fun ref c => (observeList ref c).2) Takes
      (byLength (priced 2 .fifo).limits .fifo []) (around puts) := by
    have hfirst : List.foldl (fun ref c => (observeList ref c).2)
        (byLength (priced 2 .fifo).limits .fifo []) [.put one [0], .delete one, .put two [0]] =
          keyTwo := rfl
    have hmid : List.foldl (fun ref c => (observeList ref c).2) keyTwo puts = keyTwo := hlist
    rw [around, Runs.along_append, Runs.along_append, List.foldl_append, hfirst, hmid]
    exact ⟨⟨by decide +kernel, htakes⟩, by decide +kernel⟩
  refine ⟨halong.imp fun _ _ _ htakes => htakes.1, ?_⟩
  rw [(opened_keeps (fun _ => rfl) 0 2 .fifo).log (fun _ => rfl) halong]
  exact around_differs hmemory hlist

end Wrapped
end Tierstore.Mmap
