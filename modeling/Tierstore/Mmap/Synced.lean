import Tierstore.Mmap.Files
import Tierstore.Mmap.Order

/-! The index beside the directory: each program keeps the accounting in step with the entry
files, unless a file cannot be removed or cannot be mapped after it was put in place. -/
namespace Tierstore.Mmap
open Effects ItemShelf

def itemOf (key : Key) (value : Bytes) : Item Key Bytes := { key, value, price := value.length }

/-- The index and the entry files both follow the shelf. -/
structure Synced (inner : Inner Key) (dir : Directory) (shelf : ItemShelf Key Bytes) : Prop where
  shelved : inner.Shelved shelf
  files : ∀ key, shelf.find key = (fileOf dir key).map (itemOf key)

def Config.limits (config : Config) : Limits :=
  { entries := none, bytes := config.budget.map PNat.val }

section Synced
variable {inner : Inner Key} {dir : Directory} {shelf : ItemShelf Key Bytes}

theorem Synced.nodup (h : Synced inner dir shelf) : shelf.keys.Nodup :=
  h.shelved.queue.tickets.nodup

theorem Synced.values (h : Synced inner dir shelf) (key : Key) :
    (shelf.find key).map Item.value = fileOf dir key := by
  rw [h.files]
  cases fileOf dir key <;> rfl

/-- The accounted sizes are the lengths of the entry files. -/
theorem Synced.sizes (h : Synced inner dir shelf) (key : Key) :
    inner.sizes.lookup key = (fileOf dir key).map List.length := by
  rw [h.shelved.sizes, h.files, Option.map_map]
  rfl

/-- A retained mapping shows the contents of the file. -/
theorem Synced.maps (h : Synced inner dir shelf) {key : Key} {bytes : Bytes}
    (hmap : inner.maps.lookup key = some bytes) : fileOf dir key = some bytes := by
  rw [← h.values, h.shelved.maps key bytes hmap]

theorem Synced.congr (h : Synced inner dir shelf) {dir' : Directory}
    (hfile : fileOf dir' = fileOf dir) : Synced inner dir' shelf :=
  ⟨h.shelved, fun key => by rw [hfile, h.files]⟩

/-- The shelf of a directory has the sizes of its entry files. -/
theorem sizes_perm (hnd : shelf.keys.Nodup)
    (hfiles : ∀ key, shelf.find key = (fileOf dir key).map (itemOf key)) (howned : Owned dir) :
    (shelf.map fun item => (item.key, item.price)).Perm (entrySizes dir) := by
  have hkeys : ((shelf.map fun item => (item.key, item.price)).map Prod.fst).Nodup := by
    rw [List.map_map]
    exact hnd
  rw [List.perm_ext_iff_of_nodup hkeys.of_map (nodup_entrySizes howned).of_map]
  rintro ⟨key, len⟩
  have hsize : (fileOf dir key).map List.length = (shelf.find key).map Item.price := by
    rw [hfiles, Option.map_map]
    rfl
  rw [mem_entrySizes howned, hsize, List.mem_map]
  constructor
  · rintro ⟨item, hitem, heq⟩
    cases heq
    rw [find_of_mem hnd hitem]
    rfl
  · intro hprice
    obtain ⟨item, hfind, rfl⟩ := Option.map_eq_some_iff.1 hprice
    exact ⟨item, mem_of_find hfind, by rw [key_of_find hfind]⟩

theorem total_eq (hnd : shelf.keys.Nodup)
    (hfiles : ∀ key, shelf.find key = (fileOf dir key).map (itemOf key)) (howned : Owned dir) :
    shelf.total = diskUsage dir := by
  have hsum := ((sizes_perm hnd hfiles howned).map Prod.snd).sum_eq
  rw [List.map_map] at hsum
  exact hsum

theorem Synced.total (h : Synced inner dir shelf) (howned : Owned dir) :
    inner.total = diskUsage dir := h.shelved.total.trans (total_eq h.nodup h.files howned)

theorem Synced.room (h : Synced inner dir shelf) (howned : Owned dir) (hcounted : Counted dir) :
    shelf.length + 1 < 2 ^ 64 := by
  have hlen := (sizes_perm h.nodup h.files howned).length_eq
  rw [List.length_map] at hlen
  rw [hlen]
  exact hcounted.entries

/-- The shelf follows an entry file that is written or removed. -/
theorem Synced.files_of_find (h : Synced inner dir shelf) {dir' : Directory} {key : Key}
    {value : Option Bytes} (hfile : fileOf dir' = Function.update (fileOf dir) key value)
    {shelf' : ItemShelf Key Bytes}
    (hfind : ∀ x, shelf'.find x = if x = key then value.map (itemOf key) else shelf.find x)
    (x : Key) : shelf'.find x = (fileOf dir' x).map (itemOf x) := by
  rw [hfind, hfile]
  by_cases hx : x = key
  · subst hx
    rw [if_pos rfl, Function.update_self]
  · rw [if_neg hx, Function.update_of_ne hx, h.files]

theorem Synced.forget (h : Synced inner dir shelf) {dir' : Directory} {key : Key}
    (hfile : fileOf dir' = Function.update (fileOf dir) key none) :
    Synced (inner.forget key) dir' (shelf.without key) :=
  ⟨h.shelved.forget key, h.files_of_find hfile (find_without shelf key)⟩

/-- Taking the first item off the shelf and its file off the disk. -/
theorem Synced.evict {order : List (Key × UInt64)} {item : Item Key Bytes}
    (h : Synced inner dir (item :: shelf))
    (hshelved : (({ inner with order } : Inner Key).evict item.key).Shelved shelf) :
    Synced (({ inner with order } : Inner Key).evict item.key) (dir.erase (entryName item.key))
      shelf := by
  refine ⟨hshelved, fun key => ?_⟩
  obtain ⟨hnot, -⟩ := List.nodup_cons.1 h.nodup
  have hfiles := h.files key
  rw [find_cons] at hfiles
  rw [fileOf_erase]
  by_cases hkey : key = item.key
  · subst hkey
    rw [Function.update_self, find_eq_none.2 hnot]
    rfl
  · rw [if_neg (Ne.symm hkey)] at hfiles
    rw [Function.update_of_ne hkey, hfiles]

theorem Synced.files_place (h : Synced inner dir shelf) {dir' : Directory}
    {key : Key} {value : Bytes}
    (hfile : fileOf dir' = Function.update (fileOf dir) key (some value)) (eviction : Eviction)
    (x : Key) : (Ordered.place eviction shelf (itemOf key value)).find x =
      (fileOf dir' x).map (itemOf x) :=
  h.files_of_find hfile (Ordered.find_place eviction shelf (itemOf key value)) x

/-- The file is in place, and the index records it. -/
theorem Synced.record (h : Synced inner dir shelf) (hroom : shelf.length + 1 < 2 ^ 64)
    {dir' : Directory} {key : Key} {value : Bytes}
    (hfile : fileOf dir' = Function.update (fileOf dir) key (some value)) (eviction : Eviction)
    (hfits : (Ordered.place eviction shelf (itemOf key value)).total ≤ usizeMax) :
    Synced (inner.record eviction key value.length (some value)) dir'
      (Ordered.place eviction shelf (itemOf key value)) :=
  ⟨h.shelved.record hroom eviction (itemOf key value) hfits, h.files_place hfile eviction⟩

theorem Synced.length_le (h : Synced inner dir shelf) : shelf.length ≤ inner.order.length := by
  rw [← length_keys]
  exact h.shelved.queue.tickets.length_le

/-- The file of an accounted key is replaced behind the back of the index: it does not show if
the length is the same and an old mapping has the new contents. -/
theorem Synced.overwritten (h : Synced inner dir shelf) {dir' : Directory} {key : Key}
    {value : Bytes} (hfile : fileOf dir' = Function.update (fileOf dir) key (some value))
    (hlen : (fileOf dir key).map List.length = some value.length)
    (hmaps : ∀ bytes, inner.maps.lookup key = some bytes → bytes = value) :
    Synced inner dir' (shelf.replace (itemOf key value)) := by
  obtain ⟨bytes, hbytes, hlen⟩ := Option.map_eq_some_iff.1 hlen
  have hfind : shelf.find key = some (itemOf key bytes) := by rw [h.files, hbytes]; rfl
  have hfound (x : Key) : (shelf.replace (itemOf key value)).find x =
      if x = key then some (itemOf key value) else shelf.find x := by
    rw [find_replace]
    by_cases hx : x = key
    · subst hx
      rw [if_pos ⟨rfl, by rw [hfind]; rfl⟩, if_pos rfl]
    · rw [if_neg fun hand => hx hand.1, if_neg hx]
  refine ⟨⟨?_, fun x => ?_, fun x cached hx => ?_, ?_⟩, h.files_of_find hfile hfound⟩
  · rw [keys_replace]
    exact h.shelved.queue
  · rw [hfound, h.shelved.sizes]
    by_cases hx : x = key
    · rw [if_pos hx, hx, hfind]
      exact congrArg some hlen
    · rw [if_neg hx]
  · rw [hfound]
    by_cases hkey : x = key
    · subst hkey
      rw [if_pos rfl, hmaps cached hx]
      rfl
    · rw [if_neg hkey]
      exact h.shelved.maps x cached hx
  · have htotal : (shelf.replace (itemOf key value)).total + (itemOf key bytes).price =
        shelf.total + (itemOf key value).price := total_replace h.nodup hfind
    have hprice : (itemOf key bytes).price = (itemOf key value).price := hlen
    rw [h.shelved.total]
    omega

end Synced

/-! ## Reads -/
namespace System
variable {sys : System} {w : World} {inner : Inner Key} {shelf : ItemShelf Key Bytes}

/-- A read serves the file or fails. -/
theorem get_run (sys : System) (h : Synced inner w.dir shelf) (hroom : shelf.length + 1 < 2 ^ 64)
    (config : Config) (key : Key) :
    ∃ inner' clock,
      sys.run (Fs.get config inner key) w = ((.ok (fileOf w.dir key), inner'), { w with clock }) ∧
          Synced inner' w.dir (Ordered.use config.eviction shelf key) ∨
        sys.run (Fs.get config inner key) w = ((.error .other, inner), { w with clock }) ∧
          sys.misses w key = true := by
  have hprobe := h.shelved.probe hroom config.eviction key
  rw [Fs.get]
  cases hcached : inner.maps.lookup key with
  | some bytes =>
    rw [hcached, Option.isSome_some, if_pos rfl] at hprobe
    have hsection : inner.probe config.eviction key =
        (some bytes, (inner.probe config.eviction key).2) := by rw [← hcached]; rfl
    rw [hsection]
    refine ⟨_, w.clock, Or.inl ⟨?_, hprobe, fun x => ?_⟩⟩
    · rw [h.maps hcached]
      rfl
    · rw [Ordered.find_use, h.files]
  | none =>
    have hsection : inner.probe config.eviction key = (none, inner) := by
      simp [Inner.probe, hcached]
    rw [hsection]
    dsimp only
    obtain ⟨clock, hmap⟩ := sys.mapFile_run w key
    rw [run_bind, hmap]
    cases hmiss : sys.misses w key with
    | true => exact ⟨inner, clock, Or.inr ⟨rfl, rfl⟩⟩
    | false =>
      cases hfile : fileOf w.dir key with
      | none =>
        have hfind : shelf.find key = none := by rw [h.files, hfile]; rfl
        have huse : Ordered.use config.eviction shelf key = shelf := Ordered.use_of_none hfind
        exact ⟨inner, clock, Or.inl ⟨rfl, huse.symm ▸ h⟩⟩
      | some bytes =>
        have hvalue : (shelf.find key).map Item.value = some bytes := by rw [h.values, hfile]
        refine ⟨inner.retain config.eviction key bytes, clock, Or.inl ⟨rfl, ?_, fun x => ?_⟩⟩
        · exact h.shelved.retain hroom config.eviction hvalue
        · rw [Ordered.find_use, h.files]

/-! ## Eviction -/

def Unlinks (sys : System) : FsCall → World → Prop
  | .unlink name, w => name ∈ w.dir → sys.fails w.clock = false
  | _, _ => True

instance decideUnlinks (sys : System) : (q : FsCall) → (w : World) → Decidable (sys.Unlinks q w)
  | .unlink name, w => inferInstanceAs (Decidable (name ∈ w.dir → sys.fails w.clock = false))
  | .createDir, _ | .create _, _ | .write _ _, _ | .rename _ _, _ | .openFile _, _
  | .mapFile _, _ | .tryExists _, _ | .readDir, _ => isTrue trivial

def Calm (sys : System) : Prop := ∀ clock, sys.fails clock = false

theorem Calm.misses (h : sys.Calm) (w : World) (key : Key) : sys.misses w key = false := by
  simp [System.misses, h w.clock, h (w.clock + 1)]

theorem Calm.unlinks (h : sys.Calm) {α : Type} (p : FsM α) (w : World) :
    p.Always sys.exec sys.Unlinks w := by
  refine Program.always_of_forall _ (fun q w' => ?_) p w
  cases q <;> first | exact trivial | exact fun _ => h w'.clock

/-- A program that only reads unlinks nothing. -/
theorem unlinks_of_reading {α : Type} {p : FsM α} (h : Asks Reading p) (sys : System) (w : World) :
    p.Always sys.exec sys.Unlinks w := by
  refine h.always (fun q w' hq => ?_) w
  cases q <;> first | exact trivial | cases hq

theorem store_unlinks (sys : System) (w : World) (key : Key) (value : Bytes) :
    (Fs.store key value).Always sys.exec sys.Unlinks w := by
  rw [Fs.store, always_bind]
  refine ⟨⟨trivial, trivial⟩, ?_⟩
  split
  · trivial
  · rw [always_bind]
    refine ⟨⟨trivial, trivial⟩, ?_⟩
    split
    · trivial
    · exact ⟨trivial, trivial⟩

theorem victimBytes_run (sys : System) (w : World) (inner : Inner Key) (key : Key) :
    ∃ bytes clock, sys.run (Fs.victimBytes inner key) w = (bytes, { w with clock }) ∧
      (sys.Calm → bytes = (inner.maps.lookup key).or (fileOf w.dir key)) ∧
      (Fs.victimBytes inner key).Always sys.exec sys.Unlinks w := by
  rw [Fs.victimBytes]
  cases hcached : inner.maps.lookup key with
  | some bytes => exact ⟨some bytes, w.clock, rfl, fun _ => rfl, trivial⟩
  | none =>
    obtain ⟨clock, hmap⟩ := sys.mapFile_run w key
    dsimp only
    rw [run_bind, always_bind, hmap]
    cases hmiss : sys.misses w key with
    | true =>
      refine ⟨none, clock, rfl, fun hcalm => ?_,
        unlinks_of_reading (Fs.mapFile_asks _) sys w, trivial⟩
      rw [hcalm.misses] at hmiss
      cases hmiss
    | false =>
      exact ⟨fileOf w.dir key, clock, rfl, fun _ => rfl,
        unlinks_of_reading (Fs.mapFile_asks _) sys w, trivial⟩

/-- One turn of the loop: the victim's value is read, then its file is unlinked. -/
theorem evictLoop_turn (sys : System) (w : World) {popped : Inner Key} {budget : Nat} {oldest : Key}
    (hover : inner.total > budget) (hpop : inner.popOldest = (some oldest, popped)) (turns : Nat) :
    ∃ bytes clock,
      (sys.Calm → bytes = (popped.maps.lookup oldest).or (fileOf w.dir oldest)) ∧
      let next := sys.run (Program.ask (FsCall.unlink (entryName oldest))) { w with clock }
      let rest := sys.run (Fs.evictLoop budget turns (popped.evict oldest)) next.2
      sys.run (Fs.evictLoop budget (turns + 1) inner) w =
          (((bytes.map fun bytes => (oldest, bytes)).toList ++ rest.1.1, rest.1.2), rest.2) ∧
        ((Fs.evictLoop budget (turns + 1) inner).Always sys.exec sys.Unlinks w ↔
          (entryName oldest ∈ w.dir → sys.fails clock = false) ∧
            (Fs.evictLoop budget turns (popped.evict oldest)).Always sys.exec sys.Unlinks
              next.2) := by
  obtain ⟨bytes, clock, hvictim, hbytes, hasks⟩ := victimBytes_run sys w popped oldest
  refine ⟨bytes, clock, hbytes, ?_⟩
  rw [Fs.evictLoop, if_pos hover, hpop]
  dsimp only
  rw [run_bind, always_bind, hvictim, run_bind, always_bind, run_bind, always_bind]
  refine ⟨rfl, ?_⟩
  have hunlink : (Program.ask (FsCall.unlink (entryName oldest))).Always sys.exec sys.Unlinks
      { w with clock } ↔ (entryName oldest ∈ w.dir → sys.fails clock = false) :=
    and_iff_left trivial
  rw [hunlink]
  constructor
  · rintro ⟨-, hsure, hrest, -⟩
    exact ⟨hsure, hrest⟩
  · rintro ⟨hsure, hrest⟩
    exact ⟨hasks, hsure, hrest, trivial⟩

section Loop
variable {item : Item Key Bytes}

theorem file_first (h : Synced inner w.dir (item :: shelf)) :
    fileOf w.dir item.key = some item.value := by
  rw [← h.values, find_cons, if_pos rfl]
  rfl

/-- The loop ends with what fits, and never gives up before. -/
theorem evictLoop_run {config : Config} {budget : ℕ+} (hbudget : config.budget = some budget)
    {turns : Nat} (hturns : shelf.length ≤ turns) (h : Synced inner w.dir shelf)
    (hunlinks : (Fs.evictLoop budget turns inner).Always sys.exec sys.Unlinks w) :
    ∃ out inner' w', sys.run (Fs.evictLoop budget turns inner) w = ((out, inner'), w') ∧
      Synced inner' w'.dir (shed (Ordered.fits config.limits) shelf).2 ∧
      (sys.Calm → out = Ordered.displaced (shed (Ordered.fits config.limits) shelf).1) := by
  have hfits (items : ItemShelf Key Bytes) :
      Ordered.fits config.limits items = decide (items.total ≤ budget) := by
    simp [Ordered.fits, Config.limits, hbudget]
  induction turns generalizing inner w shelf with
  | zero =>
    obtain rfl := List.length_eq_zero_iff.1 (Nat.le_zero.1 hturns)
    exact ⟨[], inner, w, rfl, h, fun _ => rfl⟩
  | succ turns ih =>
    by_cases hover : inner.total > budget
    · have htotal := hover
      rw [h.shelved.total] at htotal
      cases shelf with
      | nil => exact absurd htotal (Nat.not_lt_zero _)
      | cons item rest =>
        obtain ⟨order, hpop, hshelved⟩ := h.shelved.popOldest
        obtain ⟨bytes, clock, hbytes, hrun, hiff⟩ := evictLoop_turn sys w hover hpop turns
        have hfile := file_first h
        have hmem : entryName item.key ∈ w.dir := isSome_fileOf.1 (by rw [hfile]; rfl)
        obtain ⟨hsure, hrest⟩ := hiff.1 hunlinks
        have hunlink : sys.run (Program.ask (FsCall.unlink (entryName item.key)))
            { w with clock } =
              (.ok (), { dir := w.dir.erase (entryName item.key), clock := clock + 1 }) := by
          rw [run_ask, exec_ok (hsure hmem), answer, if_pos hmem]
        rw [hunlink] at hrun hrest
        obtain ⟨out, inner', w', hloop, hsynced, hout⟩ :=
          ih (Nat.le_of_succ_le_succ hturns) (h.evict hshelved) hrest
        have hshed : shed (Ordered.fits config.limits) (item :: rest) =
            (item :: (shed (Ordered.fits config.limits) rest).1,
              (shed (Ordered.fits config.limits) rest).2) := by
          rw [shed, hfits, if_neg (by simpa using htotal)]
        rw [hrun, hshed, hloop]
        refine ⟨_, inner', w', rfl, hsynced, fun hcalm => ?_⟩
        have hvalue : bytes = some item.value := by
          rw [hbytes hcalm, hfile]
          cases hcached : inner.maps.lookup item.key with
          | none => rfl
          | some cached => rw [← hfile, h.maps hcached, Option.or_self]
        rw [hvalue, hout hcalm]
        rfl
    · rw [Fs.evictLoop, if_neg hover]
      rw [h.shelved.total] at hover
      have hdone : shed (Ordered.fits config.limits) shelf = ([], shelf) := by
        cases shelf with
        | nil => rfl
        | cons item rest => rw [shed, hfits, if_pos (decide_eq_true (Nat.le_of_not_lt hover))]
      rw [hdone]
      exact ⟨[], inner, w, rfl, h, fun _ => rfl⟩

end Loop

/-! ## Writes -/

theorem account_run {config : Config} {dir : Directory} (h : Synced inner dir shelf)
    (hroom : shelf.length + 1 < 2 ^ 64) {key : Key} {value : Bytes}
    (hfile : fileOf w.dir = Function.update (fileOf dir) key (some value))
    (hfits : (Ordered.place config.eviction shelf (itemOf key value)).total ≤ usizeMax)
    (hunlinks : (Fs.account config inner key value.length (some value)).Always sys.exec
      sys.Unlinks w) :
    ∃ out inner' w',
      sys.run (Fs.account config inner key value.length (some value)) w = ((out, inner'), w') ∧
      Synced inner' w'.dir
        (Ordered.write config.limits config.eviction shelf (itemOf key value)).2 ∧
      (sys.Calm →
        out = (Ordered.write config.limits config.eviction shelf (itemOf key value)).1) := by
  have hrecorded := h.record hroom hfile config.eviction hfits
  rw [Fs.account] at hunlinks ⊢
  rw [Ordered.write]
  cases hbudget : config.budget with
  | none =>
    have hall (items : ItemShelf Key Bytes) : Ordered.fits config.limits items = true := by
      simp [Ordered.fits, Config.limits, hbudget]
    have hdone : shed (Ordered.fits config.limits)
        (Ordered.place config.eviction shelf (itemOf key value)) =
          ([], Ordered.place config.eviction shelf (itemOf key value)) := by
      cases Ordered.place config.eviction shelf (itemOf key value) with
      | nil => rfl
      | cons item rest => rw [shed, if_pos (hall _)]
    rw [hdone]
    exact ⟨[], _, w, rfl, hrecorded, fun _ => rfl⟩
  | some budget =>
    rw [hbudget] at hunlinks
    exact evictLoop_run hbudget hrecorded.length_le hrecorded hunlinks

def loses (sys : System) (clock : Nat) : Bool :=
  sys.stores clock && (sys.fails (clock + 3) || sys.fails (clock + 4))

/-- A put changes no entry file, or replaces its own and fails, or goes on to the accounting. -/
theorem put_cases (sys : System) (w : World) (config : Config) (inner : Inner Key) (key : Key)
    (value : Bytes) :
    ∃ w', sys.stores w.clock = false ∧
          sys.run (Fs.put config inner key value) w = ((.error .other, inner), w') ∧
          fileOf w'.dir = fileOf w.dir ∧
          (Fs.put config inner key value).Always sys.exec sys.Unlinks w ∨
        sys.stores w.clock = true ∧
          fileOf w'.dir = Function.update (fileOf w.dir) key (some value) ∧
          (sys.loses w.clock = true ∧
              sys.run (Fs.put config inner key value) w = ((.error .other, inner), w') ∧
              (Fs.put config inner key value).Always sys.exec sys.Unlinks w ∨
            sys.loses w.clock = false ∧
              let out := sys.run (Fs.account config inner key value.length (some value)) w'
              sys.run (Fs.put config inner key value) w = ((.ok out.1.1, out.1.2), out.2) ∧
                ((Fs.put config inner key value).Always sys.exec sys.Unlinks w ↔
                  (Fs.account config inner key value.length (some value)).Always sys.exec
                    sys.Unlinks w')) := by
  obtain ⟨stored, hstore⟩ := sys.store_run w key value
  have hasks := store_unlinks sys w key value
  rw [Fs.put, run_bind, always_bind]
  cases hstores : sys.stores w.clock with
  | false =>
    rw [hstores, if_neg Bool.false_ne_true] at hstore
    rw [hstore.1]
    exact ⟨stored, Or.inl ⟨rfl, rfl, hstore.2, hasks, trivial⟩⟩
  | true =>
    rw [hstores, if_pos rfl] at hstore
    obtain ⟨hrun, hclock, hfile⟩ := hstore
    have hvalue : fileOf stored.dir key = some value := by rw [hfile, Function.update_self]
    have hmem : entryName key ∈ stored.dir := isSome_fileOf.1 (by rw [hvalue]; rfl)
    obtain ⟨clock, hmap⟩ := sys.mapFile_run stored key
    have hloses : sys.loses w.clock = sys.misses stored key := by
      simp [loses, misses, hstores, hmem, hclock]
    rw [hvalue] at hmap
    rw [hrun]
    dsimp only
    rw [run_bind, always_bind, hmap, hloses]
    refine ⟨{ stored with clock }, Or.inr ⟨rfl, hfile, ?_⟩⟩
    cases hmiss : sys.misses stored key with
    | true =>
      exact Or.inl ⟨rfl, rfl, hasks, unlinks_of_reading (Fs.mapFile_asks _) sys stored, trivial⟩
    | false =>
      rw [if_neg Bool.false_ne_true]
      dsimp only
      rw [run_bind, always_bind]
      refine Or.inr ⟨rfl, rfl, fun h => h.2.2.1, fun h => ?_⟩
      exact ⟨hasks, unlinks_of_reading (Fs.mapFile_asks _) sys stored, h, trivial⟩

/-- Unless it fails, a put places the item and evicts what does not fit. -/
theorem put_run (sys : System) {config : Config} (h : Synced inner w.dir shelf)
    (hroom : shelf.length + 1 < 2 ^ 64) {key : Key} {value : Bytes}
    (hfits : (Ordered.place config.eviction shelf (itemOf key value)).total ≤ usizeMax)
    (hunlinks : (Fs.put config inner key value).Always sys.exec sys.Unlinks w) :
    ∃ w', sys.stores w.clock = false ∧
          sys.run (Fs.put config inner key value) w = ((.error .other, inner), w') ∧
          fileOf w'.dir = fileOf w.dir ∨
        sys.loses w.clock = true ∧
          sys.run (Fs.put config inner key value) w = ((.error .other, inner), w') ∧
          fileOf w'.dir = Function.update (fileOf w.dir) key (some value) ∨
        ∃ out inner', sys.run (Fs.put config inner key value) w = ((.ok out, inner'), w') ∧
          Synced inner' w'.dir
            (Ordered.write config.limits config.eviction shelf (itemOf key value)).2 ∧
          (sys.Calm →
            out = (Ordered.write config.limits config.eviction shelf (itemOf key value)).1) := by
  obtain ⟨w', ⟨hstores, hrun, hfile, -⟩ | ⟨-, hfile, ⟨hloses, hrun, -⟩ | ⟨-, hrun, hiff⟩⟩⟩ :=
    put_cases sys w config inner key value
  · exact ⟨w', Or.inl ⟨hstores, hrun, hfile⟩⟩
  · exact ⟨w', Or.inr (Or.inl ⟨hloses, hrun, hfile⟩)⟩
  · obtain ⟨out, inner', w'', hdone, hsynced, hout⟩ :=
      account_run h hroom hfile hfits (hiff.1 hunlinks)
    rw [hdone] at hrun
    exact ⟨w'', Or.inr (Or.inr ⟨out, inner', hrun, hsynced, hout⟩)⟩

theorem exists_run (sys : System) (h : Synced inner w.dir shelf) (key : Key) :
    ∃ clock,
      sys.run (Fs.exists_ inner key) w =
          ((.ok (fileOf w.dir key).isSome, inner), { w with clock }) ∨
        sys.fails w.clock = true ∧
          sys.run (Fs.exists_ inner key) w = ((.error .other, inner), { w with clock }) := by
  rw [Fs.exists_]
  by_cases hcached : key ∈ inner.maps
  · obtain ⟨bytes, hbytes⟩ := Option.isSome_iff_exists.1 (AList.lookup_isSome.2 hcached)
    rw [if_pos hcached, h.maps hbytes]
    exact ⟨w.clock, Or.inl rfl⟩
  · rw [if_neg hcached]
    cases hfails : sys.fails w.clock with
    | true =>
      rw [ask_fails hfails]
      exact ⟨_, Or.inr ⟨rfl, rfl⟩⟩
    | false =>
      have hmem : decide (entryName key ∈ w.dir) = (fileOf w.dir key).isSome := by
        rw [Bool.eq_iff_iff, decide_eq_true_iff, isSome_fileOf]
      rw [ask_ok hfails, answer, hmem]
      exact ⟨_, Or.inl rfl⟩

/-- A delete forgets the key, whether or not the file goes. -/
theorem delete_run (sys : System) (w : World) (inner : Inner Key) (key : Key) :
    ∃ result w', sys.run (Fs.delete inner key) w = ((result, inner.forget key), w') ∧
      (sys.fails w.clock = true ∧ w'.dir = w.dir ∨
        sys.fails w.clock = false ∧ result = .ok (fileOf w.dir key).isSome ∧
          fileOf w'.dir = Function.update (fileOf w.dir) key none) := by
  rw [Fs.delete, run_bind, run_ask, unlink_run]
  cases hfails : sys.fails w.clock with
  | true => exact ⟨_, _, rfl, Or.inl ⟨rfl, rfl⟩⟩
  | false =>
    rw [if_neg Bool.false_ne_true]
    cases hfile : fileOf w.dir key with
    | none =>
      have hsame : fileOf w.dir = Function.update (fileOf w.dir) key none :=
        (Function.update_eq_self_iff.2 hfile.symm).symm
      exact ⟨_, _, rfl, Or.inr ⟨rfl, rfl, hsame⟩⟩
    | some bytes => exact ⟨_, _, rfl, Or.inr ⟨rfl, rfl, fileOf_erase _ _⟩⟩

theorem unlinkAll_run (entries : List DirEntry)
    (hcalm : (Fs.unlinkAll entries).Always sys.exec (fun _ w => sys.fails w.clock = false) w) :
    ∀ name ∈ (sys.run (Fs.unlinkAll entries) w).2.dir,
      name ∈ w.dir ∧ name ∉ entries.map DirEntry.name := by
  induction entries generalizing w with
  | nil => exact fun name hname => ⟨hname, List.not_mem_nil⟩
  | cons entry rest ih =>
    rw [Fs.unlinkAll, always_bind] at hcalm
    intro name hname
    rw [Fs.unlinkAll, run_bind] at hname
    obtain ⟨hmem, hnot⟩ := ih hcalm.2 name hname
    rw [run_ask, exec_ok hcalm.1.1, answer] at hmem
    rw [List.map_cons, List.mem_cons, not_or]
    by_cases hentry : entry.name ∈ w.dir
    · rw [if_pos hentry] at hmem
      obtain ⟨hne, hold⟩ := AList.mem_erase.1 hmem
      exact ⟨hold, hne, hnot⟩
    · rw [if_neg hentry] at hmem
      exact ⟨hmem, fun heq => hentry (heq ▸ hmem), hnot⟩

/-- A clear removes every file. -/
theorem clear_run (inner : Inner Key)
    (hcalm : (Fs.clear inner).Always sys.exec (fun _ w => sys.fails w.clock = false) w) :
    ∃ w', sys.run (Fs.clear inner) w = ((.ok (), inner.clear), w') ∧
      ∀ name, name ∉ w'.dir := by
  rw [Fs.clear, always_bind] at hcalm
  obtain ⟨hread, hrest⟩ := hcalm
  rw [run_ask, exec_ok hread.1, answer] at hrest
  dsimp only at hrest
  rw [always_bind] at hrest
  rw [Fs.clear, ask_ok hread.1, answer]
  dsimp only
  rw [run_bind]
  refine ⟨_, rfl, fun name hname => ?_⟩
  obtain ⟨hmem, hnot⟩ := unlinkAll_run _ hrest.1 name hname
  rw [List.map_map] at hnot
  exact hnot ((sys.listed w.clock w.dir).mem_iff.2 hmem)

theorem synced_cleared (inner : Inner Key) {dir : Directory} (hnone : ∀ name, name ∉ dir) :
    Synced inner.clear dir [] := by
  have hempty : Tickets.Orders inner.clear.stampOf [] [] := .empty _ fun _ => rfl
  refine ⟨⟨⟨hempty, fun _ h => (by cases h)⟩, fun _ => rfl, fun _ _ h => ?_, rfl⟩, fun key => ?_⟩
  · cases h
  · rw [fileOf, AList.lookup_eq_none.2 (hnone _)]
    rfl

/-! ## Scans -/

/-- What a listing says of the entry files, in its order. -/
theorem listed_perm (sys : System) (w : World) :
    (((sys.listing w.clock w.dir).map fun entry =>
        ({ name := entry.1, len := ((w.dir.lookup entry.1).getD []).length,
           modified := entry.2 } : DirEntry)).filterMap fun entry =>
      (keyOf entry.name).map fun key => (key, entry.len)).Perm (entrySizes w.dir) := by
  have hnames := (sys.listed w.clock w.dir).filterMap fun name =>
    (keyOf name).map fun key => (key, ((w.dir.lookup name).getD []).length)
  rw [List.filterMap_map] at hnames ⊢
  exact hnames

theorem found_perm (entries : List DirEntry) :
    (Fs.found entries).Perm
      (entries.filterMap fun entry => (keyOf entry.name).map fun key => (key, entry.len)) := by
  have hsort := (List.perm_insertionSort
    (fun (a b : Key × DirEntry) => a.2.modified ≤ b.2.modified)
    (entries.filterMap fun entry => (keyOf entry.name).map fun key => (key, entry))).map
      fun e => (e.1, e.2.len)
  rw [List.map_filterMap] at hsort
  simp only [Option.map_map, Function.comp_def] at hsort
  exact hsort

theorem synced_scan {dir : Directory} (howned : Owned dir) (hcounted : Counted dir)
    {found : List (Key × Nat)} (hperm : found.Perm (entrySizes dir)) :
    Synced (Inner.scan found) dir
      (Inner.foundShelf (fun key => (fileOf dir key).getD []) found) := by
  have hnd : (found.map Prod.fst).Nodup :=
    (hperm.map Prod.fst).nodup_iff.2 (nodup_entrySizes howned)
  have hmem {key : Key} {len : Nat} :
      (key, len) ∈ found ↔ (fileOf dir key).map List.length = some len := by
    rw [hperm.mem_iff, mem_entrySizes howned]
  have hentries := hcounted.entries
  rw [← hperm.length_eq] at hentries
  have hbytes := hcounted.bytes
  rw [diskUsage, ← (hperm.map Prod.snd).sum_eq] at hbytes
  refine ⟨Inner.shelved_scan _ hnd (Nat.lt_of_succ_lt hentries) hbytes, fun key => ?_⟩
  cases hfile : fileOf dir key with
  | none =>
    refine find_eq_none.2 fun hkey => ?_
    rw [Inner.keys_foundShelf] at hkey
    obtain ⟨⟨x, len⟩, hfound, rfl⟩ := List.mem_map.1 hkey
    rw [hmem, hfile] at hfound
    cases hfound
  | some bytes =>
    have hfound : (key, bytes.length) ∈ found := by
      rw [hmem, hfile]
      rfl
    have hitem : itemOf key bytes ∈
        Inner.foundShelf (fun key => (fileOf dir key).getD []) found := by
      refine List.mem_map.2 ⟨_, hfound, ?_⟩
      simp [hfile, itemOf]
    rw [← Inner.keys_foundShelf fun key => (fileOf dir key).getD []] at hnd
    exact find_of_mem hnd hitem

/-- Opening accounts for every entry file. -/
theorem openInner_run (sys : System) {w : World} (howned : Owned w.dir)
    (hcounted : Counted w.dir) :
    ∃ result clock, sys.run Fs.openInner w = (result, { w with clock }) ∧
      (sys.Calm → ∃ inner, result = .ok inner) ∧
      ∀ inner, result = .ok inner → ∃ shelf, Synced inner w.dir shelf := by
  rw [Fs.openInner]
  cases hmake : sys.fails w.clock with
  | true =>
    rw [ask_fails hmake]
    refine ⟨_, _, rfl, fun hcalm => ?_, fun _ h => ?_⟩
    · rw [hcalm] at hmake
      cases hmake
    · cases h
  | false =>
    rw [ask_ok hmake, answer]
    dsimp only
    cases hread : sys.fails (w.clock + 1) with
    | true =>
      rw [ask_fails hread]
      refine ⟨_, _, rfl, fun hcalm => ?_, fun _ h => ?_⟩
      · rw [hcalm] at hread
        cases hread
      · cases h
    | false =>
      rw [ask_ok hread, answer]
      dsimp only
      refine ⟨_, _, rfl, fun _ => ⟨_, rfl⟩, fun inner h => ?_⟩
      cases h
      exact ⟨_, synced_scan howned hcounted ((found_perm _).trans
        (listed_perm sys { w with clock := w.clock + 1 }))⟩

theorem list_run (sys : System) {w : World} (howned : Owned w.dir) (cursor : Option Nat)
    (limit : Nat) :
    ∃ result clock, sys.run (Fs.list cursor limit) w = (result, { w with clock }) ∧
      (sys.Calm → ∃ page, result = .ok page) ∧
      ∀ page, result = .ok page → ∀ key ∈ page.keys, (fileOf w.dir key).isSome := by
  rw [Fs.list]
  cases hread : sys.fails w.clock with
  | true =>
    rw [ask_fails hread]
    refine ⟨_, _, rfl, fun hcalm => ?_, fun _ h => ?_⟩
    · rw [hcalm] at hread
      cases hread
    · cases h
  | false =>
    rw [ask_ok hread, answer]
    refine ⟨_, _, rfl, fun _ => ⟨_, rfl⟩, fun page h key hkey => ?_⟩
    cases h
    have hlisted := List.mem_of_mem_drop (List.mem_of_mem_take hkey)
    rw [Fs.keysOf, List.mem_insertionSort, List.mem_filterMap] at hlisted
    obtain ⟨entry, hentry, hdecode⟩ := hlisted
    obtain ⟨listed, hmem, rfl⟩ := List.mem_map.1 hentry
    have hname : listed.1 ∈ w.dir :=
      (sys.listed w.clock w.dir).mem_iff.1 (List.mem_map_of_mem hmem)
    rw [isSome_fileOf, ← howned.name_eq hname hdecode]
    exact hname

end System
end Tierstore.Mmap
