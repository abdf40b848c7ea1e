import Mathlib.Data.Fintype.Basic
import Tierstore.Disk.Tier
import Tierstore.Lib.Interleave
import Tierstore.Lib.Runs

/-! Puts and gets of one key side by side, one system call at a time. All puts of a key share one
temporary path, so they keep apart only if none opens it while another one writes it. -/
namespace Tierstore.Disk
open Effects Files

inductive Access where
  | get
  | put (value : Bytes) (cuts : List Nat)

abbrev Access.Output : Access → Type
  | .get => Option Bytes
  | .put _ _ => Displaced String Bytes

def Access.program (root : Path) (key : String) : (a : Access) → FsM (Except FsError a.Output)
  | .get => DiskTier.get root key
  | .put value cuts => DiskTier.put root cuts key value

section Accesses
variable {ι : Type}

abbrev AccessPool (calls : ι → Access) :=
  Pool ι FsCall (fun q => Except FsError q.Output) (fun i => Except FsError (calls i).Output)
    FileSystem

def start (root : Path) (key : String) (calls : ι → Access) (fs : FileSystem) : AccessPool calls :=
  Pool.start fs fun i => (calls i).program root key

/-- Every call of the system is one atomic step, and none blocks. -/
def answer (sys : System) (q : FsCall) (fs : FileSystem) :
    Option (Except FsError q.Output × FileSystem) := some (exec sys q fs)

def FsCall.opens : FsCall → Bool
  | .create _ => true
  | _ => false

def FsCall.writes : FsCall → Bool
  | .append _ _ => true
  | .rename _ _ => true
  | _ => false

def Opening {α : Type} (p : FsM α) : Prop := p.asks.any FsCall.opens = true

def Amid {α : Type} (p : FsM α) : Prop := p.asks.any FsCall.writes = true

instance {α : Type} (p : FsM α) : Decidable (Opening p) := inferInstanceAs (Decidable (_ = _))

instance {α : Type} (p : FsM α) : Decidable (Amid p) := inferInstanceAs (Decidable (_ = _))

/-- No put opens the temporary file while another one is amid its own writing. -/
def Apart {calls : ι → Access} (c : AccessPool calls) (i : ι) : Prop :=
  Opening (c.threads i) → ∀ j, ¬ Amid (c.threads j)

instance [Fintype ι] {calls : ι → Access} (c : AccessPool calls) (i : ι) :
    Decidable (Apart c i) :=
  inferInstanceAs (Decidable (Opening (c.threads i) → ∀ j, ¬ Amid (c.threads j)))

def Access.IsPut : Access → Prop
  | .get => False
  | .put _ _ => True

def Puts (calls : ι → Access) (v : Bytes) : Prop := ∃ i cuts, calls i = .put v cuts

/-- A get finds nothing or a value in full, a put succeeds. -/
def Answers (whole : Bytes → Prop) : (a : Access) → Except FsError a.Output → Prop
  | .get, r => r = .ok none ∨ ∃ v, r = .ok (some v) ∧ whole v
  | .put _ _, r => r = .ok []

/-- Every call that has returned met its promise, and once all puts have returned the entry holds
the value of one of them. -/
structure Untorn (root : Path) (key : String) (fs : FileSystem) (calls : ι → Access)
    (c : AccessPool calls) : Prop where
  returns : ∀ i r, c.threads i = .done r →
    Answers (fun v => fs.held (pathFor root key) = some v ∨ Puts calls v) (calls i) r
  stored : (∃ i, (calls i).IsPut) → (∀ i, (calls i).IsPut → (c.threads i).Done) →
    ∃ v, Puts calls v ∧ c.shared.held (pathFor root key) = some v

end Accesses

/-! ## The stages of a call -/
variable {root : Path} {key : String} {fs fs' : FileSystem} {whole : Bytes → Prop}

def finish (root : Path) (key : String) (file : Nat) (rest : List Bytes) :
    FsM (Except FsError (Displaced String Bytes)) := do
  match ← DiskTier.appendAll file rest with
  | .error e => pure (.error e)
  | .ok _ =>
  match ← Program.ask (FsCall.rename (tempFor root key) (pathFor root key)) with
  | .error e => pure (.error e)
  | .ok _ => pure (.ok [])

/-- How far a call has come. The file of a put amid its writing is the one under the temporary
path, and holds what is written so far. -/
inductive Stage (root : Path) (key : String) (whole : Bytes → Prop) (fs : FileSystem) :
    (a : Access) → FsM (Except FsError a.Output) → Prop where
  | get : Stage root key whole fs .get (DiskTier.get root key)
  | got (r : Except FsError (Option Bytes)) : Answers whole .get r →
      Stage root key whole fs .get (.done r)
  | put (value : Bytes) (cuts : List Nat) :
      Stage root key whole fs (.put value cuts) (DiskTier.put root cuts key value)
  | writing (value : Bytes) (cuts : List Nat) (file : Nat) (rest : List Bytes) :
      fs.names.lookup (tempFor root key) = some (.file file) →
      fs.data file ++ rest.flatten = value →
      Stage root key whole fs (.put value cuts) (finish root key file rest)
  | stored (value : Bytes) (cuts : List Nat) :
      Stage root key whole fs (.put value cuts) (.done (.ok []))

/-- A call that is not amid its writing does not depend on the files. -/
theorem Stage.idle {a : Access} {p : FsM (Except FsError a.Output)}
    (h : Stage root key whole fs a p) (hp : ¬ Amid p) (fs' : FileSystem) :
    Stage root key whole fs' a p := by
  cases h with
  | get => exact .get
  | got r hr => exact .got r hr
  | put value cuts => exact .put value cuts
  | writing value cuts file rest hfile hdata =>
    refine absurd ?_ hp
    cases rest <;> rfl
  | stored value cuts => exact .stored value cuts

theorem Stage.start (a : Access) : Stage root key whole fs a (a.program root key) := by
  cases a with
  | get => exact .get
  | put value cuts => exact .put value cuts

/-- What a step of a call does: a get only reads; a put goes on writing a file that is no entry
yet, or makes its whole value the entry. -/
inductive Moved (root : Path) (key : String) (fs fs' : FileSystem) {α : Type} (a : Access)
    (p p' : FsM α) : Prop where
  | read : ¬ a.IsPut → fs' = fs → ¬ Amid p → ¬ Amid p' → Moved root key fs fs' a p p'
  | wrote : Opening p ∨ Amid p → ¬ p'.Done →
      fs'.held (pathFor root key) = fs.held (pathFor root key) → Moved root key fs fs' a p p'
  | renamed (value : Bytes) (cuts : List Nat) : a = .put value cuts → Amid p →
      fs'.held (pathFor root key) = some value → Moved root key fs fs' a p p'

theorem not_amid_done {α : Type} (a : α) : ¬ Amid (Program.done a : FsM α) := Bool.noConfusion

/-- One step of a call keeps its promise. -/
theorem Stage.step (sys : System) {a : Access} {q : FsCall}
    {next : Except FsError q.Output → FsM (Except FsError a.Output)}
    (h : Stage root key whole fs a (.call q next)) (hready : Ready root key fs)
    (hentry : ∀ v, fs.held (pathFor root key) = some v → whole v) :
    Ready root key (exec sys q fs).2 ∧
      Stage root key whole (exec sys q fs).2 a (next (exec sys q fs).1) ∧
      Moved root key fs (exec sys q fs).2 a (.call q next) (next (exec sys q fs).1) := by
  have hne : pathFor root key ≠ tempFor root key := pathFor_ne_tempFor hready.key_ne hready.key_ne
  generalize hp : (Program.call q next : FsM (Except FsError a.Output)) = p at h
  cases h with
  | get =>
    change _ = Program.call (FsCall.read (pathFor root key)) _ at hp
    cases hp
    rw [exec_read sys hready.entry]
    have hasks : ¬ Amid (DiskTier.get root key) := Bool.noConfusion
    cases hheld : fs.held (pathFor root key) with
    | none =>
      exact ⟨hready, .got _ (Or.inl rfl), .read id rfl hasks (not_amid_done _)⟩
    | some v =>
      exact ⟨hready, .got _ (Or.inr ⟨v, rfl, hentry v hheld⟩),
        .read id rfl hasks (not_amid_done _)⟩
  | got r hr => cases hp
  | put value cuts =>
    change _ = Program.call (FsCall.create (tempFor root key)) _ at hp
    cases hp
    obtain ⟨file, fs', hexec, hfile, hdata, hheld, hdirs⟩ :=
      exec_create sys hready.temp hready.dir_temp
    rw [hexec]
    refine ⟨hready.of_isDir hdirs, .writing value cuts file (DiskTier.pieces cuts value) hfile ?_,
      .wrote (Or.inl rfl) ?_ ?_⟩
    · rw [hdata, List.nil_append, DiskTier.flatten_pieces]
    · cases DiskTier.pieces cuts value <;> exact id
    · rw [hheld, Function.update_of_ne hne]
  | writing value cuts file rest hfile hdata =>
    cases rest with
    | nil =>
      change _ = Program.call (FsCall.rename (tempFor root key) (pathFor root key)) _ at hp
      cases hp
      rw [exec_rename sys hfile hready.entry hready.dir_entry]
      refine ⟨hready.of_isDir fun p => Table.isDir_move hfile hready.entry, .stored value cuts,
        .renamed value cuts rfl rfl ?_⟩
      rw [Table.held_move hfile, Function.update_self, ← hdata]
      simp
    | cons piece rest =>
      change _ = Program.call (FsCall.append file piece) _ at hp
      cases hp
      refine ⟨hready.of_isDir fun p => Iff.rfl, .writing value cuts file rest hfile ?_,
        .wrote (Or.inr rfl) ?_ ?_⟩
      · simpa [exec, Table.write] using hdata
      · cases rest <;> exact id
      · change (fs.write file _).held _ = _
        rw [Table.held_write hfile, Function.update_of_ne hne]
  | stored value cuts => cases hp

/-! ## Runs in which the puts keep apart -/
variable {ι : Type} {calls : ι → Access}

theorem Stage.amid_put {a : Access} {p : FsM (Except FsError a.Output)}
    (h : Stage root key whole fs a p) (hp : Amid p) : a.IsPut := by
  cases h with
  | get => cases hp
  | got r hr => exact absurd hp (not_amid_done _)
  | put value cuts => trivial
  | writing value cuts file rest hfile hdata => trivial
  | stored value cuts => trivial

/-- Between the steps of a run: at most one put is amid its writing, and after a put has returned
the entry holds the value of some put. -/
structure Sound (root : Path) (key : String) (whole : Bytes → Prop) (c : AccessPool calls) :
    Prop where
  ready : Ready root key c.shared
  entry : ∀ v, c.shared.held (pathFor root key) = some v → whole v
  stage : ∀ i, Stage root key whole c.shared (calls i) (c.threads i)
  alone : ∀ i j, Amid (c.threads i) → Amid (c.threads j) → i = j
  stored : ∀ i, (calls i).IsPut → (c.threads i).Done →
    ∃ v, Puts calls v ∧ c.shared.held (pathFor root key) = some v

theorem sound_start (hready : Ready root key fs)
    (hentry : ∀ v, fs.held (pathFor root key) = some v → whole v) :
    Sound root key whole (start root key calls fs) where
  ready := hready
  entry := hentry
  stage i := Stage.start (calls i)
  alone i j hi _ := by
    have hno : ¬ Amid ((calls i).program root key) := by
      cases calls i with
      | get => exact Bool.noConfusion
      | put value cuts => exact Bool.noConfusion
    exact absurd hi hno
  stored i hput hdone := by
    have hno : ¬ ((calls i).program root key).Done := by
      cases calls i with
      | get => exact id
      | put value cuts => exact id
    exact absurd hdone hno

variable [DecidableEq ι] {c : AccessPool calls} {i : ι}
  {p' : FsM (Except FsError (calls i).Output)} {log : List (ι × FsCall)}

/-- A get reads, and the files stay. -/
theorem Sound.read (hc : Sound root key whole c) (hget : ¬ (calls i).IsPut)
    (hnext : Stage root key whole c.shared (calls i) p') :
    Sound root key whole
      { shared := c.shared, threads := Function.update c.threads i p', log := log } where
  ready := hc.ready
  entry := hc.entry
  stage j := by
    by_cases hj : j = i
    · subst hj
      simpa using hnext
    · simpa [Function.update_of_ne hj] using hc.stage j
  alone j j' hj hj' := by
    have hold : ∀ k, Amid (Function.update c.threads i p' k) → Amid (c.threads k) := by
      intro k hk
      by_cases hki : k = i
      · subst hki
        rw [Function.update_self] at hk
        exact absurd (hnext.amid_put hk) hget
      · rwa [Function.update_of_ne hki] at hk
    exact hc.alone j j' (hold j hj) (hold j' hj')
  stored j hput hdone := by
    have hj : j ≠ i := by
      rintro rfl
      exact hget hput
    exact hc.stored j hput (by simpa [Function.update_of_ne hj] using hdone)

/-- A put changes the files, while no other put is amid its writing. -/
theorem Sound.touch (hc : Sound root key whole c) (hothers : ∀ j, j ≠ i → ¬ Amid (c.threads j))
    (hready : Ready root key fs') (hnext : Stage root key whole fs' (calls i) p')
    (hentry : ∀ v, fs'.held (pathFor root key) = some v → whole v)
    (hstored : ∀ j, (calls j).IsPut → (Function.update c.threads i p' j).Done →
      ∃ v, Puts calls v ∧ fs'.held (pathFor root key) = some v) :
    Sound root key whole
      { shared := fs', threads := Function.update c.threads i p', log := log } where
  ready := hready
  entry := hentry
  stage j := by
    by_cases hj : j = i
    · subst hj
      simpa using hnext
    · simpa [Function.update_of_ne hj] using (hc.stage j).idle (hothers j hj) fs'
  alone j j' hj hj' := by
    have honly : ∀ k, Amid (Function.update c.threads i p' k) → k = i := by
      intro k hk
      by_contra hki
      rw [Function.update_of_ne hki] at hk
      exact hothers k hki hk
    rw [honly j hj, honly j' hj']
  stored := hstored

theorem Sound.step (sys : System) (hwhole : ∀ v, Puts calls v → whole v)
    (hc : Sound root key whole c) (hapart : Apart c i) :
    Sound root key whole (Pool.step (answer sys) c i) := by
  obtain hsame | ⟨q, next, r, fs', hthread, hans, heq⟩ := Pool.step_cases (answer sys) c i
  · rwa [hsame]
  have hstage := hc.stage i
  rw [hthread] at hstage
  obtain ⟨hready, hnext, hmoved⟩ := hstage.step sys hc.ready hc.entry
  obtain ⟨rfl, rfl⟩ : (exec sys q c.shared).1 = r ∧ (exec sys q c.shared).2 = fs' := by
    simpa [answer, Prod.ext_iff] using hans
  rw [heq]
  -- a step that touches the files is taken while no other put is amid its writing
  have hothers : Opening (c.threads i) ∨ Amid (c.threads i) →
      ∀ j, j ≠ i → ¬ Amid (c.threads j) := by
    rintro (hopen | hamid) j hj
    · exact hapart hopen j
    · exact fun h => hj (hc.alone j i h hamid)
  rw [← hthread] at hmoved
  cases hmoved with
  | read hget hsame hp hp' =>
    rw [hsame] at hnext ⊢
    exact hc.read hget hnext
  | wrote hp hgoes hheld =>
    refine hc.touch (hothers hp) hready hnext (fun v hv => hc.entry v (hheld ▸ hv)) ?_
    intro j hput hdone
    have hj : j ≠ i := by
      rintro rfl
      exact hgoes (by simpa using hdone)
    rw [Function.update_of_ne hj] at hdone
    rw [hheld]
    exact hc.stored j hput hdone
  | renamed value cuts hput hp hheld =>
    have hputs : Puts calls value := ⟨i, cuts, hput⟩
    refine hc.touch (hothers (Or.inr hp)) hready hnext (fun v hv => ?_)
      fun j _ _ => ⟨value, hputs, hheld⟩
    obtain rfl : value = v := Option.some.inj (hheld.symm.trans hv)
    exact hwhole value hputs

theorem Stage.answers {a : Access} {r : Except FsError a.Output}
    (h : Stage root key whole fs a (.done r)) : Answers whole a r := by
  generalize hp : (Program.done r : FsM (Except FsError a.Output)) = p at h
  cases h with
  | get => cases hp
  | got r' hr =>
    cases hp
    exact hr
  | put value cuts => cases hp
  | writing value cuts file rest hfile hdata => cases rest <;> cases hp
  | stored value cuts =>
    cases hp
    rfl

/-- In every run in which no put opens the temporary file while another one is amid its writing,
no get sees a torn value, no put fails, and the last value is that of a put. -/
theorem puts_apart_untorn (sys : System) (hready : Ready root key fs) (calls : ι → Access)
    (schedule : List ι)
    (hapart : Runs.Along (Pool.step (answer sys)) Apart (start root key calls fs) schedule) :
    Untorn root key fs calls
      (Pool.run (answer sys) (start root key calls fs) schedule) := by
  have hsound := hapart.keeps
    (fun c i (hc : Sound root key (fun v => fs.held (pathFor root key) = some v ∨ Puts calls v) c)
      happ => hc.step sys (fun v hv => Or.inr hv) happ)
    (sound_start hready fun v hv => Or.inl hv)
  refine ⟨fun i r hr => ?_, fun hsome hall => ?_⟩
  · have hstage := hsound.stage i
    change Pool.threads (List.foldl _ _ _) i = _ at hr
    rw [hr] at hstage
    exact hstage.answers
  · obtain ⟨i, hput⟩ := hsome
    exact hsound.stored i hput (hall i hput)

/-! ## A run in which they do not -/
namespace Torn

def dir : Path := [.rootDir, .normal ['c']]

def inOrder : System :=
  { order := fun _ names => names, listed := fun _ names => .refl names, seekMax := i64Max
    seekMax_le := Nat.le_refl _ }

def accesses : Fin 3 → Access
  | 0 => .put [1, 2] []
  | 1 => .put [3] []
  | 2 => .get

/-- The second put truncates what the first one wrote, and the first one's rename shows it to the
get; the second put's own rename finds nothing. -/
def schedule : List (Fin 3) := [0, 0, 1, 0, 2, 1, 1]

def final : AccessPool accesses :=
  Pool.run (answer inOrder) (start dir "k" accesses (Table.ofDirs [dir] [])) schedule

end Torn

theorem puts_overlap_torn :
    Ready Torn.dir "k" (Table.ofDirs [Torn.dir] []) ∧
      Torn.final.threads 2 = .done (.ok (some [])) ∧
      Torn.final.threads 1 = .done (.error .notFound) ∧
      ¬ Untorn Torn.dir "k" (Table.ofDirs [Torn.dir] []) Torn.accesses Torn.final := by
  have hget : Torn.final.threads 2 = .done (.ok (some [])) := rfl
  have hput : Torn.final.threads 1 = .done (.error .notFound) := rfl
  refine ⟨⟨Table.isDir_ofDirs.2 (by simp), fun h => ?_, fun h => ?_⟩, hget, hput, fun h => ?_⟩
  · exact absurd (Table.isDir_ofDirs.1 h) (by decide)
  · exact absurd (Table.isDir_ofDirs.1 h) (by decide)
  · cases h.returns 1 _ hput

/-- Two puts one after the other, and a get at the end. -/
theorem puts_apart_untorn_in_turn :
    Untorn Torn.dir "k" (Table.ofDirs [Torn.dir] []) Torn.accesses
      (Pool.run (answer Torn.inOrder)
        (start Torn.dir "k" Torn.accesses (Table.ofDirs [Torn.dir] [])) [0, 0, 0, 1, 1, 1, 2]) := by
  refine puts_apart_untorn Torn.inOrder puts_overlap_torn.1 Torn.accesses _ ?_
  decide

end Tierstore.Disk
