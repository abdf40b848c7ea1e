import Mathlib.Data.List.AList
import Mathlib.Logic.Function.Basic

/-! Names over files: a name is a directory or leads to a file, and no two names lead to one file.
Whoever has a file open keeps it, whatever becomes of its name. -/
namespace Files

inductive Node where
  | dir
  | file (inode : Nat)
  deriving DecidableEq, Repr

structure Table (P B : Type) [DecidableEq P] where
  names : AList fun _ : P => Node
  data : Nat → B
  next : Nat
  fresh : ∀ path inode, names.lookup path = some (.file inode) → inode < next
  single : ∀ path path' inode, names.lookup path = some (.file inode) →
    names.lookup path' = some (.file inode) → path = path'

namespace Table
variable {P B : Type} [DecidableEq P]

def dirNames (dirs : List P) : AList fun _ : P => Node :=
  dirs.foldr (fun dir names => names.insert dir .dir) ∅

theorem lookup_dirNames (dirs : List P) (p : P) :
    (dirNames dirs).lookup p = if p ∈ dirs then some .dir else none := by
  induction dirs with
  | nil => rfl
  | cons dir dirs ih =>
    by_cases h : p = dir
    · rw [dirNames, List.foldr_cons, h, AList.lookup_insert]
      simp
    · rw [dirNames, List.foldr_cons, AList.lookup_insert_ne h]
      change (dirNames dirs).lookup p = _
      simpa [h] using ih

theorem lookup_dirNames_ne_file (dirs : List P) (p : P) (inode : Nat) :
    (dirNames dirs).lookup p ≠ some (.file inode) := by
  rw [lookup_dirNames]
  split <;> simp

def ofDirs (dirs : List P) (b : B) : Table P B :=
  { names := dirNames dirs
    data := fun _ => b
    next := 0
    fresh := fun path inode h => absurd h (lookup_dirNames_ne_file dirs path inode)
    single := fun path _ inode h _ => absurd h (lookup_dirNames_ne_file dirs path inode) }

variable (t : Table P B) {p q : P} {inode : Nat}

def held (p : P) : Option B :=
  match t.names.lookup p with
  | some (.file inode) => some (t.data inode)
  | _ => none

def IsDir (p : P) : Prop := t.names.lookup p = some .dir

instance (p : P) : Decidable (t.IsDir p) := inferInstanceAs (Decidable (_ = _))

/-- A new file under a name, which loses the file it had. -/
def create (p : P) (b : B) : Table P B :=
  { names := t.names.insert p (.file t.next)
    data := Function.update t.data t.next b
    next := t.next + 1
    fresh := fun path inode h => by
      by_cases hp : path = p
      · subst hp
        simp only [AList.lookup_insert, Option.some.injEq, Node.file.injEq] at h
        omega
      · rw [AList.lookup_insert_ne hp] at h
        exact Nat.lt_succ_of_lt (t.fresh path inode h)
    single := fun path path' inode h h' => by
      by_cases hp : path = p
      · by_cases hp' : path' = p
        · rw [hp, hp']
        · subst hp
          rw [AList.lookup_insert_ne hp'] at h'
          simp only [AList.lookup_insert, Option.some.injEq, Node.file.injEq] at h
          exact absurd (t.fresh path' inode h') (by omega)
      · rw [AList.lookup_insert_ne hp] at h
        by_cases hp' : path' = p
        · subst hp'
          simp only [AList.lookup_insert, Option.some.injEq, Node.file.injEq] at h'
          exact absurd (t.fresh path inode h) (by omega)
        · rw [AList.lookup_insert_ne hp'] at h'
          exact t.single path path' inode h h' }

/-- A file's bytes change, under whatever name it has. -/
def write (inode : Nat) (b : B) : Table P B :=
  { t with data := Function.update t.data inode b }

def remove (p : P) : Table P B :=
  { t with
    names := t.names.erase p
    fresh := fun path inode h => by
      by_cases hp : path = p
      · subst hp
        simp at h
      · rw [AList.lookup_erase_ne hp] at h
        exact t.fresh path inode h
    single := fun path path' inode h h' => by
      by_cases hp : path = p
      · subst hp
        simp at h
      · rw [AList.lookup_erase_ne hp] at h
        by_cases hp' : path' = p
        · subst hp'
          simp at h'
        · rw [AList.lookup_erase_ne hp'] at h'
          exact t.single path path' inode h h' }

/-- The file under `p` is found under `q` from now on, instead of the file there. -/
def move (p q : P) (inode : Nat) (hp : t.names.lookup p = some (.file inode)) : Table P B :=
  { t with
    names := (t.names.erase p).insert q (.file inode)
    fresh := fun path inode' h => by
      by_cases hq : path = q
      · subst hq
        simp only [AList.lookup_insert, Option.some.injEq, Node.file.injEq] at h
        exact h ▸ t.fresh p inode hp
      · rw [AList.lookup_insert_ne hq] at h
        exact (t.remove p).fresh path inode' h
    single := fun path path' inode' h h' => by
      -- the name the file had is gone, so its new one is the only one
      have honly : ∀ r, (t.names.erase p).lookup r ≠ some (.file inode) := by
        intro r hr
        by_cases hrp : r = p
        · subst hrp
          simp at hr
        · rw [AList.lookup_erase_ne hrp] at hr
          exact hrp (t.single r p inode hr hp)
      by_cases hq : path = q
      · by_cases hq' : path' = q
        · rw [hq, hq']
        · subst hq
          rw [AList.lookup_insert_ne hq'] at h'
          simp only [AList.lookup_insert, Option.some.injEq, Node.file.injEq] at h
          exact absurd (h ▸ h') (honly path')
      · rw [AList.lookup_insert_ne hq] at h
        by_cases hq' : path' = q
        · subst hq'
          simp only [AList.lookup_insert, Option.some.injEq, Node.file.injEq] at h'
          exact absurd (h' ▸ h) (honly path)
        · rw [AList.lookup_insert_ne hq'] at h'
          exact (t.remove p).single path path' inode' h h' }

/-! ## What is there after each change -/
variable {t}

theorem lookup_create (p : P) (b : B) : (t.create p b).names.lookup p = some (.file t.next) :=
  AList.lookup_insert _

theorem lookup_create_ne (h : q ≠ p) (b : B) :
    (t.create p b).names.lookup q = t.names.lookup q := AList.lookup_insert_ne h

theorem lookup_remove (p : P) : (t.remove p).names.lookup p = none := AList.lookup_erase _ _

theorem lookup_remove_ne (h : q ≠ p) : (t.remove p).names.lookup q = t.names.lookup q :=
  AList.lookup_erase_ne h

theorem lookup_move (hp : t.names.lookup p = some (.file inode)) (q : P) :
    (t.move p q inode hp).names.lookup q = some (.file inode) := AList.lookup_insert _

theorem lookup_move_ne (hp : t.names.lookup p = some (.file inode)) {q r : P} (h : r ≠ q) :
    (t.move p q inode hp).names.lookup r = (t.remove p).names.lookup r := AList.lookup_insert_ne h

theorem isDir_create (hp : ¬ t.IsDir p) (b : B) : (t.create p b).IsDir q ↔ t.IsDir q := by
  by_cases hq : q = p
  · subst hq
    simp [IsDir, lookup_create, show t.names.lookup q ≠ some .dir from hp]
  · rw [IsDir, lookup_create_ne hq, IsDir]

theorem isDir_remove (hp : ¬ t.IsDir p) : (t.remove p).IsDir q ↔ t.IsDir q := by
  by_cases hq : q = p
  · subst hq
    simp [IsDir, lookup_remove, show t.names.lookup q ≠ some .dir from hp]
  · rw [IsDir, lookup_remove_ne hq, IsDir]

theorem isDir_move (hp : t.names.lookup p = some (.file inode)) {q r : P} (hq : ¬ t.IsDir q) :
    (t.move p q inode hp).IsDir r ↔ t.IsDir r := by
  by_cases hr : r = q
  · subst hr
    simp [IsDir, lookup_move hp, show t.names.lookup r ≠ some .dir from hq]
  · rw [IsDir, lookup_move_ne hp hr]
    exact isDir_remove (by simp [IsDir, hp])

theorem held_of_file (h : t.names.lookup p = some (.file inode)) :
    t.held p = some (t.data inode) := by
  simp [held, h]

theorem held_eq_none (h : ∀ inode, t.names.lookup p ≠ some (.file inode)) : t.held p = none := by
  unfold held
  split
  next inode hp => exact absurd hp (h inode)
  next => rfl

theorem held_ne_none : t.held p ≠ none ↔ ∃ inode, t.names.lookup p = some (.file inode) := by
  constructor
  · intro h
    by_contra hno
    exact h (held_eq_none fun inode hp => hno ⟨inode, hp⟩)
  · rintro ⟨inode, hp⟩
    simp [held_of_file hp]

theorem isDir_ofDirs {dirs : List P} {b : B} : (ofDirs dirs b).IsDir p ↔ p ∈ dirs := by
  rw [IsDir, ofDirs, lookup_dirNames]
  split <;> simp_all

theorem mem_names : p ∈ t.names ↔ t.IsDir p ∨ t.held p ≠ none := by
  rw [← AList.lookup_isSome, IsDir, held]
  cases t.names.lookup p with
  | none => simp
  | some node => cases node <;> simp

theorem held_create (p : P) (b : B) : (t.create p b).held = Function.update t.held p (some b) := by
  funext r
  by_cases hr : r = p
  · subst hr
    rw [Function.update_self, held_of_file (lookup_create r b)]
    simp [create]
  · rw [Function.update_of_ne hr]
    unfold held
    rw [lookup_create_ne hr]
    split
    next inode hi =>
      have hlt := t.fresh r inode hi
      simp [create, Function.update_of_ne (Nat.ne_of_lt hlt)]
    next => rfl

theorem held_write (hp : t.names.lookup p = some (.file inode)) (b : B) :
    (t.write inode b).held = Function.update t.held p (some b) := by
  funext r
  by_cases hr : r = p
  · subst hr
    rw [Function.update_self, held_of_file (t := t.write inode b) hp]
    simp [write]
  · rw [Function.update_of_ne hr]
    have hnames : (t.write inode b).names.lookup r = t.names.lookup r := rfl
    unfold held
    rw [hnames]
    split
    next inode' hi =>
      have hne : inode' ≠ inode := by
        rintro rfl
        exact hr (t.single r p inode' hi hp)
      simp [write, Function.update_of_ne hne]
    next => rfl

theorem held_remove (p : P) : (t.remove p).held = Function.update t.held p none := by
  funext r
  by_cases hr : r = p
  · subst hr
    rw [Function.update_self]
    exact held_eq_none fun inode h => absurd (lookup_remove r ▸ h) (by simp)
  · rw [Function.update_of_ne hr]
    unfold held
    rw [lookup_remove_ne hr]
    rfl

theorem held_move (hp : t.names.lookup p = some (.file inode)) (q : P) :
    (t.move p q inode hp).held =
      Function.update (Function.update t.held p none) q (some (t.data inode)) := by
  funext r
  by_cases hr : r = q
  · subst hr
    rw [Function.update_self, held_of_file (lookup_move hp r)]
    rfl
  · rw [Function.update_of_ne hr, ← held_remove]
    unfold held
    rw [lookup_move_ne hp hr]
    rfl

end Table
end Files
