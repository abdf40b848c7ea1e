import Tierstore.Disk.KeyMap
import Tierstore.Lib.Crash

/-! The process that uses the file-per-key tier is stopped between any two system calls, and
started again. A temporary file may stay behind; no entry is ever torn. -/
namespace Tierstore.Disk
open Effects Files Mmap

def service (sys : System) (root : Path) :
    Service FsCall (fun q => Except FsError q.Output) DiskCall (fun c => Except FsError c.Output)
      FileSystem KeyMap :=
  { exec := exec sys, program := DiskCall.program root, perform := KeyMap.perform }

structure Beside (root : Path) (key : String) (fs fs' : FileSystem) : Prop where
  dirs : ∀ p, fs'.IsDir p ↔ fs.IsDir p
  held : ∀ p, p ≠ tempFor root key → fs'.held p = fs.held p

variable {root : Path} {key : String} {fs fs' : FileSystem} {m : KeyMap}

theorem Beside.refl (root : Path) (key : String) (fs : FileSystem) : Beside root key fs fs :=
  ⟨fun _ => Iff.rfl, fun _ _ => rfl⟩

theorem Beside.trans {fs'' : FileSystem} (h : Beside root key fs fs')
    (h' : Beside root key fs' fs'') : Beside root key fs fs'' :=
  ⟨fun p => (h'.dirs p).trans (h.dirs p), fun p hp => (h'.held p hp).trans (h.held p hp)⟩

theorem keyOf_tempName (key : String) : keyOf (hexName key ++ extension) = none := by
  have hext : hexDecode extension = none := by decide
  rw [keyOf, hexName, hexDecode_append, hext]
  rfl

/-- A temporary file that stays behind is no entry. -/
theorem Mirrors.beside (h : Mirrors root fs m) (hkey : key ≠ "") (hfs : Beside root key fs fs') :
    Mirrors root fs' m where
  dir := (hfs.dirs root).2 h.dir
  plain name hdir := h.plain name ((hfs.dirs _).1 hdir)
  held other hne := by
    rw [hfs.held _ (pathFor_ne_tempFor hne hkey), h.held other hne]
  named := h.named
  tidy name other hheld hkeyOf := by
    refine h.tidy name other ?_ hkeyOf
    rwa [hfs.held _ fun htemp => ?_] at hheld
    rw [tempFor_of_ne hkey] at htemp
    obtain rfl : name = hexName key ++ extension := child_injective htemp
    rw [keyOf_tempName] at hkeyOf
    cases hkeyOf

namespace DiskTier
variable (sys : System)

theorem appendAll_beside {file : Nat} (rest : List Bytes)
    (hfile : fs.names.lookup (tempFor root key) = some (.file file)) (n : Nat) :
    Beside root key fs ((appendAll file rest).runFor (exec sys) n fs) := by
  induction rest generalizing fs n with
  | nil =>
    rw [appendAll, Program.pure_eq, Program.runFor_done]
    exact .refl root key fs
  | cons piece rest ih =>
    cases n with
    | zero => exact .refl root key fs
    | succ n =>
      have hgrown : Beside root key fs (fs.write file (fs.data file ++ piece)) := by
        refine ⟨fun p => Iff.rfl, fun p hp => ?_⟩
        rw [Table.held_write hfile, Function.update_of_ne hp]
      have hnext : (fs.write file (fs.data file ++ piece)).names.lookup (tempFor root key) =
          some (.file file) := hfile
      exact hgrown.trans (ih hnext n)

theorem write_beside (hready : Ready root key fs) (cuts : List Nat) (bytes : Bytes) (n : Nat) :
    Beside root key fs ((write (tempFor root key) cuts bytes).runFor (exec sys) n fs) := by
  cases n with
  | zero => exact .refl root key fs
  | succ n =>
    obtain ⟨file, fs', hcreate, hfile, -, hheld, hdirs⟩ :=
      exec_create sys hready.temp hready.dir_temp
    have hopened : Beside root key fs fs' := by
      refine ⟨hdirs, fun p hp => ?_⟩
      rw [hheld, Function.update_of_ne hp]
    refine hopened.trans ?_
    change Beside root key fs' (Program.runFor (exec sys) n _ (exec sys (.create _) fs).2)
    rw [hcreate]
    exact appendAll_beside sys (pieces cuts bytes) hfile n

/-- Up to the rename the entries are the old ones; after it nothing is left to do. -/
theorem put_stopped (hready : Ready root key fs) (cuts : List Nat) (value : Bytes) (n : Nat) :
    Beside root key fs ((put root cuts key value).runFor (exec sys) n fs) ∨
      (put root cuts key value).runFor (exec sys) n fs =
        ((put root cuts key value).run (exec sys) fs).2 := by
  obtain hstopped | ⟨k, hstopped⟩ := Program.runFor_bind (exec sys) n
    (write (tempFor root key) cuts value) _ fs
  · rw [put, hstopped]
    exact Or.inl (write_beside sys hready cuts value n)
  · obtain ⟨file, fs', hwrite, -, -, hheld, hdirs⟩ :=
      run_write sys cuts value hready.temp hready.dir_temp
    rw [put, hstopped, Program.run_bind, hwrite]
    cases k with
    | zero =>
      refine Or.inl ⟨hdirs, fun p hp => ?_⟩
      change fs'.held p = fs.held p
      rw [hheld, Function.update_of_ne hp]
    | succ k =>
      refine Or.inr (Program.runFor_last (exec sys) (fun r => ?_) k fs')
      cases r <;> exact ⟨_, rfl⟩

end DiskTier

/-- A stopped call has left the map as it was, or nothing to do. -/
theorem Mirrors.stopped (h : Mirrors root fs m) (sys : System) {c : DiskCall} (hc : c.Named)
    (n : Nat) : Mirrors root ((c.program root).runFor (exec sys) n fs) m ∨
      (c.program root).runFor (exec sys) n fs = ((c.program root).run (exec sys) fs).2 := by
  cases n with
  | zero => exact Or.inl h
  | succ n =>
    cases c with
    | put key value cuts =>
      exact (DiskTier.put_stopped sys (h.ready hc) cuts value (n + 1)).imp_left (h.beside hc)
    | get key =>
      refine Or.inr (Program.runFor_last (exec sys) (fun r => ?_) n fs)
      cases r with
      | ok bytes => exact ⟨_, rfl⟩
      | error e => cases e <;> exact ⟨_, rfl⟩
    | exists_ key => exact Or.inr (Program.runFor_done (exec sys) n _ _)
    | delete key =>
      refine Or.inr (Program.runFor_last (exec sys) (fun r => ?_) n fs)
      cases r with
      | ok _ => exact ⟨_, rfl⟩
      | error e => cases e <;> exact ⟨_, rfl⟩
    | list cursor limit =>
      refine Or.inr (Program.runFor_last (exec sys) (fun r => ?_) n fs)
      cases r <;> exact ⟨_, rfl⟩

theorem service_atomic (sys : System) (root : Path) :
    (service sys root).Atomic DiskCall.Named (Mirrors root) where
  done _ _ _ h hc := h.perform sys hc
  stopped fs m c n h hc := by
    refine (h.stopped sys hc n).imp_right fun hrun => ?_
    have hwhole := (h.perform sys hc).2
    rwa [DiskTier.perform, ← hrun] at hwhole

/-- However often the process is stopped, and wherever: from an empty root on, every answer is one
of a plain map that has performed all the calls that returned and some of those that were
stopped, each of them whole, and that map is what the files hold at the end. -/
theorem crashes_are_atomic (sys : System) (hfresh : Fresh root fs)
    {attempts : List (Attempt DiskCall)} (hnamed : ∀ e ∈ attempts, e.call.Named) :
    ∃ m, (service sys root).Survives ∅ attempts ((service sys root).log fs attempts) m ∧
      Mirrors root (attempts.foldl (service sys root).step fs) m :=
  (service_atomic sys root).survives hfresh.mirrors hnamed

/-- A put stopped before its rename, one stopped after it, and the listing that tells them
apart. -/
theorem crashes_are_atomic_naive :
    ∃ m, (service EmptyKey.inOrder EmptyKey.dir).Survives ∅
        [.stopped (.put "ï" [2, 3] [1]) 3, .stopped (.put "k" [4] []) 3, .done (.list none 5)]
        [⟨.list none 5, .ok { keys := ["k"], next := none }⟩] m ∧
      Mirrors EmptyKey.dir ([Attempt.stopped (.put "ï" [2, 3] [1]) 3,
        .stopped (.put "k" [4] []) 3, .done (.list none 5)].foldl
          (service EmptyKey.inOrder EmptyKey.dir).step EmptyKey.files) m :=
  crashes_are_atomic EmptyKey.inOrder EmptyKey.fresh (by decide)

end Tierstore.Disk
