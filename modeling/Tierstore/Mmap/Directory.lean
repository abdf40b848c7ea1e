import Mathlib.Data.List.Sort
import Mathlib.Data.String.Basic
import Tierstore.Mmap.Names
import Tierstore.Mmap.Tier

/-! The mmap tier one file-system call at a time: each call may fail, and the process may stop
before any of them. -/
namespace Tierstore.Mmap
open Effects

inductive FsError where
  | notFound
  | other
  deriving DecidableEq, Repr

abbrev Directory := AList fun _ : FileName => Bytes

structure DirEntry where
  name : FileName
  len : Nat
  modified : Nat

inductive FsCall where
  | createDir
  | create (name : FileName)
  | write (name : FileName) (bytes : Bytes)
  | rename (source target : FileName)
  | openFile (name : FileName)
  | mapFile (file : Bytes)
  | tryExists (name : FileName)
  | unlink (name : FileName)
  | readDir

abbrev FsCall.Output : FsCall → Type
  | .openFile _ => Bytes
  | .mapFile _ => Bytes
  | .tryExists _ => Bool
  | .readDir => List DirEntry
  | _ => Unit

abbrev FsM := Program FsCall fun q => Except FsError q.Output

/-! ## The operating system -/

/-- What the system decides at each call, by the number of the call: the order and the times of
a listing, and whether the call fails. -/
structure System where
  listing : Nat → Directory → List (FileName × Nat)
  listed : ∀ clock dir, ((listing clock dir).map Prod.fst).Perm dir.keys
  fails : Nat → Bool

structure World where
  dir : Directory
  clock : Nat

namespace System

def plain (fails : Nat → Bool) : System :=
  { listing := fun _ dir => dir.keys.map fun name => (name, 0)
    listed := fun _ dir => by simp [List.map_map, Function.comp_def]
    fails }

def answer (sys : System) (w : World) : (q : FsCall) → Except FsError q.Output × Directory
  | .createDir => (.ok (), w.dir)
  | .create name => (.ok (), w.dir.insert name [])
  | .write name bytes => (.ok (), w.dir.insert name bytes)
  | .rename source target =>
    match w.dir.lookup source with
    | none => (.error .notFound, w.dir)
    | some bytes => (.ok (), (w.dir.erase source).insert target bytes)
  | .openFile name =>
    match w.dir.lookup name with
    | none => (.error .notFound, w.dir)
    | some bytes => (.ok bytes, w.dir)
  | .mapFile file => (.ok file, w.dir)
  | .tryExists name => (.ok (decide (name ∈ w.dir)), w.dir)
  | .unlink name =>
    if name ∈ w.dir then (.ok (), w.dir.erase name) else (.error .notFound, w.dir)
  | .readDir =>
    (.ok ((sys.listing w.clock w.dir).map fun entry =>
      { name := entry.1, len := ((w.dir.lookup entry.1).getD []).length, modified := entry.2 }),
      w.dir)

/-- A call that fails has no effect. -/
def exec (sys : System) (q : FsCall) (w : World) : Except FsError q.Output × World :=
  if sys.fails w.clock then (.error .other, { w with clock := w.clock + 1 })
  else
    let out := sys.answer w q
    (out.1, { dir := out.2, clock := w.clock + 1 })

def run {α : Type} (sys : System) (p : FsM α) (w : World) : α × World := p.run sys.exec w

end System

/-! ## The tier -/
namespace Fs

/-- `Ok(None)` when the file does not exist. The file that was opened is mapped, whatever
becomes of its name. -/
def mapFile (name : FileName) : FsM (Except FsError (Option Bytes)) := do
  match ← Program.ask (FsCall.openFile name) with
  | .error .notFound => pure (.ok none)
  | .error e => pure (.error e)
  | .ok file =>
    match ← Program.ask (FsCall.mapFile file) with
    | .error e => pure (.error e)
    | .ok bytes => pure (.ok (some bytes))

def get (config : Config) (inner : Inner Key) (key : Key) :
    FsM (Except FsError (Option Bytes) × Inner Key) := do
  let (cached, inner) := inner.probe config.eviction key
  match cached with
  | some bytes => pure (.ok (some bytes), inner)
  | none =>
    match ← mapFile (entryName key) with
    | .error e => pure (.error e, inner)
    | .ok none => pure (.ok none, inner)
    | .ok (some bytes) => pure (.ok (some bytes), inner.retain config.eviction key bytes)

def exists_ (inner : Inner Key) (key : Key) : FsM (Except FsError Bool × Inner Key) := do
  if key ∈ inner.maps then pure (.ok true, inner)
  else
    let found ← Program.ask (FsCall.tryExists (entryName key))
    pure (found, inner)

/-- The value of a victim: its mapping, or its file mapped now; a failure drops it. -/
def victimBytes (inner : Inner Key) (oldest : Key) : FsM (Option Bytes) := do
  match inner.maps.lookup oldest with
  | some bytes => pure (some bytes)
  | none =>
    match ← mapFile (entryName oldest) with
    | .ok bytes => pure bytes
    | .error _ => pure none

/-- Every turn takes a ticket from the queue, so there are enough turns. The result of the
unlink is ignored. -/
def evictLoop (budget : Nat) : Nat → Inner Key → FsM (Displaced Key Bytes × Inner Key)
  | 0, inner => pure ([], inner)
  | turns + 1, inner =>
    if inner.total > budget then
      match inner.popOldest with
      | (none, inner) => pure ([], inner)
      | (some oldest, inner) => do
        let bytes ← victimBytes inner oldest
        let _ ← Program.ask (FsCall.unlink (entryName oldest))
        let out ← evictLoop budget turns (inner.evict oldest)
        pure ((bytes.map fun bytes => (oldest, bytes)).toList ++ out.1, out.2)
    else pure ([], inner)

def account (config : Config) (inner : Inner Key) (key : Key) (len : Nat)
    (mapped : Option Bytes) : FsM (Displaced Key Bytes × Inner Key) :=
  let inner := inner.record config.eviction key len mapped
  match config.budget with
  | none => pure ([], inner)
  | some budget => evictLoop budget inner.order.length inner

/-- Temporary file, then rename; `fs::write` creates the file and then writes it. -/
def store (key : Key) (value : Bytes) : FsM (Except FsError Unit) := do
  match ← Program.ask (FsCall.create (tempName key)) with
  | .error e => pure (.error e)
  | .ok _ =>
  match ← Program.ask (FsCall.write (tempName key) value) with
  | .error e => pure (.error e)
  | .ok _ => Program.ask (FsCall.rename (tempName key) (entryName key))

def put (config : Config) (inner : Inner Key) (key : Key) (value : Bytes) :
    FsM (Except FsError (Displaced Key Bytes) × Inner Key) := do
  match ← store key value with
  | .error e => pure (.error e, inner)
  | .ok _ =>
  match ← mapFile (entryName key) with
  | .error e => pure (.error e, inner)
  | .ok mapped => do
    let out ← account config inner key value.length mapped
    pure (.ok out.1, out.2)

def delete (inner : Inner Key) (key : Key) : FsM (Except FsError Bool × Inner Key) := do
  match ← Program.ask (FsCall.unlink (entryName key)) with
  | .ok _ => pure (.ok true, inner.forget key)
  | .error .notFound => pure (.ok false, inner.forget key)
  | .error e => pure (.error e, inner.forget key)

/-- The looping defaults of the batch methods: the first error ends the batch. -/
def each {α β : Type} (one : Inner Key → α → FsM (Except FsError β × Inner Key)) :
    Inner Key → List α → FsM (Except FsError (List β) × Inner Key)
  | inner, [] => pure (.ok [], inner)
  | inner, a :: rest => do
    match ← one inner a with
    | (.error e, inner) => pure (.error e, inner)
    | (.ok b, inner) => do
      let out ← each one inner rest
      pure (out.1.map (b :: ·), out.2)

def call (config : Config) (inner : Inner Key) :
    (c : TierCall Key Bytes) → FsM (Except FsError c.Output × Inner Key)
  | .get key => get config inner key
  | .exists_ key => exists_ inner key
  | .getMany keys => each (get config) inner keys
  | .put key value => put config inner key value
  | .delete key => delete inner key
  | .putMany entries => do
    let out ← each (fun inner (entry : Key × Bytes) => put config inner entry.1 entry.2)
      inner entries
    pure (out.1.map List.flatten, out.2)
  | .deleteMany keys => each delete inner keys

def unlinkAll : List DirEntry → FsM Unit
  | [] => pure ()
  | entry :: rest => do
    let _ ← Program.ask (FsCall.unlink entry.name)
    unlinkAll rest

def clear (inner : Inner Key) : FsM (Except FsError Unit × Inner Key) := do
  match ← Program.ask FsCall.readDir with
  | .error e => pure (.error e, inner.clear)
  | .ok entries => do
    unlinkAll entries
    pure (.ok (), inner.clear)

def keysOf (entries : List DirEntry) : List Key :=
  (entries.filterMap fun entry => keyOf entry.name).insertionSort fun a b => a.1 ≤ b.1

def list (cursor : Option Nat) (limit : Nat) : FsM (Except FsError (Page Key Nat)) := do
  match ← Program.ask FsCall.readDir with
  | .error e => pure (.error e)
  | .ok entries =>
    let all := keysOf entries
    let offset := cursor.getD 0
    let keys := (all.drop offset).take limit
    let next := min (offset + keys.length) usizeMax
    pure (.ok { keys, next := if limit > 0 ∧ next < all.length then some next else none })

def found (entries : List DirEntry) : List (Key × Nat) :=
  let found := entries.filterMap fun entry => (keyOf entry.name).map fun key => (key, entry)
  (found.insertionSort fun a b => a.2.modified ≤ b.2.modified).map fun e => (e.1, e.2.len)

def openInner : FsM (Except FsError (Inner Key)) := do
  match ← Program.ask FsCall.createDir with
  | .error e => pure (.error e)
  | .ok _ =>
  match ← Program.ask FsCall.readDir with
  | .error e => pure (.error e)
  | .ok entries => pure (.ok (Inner.scan (found entries)))

end Fs
end Tierstore.Mmap
