import Tierstore.Lib.Interleave
import Tierstore.Mmap.Index

/-! The mmap disk tier as programs over file-system calls and lock sections, each of which is
one atomic step. Keys are non-empty, so that distinct keys name distinct files. -/
namespace Tierstore.Mmap
open Overlay Effects

inductive IoError where
  | notFound
  deriving DecidableEq, Repr

structure Disk (K : Type) where
  files : K → Option Bytes
  tmp : K → Option Bytes

structure State (K : Type) where
  inner : Inner K
  disk : Disk K

structure Config where
  budget : Option ℕ+
  eviction : Eviction

inductive MmapQuery (K : Type) where
  | writeTmp (key : K) (value : Bytes)
  | rename (key : K)
  | map (key : K)
  | unlink (key : K)
  | probe (key : K)
  | retain (key : K) (bytes : Bytes)
  | account (key : K) (len : Nat) (mapped : Option Bytes)
  | forget (key : K)
  deriving DecidableEq

abbrev MmapAnswer {K : Type} : MmapQuery K → Type
  | .writeTmp _ _ => Unit
  | .rename _ => Except IoError Unit
  | .map _ => Option Bytes
  | .unlink _ => Bool
  | .probe _ => Option Bytes
  | .retain _ _ => Unit
  | .account _ _ _ => Displaced K Bytes
  | .forget _ => Unit

abbrev MmapM (K : Type) := Program (MmapQuery K) MmapAnswer

/-! ## The calls -/

inductive MmapCall (K : Type) where
  | get (key : K)
  | put (key : K) (value : Bytes)
  | delete (key : K)
  deriving DecidableEq

abbrev MmapCall.Output {K : Type} : MmapCall K → Type
  | .get _ => Except IoError (Option Bytes)
  | .put _ _ => Except IoError (Displaced K Bytes)
  | .delete _ => Except IoError Bool

section Calls
variable {K : Type}

def get (key : K) : MmapM K (Except IoError (Option Bytes)) := do
  match ← Program.ask (MmapQuery.probe key) with
  | some bytes => pure (.ok (some bytes))
  | none =>
    match ← Program.ask (MmapQuery.map key) with
    | none => pure (.ok none)
    | some bytes => do
      let _ ← Program.ask (MmapQuery.retain key bytes)
      pure (.ok (some bytes))

/-- The new file is mapped before it is accounted for. -/
def put (key : K) (value : Bytes) : MmapM K (Except IoError (Displaced K Bytes)) := do
  let _ ← Program.ask (MmapQuery.writeTmp key value)
  match ← Program.ask (MmapQuery.rename key) with
  | .error e => pure (.error e)
  | .ok _ => do
    let mapped ← Program.ask (MmapQuery.map key)
    let displaced ← Program.ask (MmapQuery.account key value.length mapped)
    pure (.ok displaced)

def delete (key : K) : MmapM K (Except IoError Bool) := do
  let _ ← Program.ask (MmapQuery.forget key)
  let existed ← Program.ask (MmapQuery.unlink key)
  pure (.ok existed)

def perform : (c : MmapCall K) → MmapM K c.Output
  | .get key => get key
  | .put key value => put key value
  | .delete key => delete key

end Calls

/-! ## The steps -/
section Steps
variable {K : Type} [DecidableEq K]

def evictLoop (budget : Nat) : Nat → Inner K → (K → Option Bytes) →
    Displaced K Bytes × Inner K × (K → Option Bytes)
  | 0, inner, files => ([], inner, files)
  | fuel + 1, inner, files =>
    if inner.total > budget then
      match inner.popOldest with
      | (none, inner) => ([], inner, files)
      | (some oldest, inner) =>
        let bytes := (inner.maps.lookup oldest).or (files oldest)
        let out := evictLoop budget fuel (inner.evict oldest) (erase files oldest)
        ((bytes.map fun bytes => (oldest, bytes)).toList ++ out.1, out.2)
    else ([], inner, files)

/-- The lock section of `put`. Every turn of the loop takes a ticket from the queue. -/
def account (config : Config) (s : State K) (key : K) (len : Nat) (mapped : Option Bytes) :
    Displaced K Bytes × State K :=
  let inner := s.inner.record config.eviction key len mapped
  match config.budget with
  | none => ([], { s with inner })
  | some budget =>
    let out := evictLoop budget inner.order.length inner s.disk.files
    (out.1, { inner := out.2.1, disk := { s.disk with files := out.2.2 } })

def exec (config : Config) : (q : MmapQuery K) → State K → MmapAnswer q × State K
  | .writeTmp key value, s =>
    ((), { s with disk := { s.disk with tmp := Function.update s.disk.tmp key (some value) } })
  | .rename key, s =>
    match s.disk.tmp key with
    | none => (.error .notFound, s)
    | some bytes =>
      (.ok (), { s with
        disk := { files := Function.update s.disk.files key (some bytes)
                  tmp := Function.update s.disk.tmp key none } })
  | .map key, s => (s.disk.files key, s)
  | .unlink key, s =>
    ((s.disk.files key).isSome, { s with disk := { s.disk with files := erase s.disk.files key } })
  | .probe key, s =>
    let out := s.inner.probe config.eviction key
    (out.1, { s with inner := out.2 })
  | .retain key bytes, s =>
    ((), { s with inner := s.inner.retain config.eviction key bytes })
  | .account key len mapped, s => account config s key len mapped
  | .forget key, s => ((), { s with inner := s.inner.forget key })

abbrev MmapPool (K : Type) {ι : Type} (calls : ι → MmapCall K) :=
  Pool ι (MmapQuery K) MmapAnswer (fun i => (calls i).Output) (State K)

/-- No step blocks. -/
def step (config : Config) {ι : Type} [DecidableEq ι] {calls : ι → MmapCall K}
    (c : MmapPool K calls) (i : ι) : MmapPool K calls :=
  Pool.step (fun q s => some (exec config q s)) c i

def run (config : Config) {ι : Type} [DecidableEq ι] {calls : ι → MmapCall K}
    (c : MmapPool K calls) (schedule : List ι) : MmapPool K calls :=
  schedule.foldl (step config) c

def start {ι : Type} (calls : ι → MmapCall K) (s : State K) : MmapPool K calls :=
  .start s fun i => perform (calls i)

end Steps
end Tierstore.Mmap
