/-! Routing policy: the semantics of a tier hierarchy, apart from the mechanism. -/
namespace Tierstore

inductive Eviction where
  | fifo
  | lru
  deriving DecidableEq, Repr

inductive Promote where
  | never
  | topOnly
  | allAbove
  deriving DecidableEq, Repr

inductive OnReadError where
  | fallThrough
  | failFast
  deriving DecidableEq, Repr

inductive OnWriteError where
  | failFast
  | bestEffort
  deriving DecidableEq, Repr

inductive WriteMode where
  | writeThrough
  | writeAround
  deriving DecidableEq, Repr

structure ReadPolicy where
  promote : Promote
  onError : OnReadError
  deriving DecidableEq, Repr

structure Policy where
  read : ReadPolicy
  write : WriteMode
  onWriteError : OnWriteError
  demoteDisplaced : Bool
  deriving DecidableEq, Repr

/-- The neutral fallback chain: the router moves no data on its own. -/
def Policy.default : Policy :=
  { read := { promote := .never, onError := .fallThrough }
    write := .writeThrough
    onWriteError := .failFast
    demoteDisplaced := false }

end Tierstore
