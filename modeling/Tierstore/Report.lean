/-! Router errors and the per-key reports of the batched operations. -/
namespace Tierstore
variable {V E : Type}

/-- A boxed error. Nothing here looks into it. -/
abbrev BoxError := String

structure TierFailure (E : Type) where
  tier : Nat
  name : String
  source : E
  deriving DecidableEq, Repr

inductive RouterError (E : Type) where
  | tier (failure : TierFailure E)
  | inconclusive (failures : List (TierFailure E))
  | partial_ (failures : List (TierFailure E))
  | readOnly
  deriving DecidableEq, Repr

def RouterError.failures : RouterError E → List (TierFailure E)
  | .tier failure => [failure]
  | .inconclusive failures => failures
  | .partial_ failures => failures
  | .readOnly => []

inductive KeyStatus (V : Type) where
  | hit (tier : Nat) (value : V)
  | miss
  | inconclusive
  deriving DecidableEq, Repr

namespace KeyStatus

def tier : KeyStatus V → Option Nat
  | .hit tier _ => some tier
  | .miss => none
  | .inconclusive => none

def value : KeyStatus V → Option V
  | .hit _ value => some value
  | .miss => none
  | .inconclusive => none

def isInconclusive : KeyStatus V → Bool
  | .inconclusive => true
  | _ => false

end KeyStatus

structure ReadOneReport (V E : Type) where
  status : KeyStatus V
  failures : List (TierFailure E)
  deriving DecidableEq, Repr

structure ReadReport (V E : Type) where
  statuses : List (KeyStatus V)
  failures : List (TierFailure E)
  deriving DecidableEq, Repr

def ReadReport.intoValues (report : ReadReport V E) : List (Option V) :=
  report.statuses.map KeyStatus.value

structure DeleteReport (E : Type) where
  removed : List Bool
  failures : List (TierFailure E)
  deriving DecidableEq, Repr

def DeleteReport.isComplete (report : DeleteReport E) : Bool := report.failures.isEmpty

end Tierstore
