import Tierstore.Lib.Overlay

/-! The capability traits of a tier. Each method is a transition of the tier's own state;
a failed call may have changed the state too. -/
namespace Tierstore
open Overlay

/-- Entries displaced by an insert, in eviction order. -/
abbrev Displaced (K V : Type) := List (K × V)

abbrev Infallible := Empty

/-- `TierRead` and `TierWrite` as the router's `DynTier` sees them. -/
class Tier (T : Type) (K V E : outParam Type) where
  get : T → K → Except E (Option V) × T
  exists_ : T → K → Except E Bool × T
  getMany : T → List K → Except E (List (Option V)) × T
  put : T → K → V → Except E (Displaced K V) × T
  delete : T → K → Except E Bool × T
  putMany : T → List (K × V) → Except E (Displaced K V) × T
  deleteMany : T → List K → Except E (List Bool) × T

/-! ## The looping defaults of the batch methods -/
section Defaults
variable {T K V E : Type}

def getManyDefault (get : T → K → Except E (Option V) × T) :
    T → List K → Except E (List (Option V)) × T
  | t, [] => (.ok [], t)
  | t, key :: rest =>
    match get t key with
    | (.error e, t) => (.error e, t)
    | (.ok value, t) =>
      let values := getManyDefault get t rest
      (values.1.map (value :: ·), values.2)

def putManyDefault (put : T → K → V → Except E (Displaced K V) × T) :
    T → List (K × V) → Except E (Displaced K V) × T
  | t, [] => (.ok [], t)
  | t, (key, value) :: rest =>
    match put t key value with
    | (.error e, t) => (.error e, t)
    | (.ok displaced, t) =>
      let more := putManyDefault put t rest
      (more.1.map (displaced ++ ·), more.2)

def deleteManyDefault (delete : T → K → Except E Bool × T) :
    T → List K → Except E (List Bool) × T
  | t, [] => (.ok [], t)
  | t, key :: rest =>
    match delete t key with
    | (.error e, t) => (.error e, t)
    | (.ok present, t) =>
      let removed := deleteManyDefault delete t rest
      (removed.1.map (present :: ·), removed.2)

end Defaults

/-! ## One call on a tier as data -/

inductive TierCall (K V : Type) where
  | get (key : K)
  | exists_ (key : K)
  | getMany (keys : List K)
  | put (key : K) (value : V)
  | delete (key : K)
  | putMany (entries : List (K × V))
  | deleteMany (keys : List K)
  deriving DecidableEq

abbrev TierCall.Output {K V : Type} : TierCall K V → Type
  | .get _ => Option V
  | .exists_ _ => Bool
  | .getMany _ => List (Option V)
  | .put _ _ => Displaced K V
  | .delete _ => Bool
  | .putMany _ => Displaced K V
  | .deleteMany _ => List Bool

def Tier.call {T K V E : Type} [Tier T K V E] (t : T) :
    (c : TierCall K V) → Except E c.Output × T
  | .get key => Tier.get t key
  | .exists_ key => Tier.exists_ t key
  | .getMany keys => Tier.getMany t keys
  | .put key value => Tier.put t key value
  | .delete key => Tier.delete t key
  | .putMany entries => Tier.putMany t entries
  | .deleteMany keys => Tier.deleteMany t keys

end Tierstore
