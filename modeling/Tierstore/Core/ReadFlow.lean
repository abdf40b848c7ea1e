import Tierstore.Core.Policy

/-! The sans-io read flow: which tier to probe next, when to promote, how to classify the
outcome. A panic of the source is `none`. -/
namespace Tierstore

inductive ReadOutcome where
  | hit (tier : Nat)
  | miss
  | inconclusive
  | failed (tier : Nat)
  deriving DecidableEq, Repr

inductive ReadStep where
  | get (tier : Nat)
  | promote (tier : Nat)
  | done (outcome : ReadOutcome)
  deriving DecidableEq, Repr

inductive Probe where
  | hit
  | miss
  | error
  deriving DecidableEq, Repr

namespace ReadFlow

inductive State where
  | probe (tier : Nat)
  | promote (hit next : Nat)
  | done (outcome : ReadOutcome)
  deriving DecidableEq, Repr

end ReadFlow

structure ReadFlow where
  tiers : Nat
  policy : ReadPolicy
  errors : Nat
  state : ReadFlow.State
  deriving DecidableEq, Repr

namespace ReadFlow

def new (tiers : Nat) (policy : ReadPolicy) : ReadFlow :=
  { tiers, policy, errors := 0, state := if tiers = 0 then .done .miss else .probe 0 }

def step (flow : ReadFlow) : ReadStep :=
  match flow.state with
  | .probe tier => .get tier
  | .promote _ next => .promote next
  | .done outcome => .done outcome

def advance (flow : ReadFlow) (tier : Nat) : ReadFlow :=
  let next := tier + 1
  { flow with
    state := if next < flow.tiers then .probe next
      else if flow.errors > 0 then .done .inconclusive
      else .done .miss }

def afterHit (flow : ReadFlow) (tier : Nat) : State :=
  if tier = 0 ∨ flow.policy.promote = .never then .done (.hit tier)
  else .promote tier 0

/-- `none` is the panic of a driver that reports a probe nobody asked for. -/
def onGet (flow : ReadFlow) (probe : Probe) : Option ReadFlow :=
  match flow.state with
  | .probe tier =>
    match probe with
    | .hit => some { flow with state := flow.afterHit tier }
    | .miss => some (flow.advance tier)
    | .error =>
      match flow.policy.onError with
      | .failFast => some { flow with state := .done (.failed tier) }
      | .fallThrough => some ({ flow with errors := flow.errors + 1 }.advance tier)
  | _ => none

/-- `none` is the panic outside a promotion, or the `unreachable!` under `never`. -/
def onPromote (flow : ReadFlow) : Option ReadFlow :=
  match flow.state with
  | .promote hit next =>
    match flow.policy.promote with
    | .topOnly => some { flow with state := .done (.hit hit) }
    | .allAbove =>
      some { flow with
        state := if next + 1 = hit then .done (.hit hit) else .promote hit (next + 1) }
    | .never => none
  | _ => none

end ReadFlow
end Tierstore
