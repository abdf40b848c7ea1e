import Mathlib.Data.List.OfFn
import Mathlib.Data.List.FinRange
import Tierstore.Lib.Program
import Tierstore.Core.ReadFlow
import Tierstore.Core.Tier
import Tierstore.Report

/-! The tier router. Its operations are programs over single tier calls; the counters are
bumped where a call is answered, in `Stack`. -/
namespace Tierstore
open Effects

/-- A call on one of `n` tiers; tier `0` is the topmost. -/
abbrev Query (n : Nat) (K V : Type) := Fin n × TierCall K V

abbrev Answer (n : Nat) (K V E : Type) (q : Query n K V) := Except E q.2.Output

abbrev RouterM (n : Nat) (K V E : Type) := Program (Query n K V) (Answer n K V E)

/-- What a router holds besides the tiers themselves: no operation changes it. -/
structure Router (n : Nat) where
  writable : Fin n → Bool
  name : Fin n → String
  policy : Policy

def Router.uniform (n : Nat) (name : String) (policy : Policy) : Router n :=
  { writable := fun _ => true, name := fun _ => name, policy }

section Calls
variable {n : Nat} {K V E : Type}

def getAt (tier : Fin n) (key : K) : RouterM n K V E (Except E (Option V)) :=
  Program.ask (tier, TierCall.get key)

def existsAt (tier : Fin n) (key : K) : RouterM n K V E (Except E Bool) :=
  Program.ask (tier, TierCall.exists_ key)

def getManyAt (tier : Fin n) (keys : List K) : RouterM n K V E (Except E (List (Option V))) :=
  Program.ask (tier, TierCall.getMany keys)

def putAt (tier : Fin n) (key : K) (value : V) : RouterM n K V E (Except E (Displaced K V)) :=
  Program.ask (tier, TierCall.put key value)

def deleteAt (tier : Fin n) (key : K) : RouterM n K V E (Except E Bool) :=
  Program.ask (tier, TierCall.delete key)

def putManyAt (tier : Fin n) (entries : List (K × V)) :
    RouterM n K V E (Except E (Displaced K V)) :=
  Program.ask (tier, TierCall.putMany entries)

def deleteManyAt (tier : Fin n) (keys : List K) : RouterM n K V E (Except E (List Bool)) :=
  Program.ask (tier, TierCall.deleteMany keys)

end Calls

def tiersBelow {n : Nat} (tier : Fin n) : List (Fin n) := (List.finRange n).drop (tier + 1)

/-! ## Positions in the stack -/
section Positions
variable {n : Nat}

theorem val_of_split {above below : List (Fin n)} {t : Fin n}
    (h : List.finRange n = above ++ t :: below) : t.val = above.length := by
  have hlen : above.length < (List.finRange n).length := by simp [h]
  have ht : (List.finRange n)[above.length] = t := by simp [h]
  rw [← ht]
  simp

theorem length_of_split {above below : List (Fin n)} {t : Fin n}
    (h : List.finRange n = above ++ t :: below) : t.val + 1 + below.length = n := by
  have hlen := congrArg List.length h
  simp only [List.length_finRange, List.length_append, List.length_cons] at hlen
  rw [val_of_split h]
  omega

theorem exists_split (t : Fin n) : ∃ above below, List.finRange n = above ++ t :: below :=
  List.append_of_mem (List.mem_finRange t)

theorem tiersBelow_of_split {above below : List (Fin n)} {t : Fin n}
    (h : List.finRange n = above ++ t :: below) : tiersBelow t = below := by
  rw [tiersBelow, val_of_split h, h]
  simp

theorem not_mem_of_split {above below : List (Fin n)} {t : Fin n}
    (h : List.finRange n = above ++ t :: below) : t ∉ below ∧ t ∉ above := by
  have hnd : (above ++ t :: below).Nodup := h ▸ List.nodup_finRange n
  rw [List.nodup_middle, List.nodup_cons, List.mem_append, not_or] at hnd
  exact hnd.1.symm

theorem nodup_below_of_split {above below : List (Fin n)} {t : Fin n}
    (h : List.finRange n = above ++ t :: below) : below.Nodup := by
  have hnd : (above ++ t :: below).Nodup := h ▸ List.nodup_finRange n
  exact (List.nodup_append.1 hnd).2.1.of_cons

theorem disjoint_of_split {above below : List (Fin n)} {t j : Fin n}
    (h : List.finRange n = above ++ t :: below) (hj : j ∈ above) : j ≠ t ∧ j ∉ below := by
  have hnd : (above ++ t :: below).Nodup := h ▸ List.nodup_finRange n
  have hdis := (List.nodup_append.1 hnd).2.2 j hj
  exact ⟨fun e => hdis t (by simp) e, fun hb => hdis j (List.mem_cons_of_mem t hb) rfl⟩

theorem mem_above_of_lt {above below : List (Fin n)} {t j : Fin n}
    (h : List.finRange n = above ++ t :: below) (hj : j < t) : j ∈ above := by
  have hmem : j ∈ above ++ t :: below := h ▸ List.mem_finRange j
  obtain habove | hrest := List.mem_append.1 hmem
  · exact habove
  · obtain rfl | hbelow := List.mem_cons.1 hrest
    · exact absurd hj (lt_irrefl j)
    · obtain ⟨a, b, rfl⟩ := List.append_of_mem hbelow
      have hsplit : List.finRange n = (above ++ t :: a) ++ j :: b := by simp [h]
      have hlt := Fin.lt_def.1 hj
      rw [val_of_split h, val_of_split hsplit, List.length_append] at hlt
      omega

end Positions

namespace Router
variable {n : Nat} {K V E : Type} (r : Router n)

def failure (tier : Fin n) (source : E) : TierFailure E :=
  { tier := tier, name := r.name tier, source }

/-! ## Demotion -/

/-- The entries go into `target` one by one; `next` gathers what they displace there. -/
def demoteInto (target : Fin n) :
    Displaced K V → Displaced K V → RouterM n K V E (Displaced K V)
  | [], next => pure next
  | (key, value) :: rest, next => do
    match ← putAt target key value with
    | .ok displaced => demoteInto target rest (next ++ displaced)
    | .error _ => demoteInto target rest next

def demoteDown : List (Fin n) → Displaced K V → RouterM n K V E (Displaced K V)
  | [], current => pure current
  | target :: below, current =>
    if current.isEmpty then pure current
    else if !r.writable target then demoteDown below current
    else do
      let next ← demoteInto target current []
      demoteDown below next

/-- Pushes entries displaced from `tier` down the hierarchy; returns what fell off the
bottom. An entry a tier rejects is dropped. -/
def demote (tier : Fin n) (entries : Displaced K V) : RouterM n K V E (Displaced K V) :=
  r.demoteDown (tiersBelow tier) entries

/-! ## Single-key reads -/

/-- A promotion into `tier`: best effort, and only into a writable tier. What it displaces
rolls over into the tiers below. -/
def promoteWith (tier : Fin n) (write : RouterM n K V E (Except E (Displaced K V))) :
    RouterM n K V E Unit :=
  if r.writable tier then do
    match ← write with
    | .ok displaced =>
      if r.policy.demoteDisplaced && !displaced.isEmpty then do
        let _ ← r.demote tier displaced
        pure ()
      else pure ()
    | .error _ => pure ()
  else pure ()

def promoteOne (tier : Fin n) (key : K) (hit : Option V) : RouterM n K V E Unit :=
  match hit with
  | none => pure ()
  | some value => r.promoteWith tier (putAt tier key value)

def conclude {α : Type} (hit miss : α) (failures : List (TierFailure E)) :
    ReadOutcome → Except (RouterError E) α
  | .hit _ => .ok hit
  | .miss => .ok miss
  | .inconclusive => .error (.inconclusive failures)
  | .failed _ =>
    match failures.getLast? with
    | some failure => .error (.tier failure)
    | none => .error (.inconclusive [])

/-- The loop that drives the read flow. `none` is a panic of the flow, an index out of
bounds, or a loop that has not ended after `fuel` steps. -/
def getLoop (key : K) : Nat → ReadFlow → Option V → List (TierFailure E) →
    RouterM n K V E (Option (Except (RouterError E) (Option V)))
  | 0, _, _, _ => pure none
  | fuel + 1, flow, hit, failures =>
    match flow.step with
    | .get tier =>
      if h : tier < n then do
        match ← getAt ⟨tier, h⟩ key with
        | .ok (some value) =>
          match flow.onGet .hit with
          | some flow => getLoop key fuel flow (some value) failures
          | none => pure none
        | .ok none =>
          match flow.onGet .miss with
          | some flow => getLoop key fuel flow hit failures
          | none => pure none
        | .error source =>
          match flow.onGet .error with
          | some flow => getLoop key fuel flow hit (failures ++ [r.failure ⟨tier, h⟩ source])
          | none => pure none
      else pure none
    | .promote tier =>
      if h : tier < n then do
        r.promoteOne ⟨tier, h⟩ key hit
        match flow.onPromote with
        | some flow => getLoop key fuel flow hit failures
        | none => pure none
      else pure none
    | .done outcome => pure (some (conclude hit none failures outcome))

/-- `n` probes, `n` promotions and the final step are enough (`get_eq`). -/
def get (key : K) : RouterM n K V E (Option (Except (RouterError E) (Option V))) :=
  r.getLoop key (2 * n + 1) (ReadFlow.new n r.policy.read) none []

def existsLoop (key : K) : Nat → ReadFlow → List (TierFailure E) →
    RouterM n K V E (Option (Except (RouterError E) Bool))
  | 0, _, _ => pure none
  | fuel + 1, flow, failures =>
    match flow.step with
    | .get tier =>
      if h : tier < n then do
        match ← existsAt ⟨tier, h⟩ key with
        | .ok true =>
          match flow.onGet .hit with
          | some flow => existsLoop key fuel flow failures
          | none => pure none
        | .ok false =>
          match flow.onGet .miss with
          | some flow => existsLoop key fuel flow failures
          | none => pure none
        | .error source =>
          match flow.onGet .error with
          | some flow => existsLoop key fuel flow (failures ++ [r.failure ⟨tier, h⟩ source])
          | none => pure none
      else pure none
    | .promote _ =>
      match flow.onPromote with
      | some flow => existsLoop key fuel flow failures
      | none => pure none
    | .done outcome => pure (some (conclude true false failures outcome))

def exists_ (key : K) : RouterM n K V E (Option (Except (RouterError E) Bool)) :=
  r.existsLoop key (n + 1)
    (ReadFlow.new n { promote := .never, onError := r.policy.read.onError }) []

/-! ## Batched reads -/

/-- One tier's answers are recorded against the positions asked for; the positions left
without a value stay unresolved. -/
def resolve {m : Nat} (tier : Fin n) :
    List (Fin m × Option V) → (Fin m → KeyStatus V) → (Fin m → KeyStatus V) × List (Fin m)
  | [], statuses => (statuses, [])
  | (index, some value) :: rest, statuses =>
    resolve tier rest (Function.update statuses index (.hit tier value))
  | (index, none) :: rest, statuses =>
    let out := resolve tier rest statuses
    (out.1, index :: out.2)

def readTiers (keys : List K) : List (Fin n) → (Fin keys.length → KeyStatus V) →
    List (Fin keys.length) → List (TierFailure E) →
    RouterM n K V E (Except (RouterError E)
      ((Fin keys.length → KeyStatus V) × List (Fin keys.length) × List (TierFailure E)))
  | [], statuses, unresolved, failures => pure (.ok (statuses, unresolved, failures))
  | tier :: below, statuses, unresolved, failures =>
    if unresolved.isEmpty then pure (.ok (statuses, unresolved, failures))
    else do
      match ← getManyAt tier (unresolved.map keys.get) with
      | .ok found =>
        let out := resolve tier (unresolved.zip found) statuses
        readTiers keys below out.1 out.2 failures
      | .error source =>
        match r.policy.read.onError with
        | .failFast => pure (.error (.tier (r.failure tier source)))
        | .fallThrough =>
          readTiers keys below statuses unresolved (failures ++ [r.failure tier source])

def promoteTargets (tier : Fin n) : List (Fin n) :=
  match r.policy.read.promote with
  | .never => []
  | .topOnly => (List.finRange n).take 1
  | .allAbove => (List.finRange n).take tier

def hitAt (tier : Nat) (status : KeyStatus V) : Bool := status.tier == some tier

def hitEntries (keys : List K) (statuses : Fin keys.length → KeyStatus V) (tier : Fin n) :
    List (K × V) :=
  ((List.finRange keys.length).filter fun index => hitAt tier (statuses index)).filterMap
    fun index => (statuses index).value.map fun value => (keys.get index, value)

def promoteInto (target : Fin n) (entries : List (K × V)) : RouterM n K V E Unit :=
  r.promoteWith target (putManyAt target entries)

def promoteTiers (keys : List K) (statuses : Fin keys.length → KeyStatus V) :
    List (Fin n) → RouterM n K V E Unit
  | [] => pure ()
  | tier :: rest => do
    let entries := hitEntries keys statuses tier
    if tier.val = 0 ∨ entries = [] then pure ()
    else (r.promoteTargets tier).forM fun target => r.promoteInto target entries
    promoteTiers keys statuses rest

def promoteBatch (keys : List K) (statuses : Fin keys.length → KeyStatus V) :
    RouterM n K V E Unit :=
  if r.policy.read.promote = .never then pure ()
  else r.promoteTiers keys statuses (List.finRange n)

def readMany (keys : List K) : RouterM n K V E (Except (RouterError E) (ReadReport V E)) := do
  match ← r.readTiers keys (List.finRange n) (fun _ => .miss) (List.finRange keys.length) [] with
  | .error error => pure (.error error)
  | .ok (statuses, unresolved, failures) =>
    let statuses : Fin keys.length → KeyStatus V :=
      if failures.isEmpty then statuses
      else fun index => if index ∈ unresolved then .inconclusive else statuses index
    r.promoteBatch keys statuses
    pure (.ok { statuses := List.ofFn statuses, failures })

def readOne (key : K) : RouterM n K V E (Except (RouterError E) (ReadOneReport V E)) := do
  match ← r.readMany [key] with
  | .error error => pure (.error error)
  | .ok report =>
    pure (.ok { status := report.statuses.getLast?.getD .miss, failures := report.failures })

/-- The trait-level batched read: any inconclusive key fails the whole batch. -/
def getMany (keys : List K) : RouterM n K V E (Except (RouterError E) (List (Option V))) := do
  match ← r.readMany keys with
  | .error error => pure (.error error)
  | .ok report =>
    if report.statuses.any KeyStatus.isInconclusive then
      pure (.error (.inconclusive report.failures))
    else pure (.ok report.intoValues)

/-! ## Writes -/

/-- The write-through loop, bottom-up; `write` is the single or the batched put. -/
def writeThrough (write : Fin n → RouterM n K V E (Except E (Displaced K V))) :
    List (Fin n) → Displaced K V → RouterM n K V E (Except (RouterError E) (Displaced K V))
  | [], evicted => pure (.ok evicted)
  | tier :: above, evicted =>
    if !r.writable tier then writeThrough write above evicted
    else do
      match ← write tier with
      | .ok displaced =>
        if displaced.isEmpty then writeThrough write above evicted
        else if r.policy.demoteDisplaced then do
          let out ← r.demote tier displaced
          writeThrough write above (evicted ++ out)
        else writeThrough write above (evicted ++ displaced)
      | .error source =>
        match r.policy.onWriteError with
        | .failFast => pure (.error (.tier (r.failure tier source)))
        | .bestEffort => writeThrough write above evicted

def invalidate {α : Type} (remove : Fin n → RouterM n K V E (Except E α)) :
    List (Fin n) → List (TierFailure E) → RouterM n K V E (List (TierFailure E))
  | [], failures => pure failures
  | tier :: below, failures =>
    if !r.writable tier then invalidate remove below failures
    else do
      match ← remove tier with
      | .ok _ => invalidate remove below failures
      | .error source => invalidate remove below (failures ++ [r.failure tier source])

/-- `rposition` of a writable slot. -/
def bottom : Option (Fin n) := (List.finRange n).reverse.find? r.writable

def writeAround {α : Type} (write : Fin n → RouterM n K V E (Except E (Displaced K V)))
    (remove : Fin n → RouterM n K V E (Except E α)) :
    RouterM n K V E (Except (RouterError E) (Displaced K V)) :=
  match r.bottom with
  | none => pure (.error .readOnly)
  | some bottom => do
    match ← write bottom with
    | .error source => pure (.error (.tier (r.failure bottom source)))
    | .ok displaced =>
      let failures ← r.invalidate remove ((List.finRange n).take bottom) []
      if failures.isEmpty then pure (.ok displaced)
      else pure (.error (.partial_ failures))

def put (key : K) (value : V) : RouterM n K V E (Except (RouterError E) (Displaced K V)) :=
  match r.policy.write with
  | .writeThrough =>
    if !(List.finRange n).any r.writable then pure (.error .readOnly)
    else r.writeThrough (fun tier => putAt tier key value) (List.finRange n).reverse []
  | .writeAround => r.writeAround (fun tier => putAt tier key value) fun tier => deleteAt tier key

def putMany (entries : List (K × V)) :
    RouterM n K V E (Except (RouterError E) (Displaced K V)) :=
  match r.policy.write with
  | .writeThrough =>
    if !(List.finRange n).any r.writable then pure (.error .readOnly)
    else r.writeThrough (fun tier => putManyAt tier entries) (List.finRange n).reverse []
  | .writeAround =>
    r.writeAround (fun tier => putManyAt tier entries)
      fun tier => deleteManyAt tier (entries.map Prod.fst)

theorem any_writable {r : Router n} {tier : Fin n} (h : r.writable tier = true) :
    (List.finRange n).any r.writable = true :=
  List.any_eq_true.2 ⟨tier, List.mem_finRange tier, h⟩

theorem finRange_of_not_any {r : Router n} (hw : ∀ tier, r.writable tier = true)
    (h : (!(List.finRange n).any r.writable) = true) : List.finRange n = [] := by
  refine List.eq_nil_iff_forall_not_mem.2 fun tier _ => ?_
  simp [any_writable (hw tier)] at h

theorem put_through {r : Router n} (hmode : r.policy.write = .writeThrough) {tier : Fin n}
    (hw : r.writable tier = true) (key : K) (value : V) :
    (r.put key value : RouterM n K V E _) =
      r.writeThrough (fun tier => putAt tier key value) (List.finRange n).reverse [] := by
  simp only [put, hmode, any_writable hw, Bool.not_true, Bool.false_eq_true, if_false]

theorem putMany_through {r : Router n} (hmode : r.policy.write = .writeThrough) {tier : Fin n}
    (hw : r.writable tier = true) (entries : List (K × V)) :
    (r.putMany entries : RouterM n K V E _) =
      r.writeThrough (fun tier => putManyAt tier entries) (List.finRange n).reverse [] := by
  simp only [putMany, hmode, any_writable hw, Bool.not_true, Bool.false_eq_true, if_false]

/-! ## Deletes -/

def deleteTiers (key : K) : List (Fin n) → Bool → List (TierFailure E) →
    RouterM n K V E (Except (RouterError E) Bool)
  | [], existed, failures =>
    if failures.isEmpty then pure (.ok existed) else pure (.error (.partial_ failures))
  | tier :: below, existed, failures =>
    if !r.writable tier then deleteTiers key below existed failures
    else do
      match ← deleteAt tier key with
      | .ok present => deleteTiers key below (existed || present) failures
      | .error source => deleteTiers key below existed (failures ++ [r.failure tier source])

def delete (key : K) : RouterM n K V E (Except (RouterError E) Bool) :=
  r.deleteTiers key (List.finRange n) false []

/-- `removed_flag |= flag` over the two lists zipped. -/
def orFlags : List Bool → List Bool → List Bool
  | removed :: rest, flag :: flags => (removed || flag) :: orFlags rest flags
  | removed, [] => removed
  | [], _ => []

def removeTiers (keys : List K) : List (Fin n) → List Bool → List (TierFailure E) →
    RouterM n K V E (DeleteReport E)
  | [], removed, failures => pure { removed, failures }
  | tier :: below, removed, failures =>
    if !r.writable tier then removeTiers keys below removed failures
    else do
      match ← deleteManyAt tier keys with
      | .ok flags => removeTiers keys below (orFlags removed flags) failures
      | .error source => removeTiers keys below removed (failures ++ [r.failure tier source])

def removeMany (keys : List K) : RouterM n K V E (DeleteReport E) :=
  r.removeTiers keys (List.finRange n) (List.replicate keys.length false) []

def deleteMany (keys : List K) : RouterM n K V E (Except (RouterError E) (List Bool)) := do
  let report ← r.removeMany keys
  if report.isComplete then pure (.ok report.removed)
  else pure (.error (.partial_ report.failures))

end Router
end Tierstore
