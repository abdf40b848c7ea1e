import Tierstore.Mmap.Account

/-! How far each concurrent call is, and what the shared state looks like meanwhile. -/
namespace Tierstore.Mmap
open Overlay Effects

inductive Stage (K : Type) where
  | start
  | written
  | renamed
  | mapped (bytes : Option Bytes)
  | stored (displaced : Displaced K Bytes)
  | failed
  | missed
  | fetched (bytes : Bytes)
  | answered (found : Option Bytes)
  | forgotten
  | deleted

section Stages
variable {K : Type}

def nextQuery : MmapCall K → Stage K → Option (MmapQuery K)
  | .put key value, .start => some (.writeTmp key value)
  | .put key _, .written => some (.rename key)
  | .put key _, .renamed => some (.map key)
  | .put key value, .mapped bytes => some (.account key value.length bytes)
  | .get key, .start => some (.probe key)
  | .get key, .missed => some (.map key)
  | .get key, .fetched bytes => some (.retain key bytes)
  | .delete key, .start => some (.forget key)
  | .delete key, .forgotten => some (.unlink key)
  | _, _ => none

def advance : Stage K → (q : MmapQuery K) → MmapAnswer q → Stage K
  | _, .writeTmp _ _, _ => .written
  | _, .rename _, .ok _ => .renamed
  | _, .rename _, .error _ => .failed
  | .renamed, .map _, bytes => .mapped bytes
  | _, .map _, some bytes => .fetched bytes
  | _, .map _, none => .answered none
  | _, .probe _, some bytes => .answered (some bytes)
  | _, .probe _, none => .missed
  | _, .retain _ bytes, _ => .answered (some bytes)
  | _, .account _ _ _, displaced => .stored displaced
  | _, .forget _, _ => .forgotten
  | _, .unlink _, _ => .deleted

def Returned : (c : MmapCall K) → Stage K → c.Output → Prop
  | .put _ _, .stored displaced, a => a = .ok displaced
  | .put _ _, .failed, a => a = .error .notFound
  | .get _, .answered found, a => a = .ok found
  | .delete _, .deleted, _ => True
  | _, _, _ => False

abbrev Staged (c : MmapCall K) (p : MmapM K c.Output) (stage : Stage K) : Prop :=
  p.Follows (fun stage q => nextQuery c stage = some q) (fun _ _ => True) advance (Returned c) stage

theorem perform_staged (c : MmapCall K) : Staged c (perform c) .start := by
  cases c with
  | get key =>
    refine ⟨rfl, fun cached _ => ?_⟩
    cases cached with
    | some bytes => rfl
    | none =>
      refine ⟨rfl, fun found _ => ?_⟩
      cases found with
      | none => rfl
      | some bytes => exact ⟨rfl, fun _ _ => rfl⟩
  | put key value =>
    refine ⟨rfl, fun _ _ => ⟨rfl, fun renamed _ => ?_⟩⟩
    cases renamed with
    | error e =>
      cases e
      rfl
    | ok _ => exact ⟨rfl, fun _ _ => ⟨rfl, fun _ _ => rfl⟩⟩
  | delete key => exact ⟨rfl, fun _ _ => ⟨rfl, fun _ _ => trivial⟩⟩

theorem nextQuery_rename {c : MmapCall K} {stage : Stage K} {key : K}
    (h : nextQuery c stage = some (.rename key)) : ∃ value, c = .put key value := by
  cases c <;> cases stage <;> cases h
  exact ⟨_, rfl⟩

theorem nextQuery_unlink {c : MmapCall K} {stage : Stage K} {key : K}
    (h : nextQuery c stage = some (.unlink key)) : c = .delete key := by
  cases c <;> cases stage <;> cases h
  rfl

theorem nextQuery_account {c : MmapCall K} {stage : Stage K} {key : K} {len : Nat}
    {mapped : Option Bytes} (h : nextQuery c stage = some (.account key len mapped)) :
    ∃ value, c = .put key value ∧ len = value.length := by
  cases c <;> cases stage <;> cases h
  exact ⟨_, rfl, rfl⟩

/-- Only the lock section of a put makes it stored. -/
theorem query_of_stored {stage : Stage K} {q : MmapQuery K} {r : MmapAnswer q}
    {displaced : Displaced K Bytes} (h : advance stage q r = .stored displaced) :
    ∃ key len mapped, q = .account key len mapped := by
  cases q with
  | account key len mapped => exact ⟨key, len, mapped, rfl⟩
  | rename key => cases r <;> cases h
  | map key => cases stage <;> cases r <;> cases h
  | probe key => cases r <;> cases h
  | _ => cases h

theorem advance_account (stage : Stage K) (key : K) (len : Nat) (mapped : Option Bytes)
    (displaced : Displaced K Bytes) :
    advance stage (.account key len mapped) displaced = .stored displaced := by
  cases stage <;> rfl

theorem Returned.nextQuery {c : MmapCall K} {stage : Stage K} {a : c.Output}
    (h : Returned c stage a) : nextQuery c stage = none := by
  cases c <;> cases stage <;> first | rfl | exact h.elim

/-- The stage tells what a call asks next. -/
theorem Staged.asks {c : MmapCall K} {p : MmapM K c.Output} {stage : Stage K}
    (h : Staged c p stage) : p.asks = nextQuery c stage := by
  cases p with
  | done a => exact (Returned.nextQuery h).symm
  | call q next => exact h.1.symm

end Stages
end Tierstore.Mmap
