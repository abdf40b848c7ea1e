import Mathlib.Data.List.Nodup
import Mathlib.Logic.Function.Basic

/-! Queues of stamped tickets: a key is moved or removed by making its ticket stale, and stale
tickets are dropped later. The keys of the live tickets are the order that is meant. -/
namespace Tickets
universe u v
variable {K : Type u} {S : Type v} [DecidableEq S]

/-- A ticket is live iff its stamp is the current one of its key. -/
def live (current : K → Option S) (ticket : K × S) : Bool := current ticket.1 == some ticket.2

def keys (current : K → Option S) (queue : List (K × S)) : List K :=
  (queue.filter (live current)).map Prod.fst

theorem live_iff {current : K → Option S} {ticket : K × S} :
    live current ticket = true ↔ current ticket.1 = some ticket.2 := by
  simp [live]

theorem keys_cons_live {current : K → Option S} {ticket : K × S}
    (h : live current ticket = true) (queue : List (K × S)) :
    keys current (ticket :: queue) = ticket.1 :: keys current queue := by
  simp [keys, h]

theorem keys_cons_stale {current : K → Option S} {ticket : K × S}
    (h : live current ticket = false) (queue : List (K × S)) :
    keys current (ticket :: queue) = keys current queue := by
  simp [keys, h]

/-- Dropping stale tickets changes nothing. -/
theorem keys_compact (current : K → Option S) (queue : List (K × S)) :
    keys current (queue.filter (live current)) = keys current queue := by
  simp [keys]

section Update
variable [DecidableEq K]

theorem live_update_ne {current : K → Option S} {ticket : K × S} {key : K}
    (h : ticket.1 ≠ key) (stamp : Option S) :
    live (Function.update current key stamp) ticket = live current ticket := by
  rw [live, live, Function.update_of_ne h]

theorem keys_update {current : K → Option S} {key : K} {stamp : Option S}
    {queue : List (K × S)} (hstale : ∀ ticket ∈ queue, ticket.1 = key → some ticket.2 ≠ stamp) :
    keys (Function.update current key stamp) queue =
      (keys current queue).filter fun x => x ≠ key := by
  induction queue with
  | nil => rfl
  | cons ticket rest ih =>
    have hrest := ih fun t ht => hstale t (List.mem_cons_of_mem ticket ht)
    by_cases hkey : ticket.1 = key
    · have hnot : live (Function.update current key stamp) ticket = false := by
        simp only [live, hkey, Function.update_self, beq_eq_false_iff_ne]
        exact (hstale ticket List.mem_cons_self hkey).symm
      rw [keys_cons_stale hnot, hrest]
      cases hlive : live current ticket with
      | true => simp [keys_cons_live hlive, hkey]
      | false => rw [keys_cons_stale hlive]
    · have hsame : live (Function.update current key stamp) ticket = live current ticket :=
        live_update_ne hkey stamp
      cases hlive : live current ticket with
      | true =>
        rw [keys_cons_live (hsame.trans hlive), keys_cons_live hlive, hrest]
        simp [hkey]
      | false => rw [keys_cons_stale (hsame.trans hlive), keys_cons_stale hlive, hrest]

end Update

/-- The queue stands for `order`: every key that has a current stamp has exactly one live
ticket. -/
structure Orders (current : K → Option S) (queue : List (K × S)) (order : List K) : Prop where
  keys : keys current queue = order
  nodup : order.Nodup
  mem : ∀ key, key ∈ order ↔ (current key).isSome

section Orders
variable {current : K → Option S} {queue : List (K × S)} {order : List K}

theorem Orders.empty (current : K → Option S) (h : ∀ key, current key = none) :
    Orders current [] [] := ⟨rfl, List.nodup_nil, fun key => by simp [h key]⟩

theorem Orders.eq_nil (h : Orders current [] order) : order = [] := h.keys.symm

theorem Orders.length_le (h : Orders current queue order) : order.length ≤ queue.length := by
  rw [← h.keys, Tickets.keys, List.length_map]
  exact List.length_filter_le _ _

theorem Orders.compact (h : Orders current queue order) :
    Orders current (queue.filter (live current)) order :=
  ⟨(keys_compact current queue).trans h.keys, h.nodup, h.mem⟩

theorem Orders.length_live (h : Orders current queue order) :
    (queue.filter (live current)).length = order.length := by
  rw [← h.keys, Tickets.keys, List.length_map]

/-- A queue that is compacted once it is longer than both `floor` and its live tickets twice over
is no longer than either. -/
theorem Orders.length_compact (h : Orders current queue order) (floor cap : Nat) :
    (if queue.length > max (min (order.length * 2) cap) floor then queue.filter (live current)
      else queue).length ≤ max floor (2 * order.length) := by
  split
  · rw [h.length_live]
    omega
  · omega

theorem Orders.pop_stale {ticket : K × S} (h : Orders current (ticket :: queue) order)
    (hstale : live current ticket = false) : Orders current queue order :=
  ⟨by rw [← h.keys, keys_cons_stale hstale], h.nodup, h.mem⟩

/-- The first live ticket is that of the first key. -/
theorem Orders.head_live {ticket : K × S} (h : Orders current (ticket :: queue) order)
    (hlive : live current ticket = true) : ∃ rest, order = ticket.1 :: rest :=
  ⟨_, by rw [← h.keys, keys_cons_live hlive]⟩

variable [DecidableEq K]

/-- Without its stamp a key leaves the order; its ticket stays in the queue. -/
theorem Orders.forget (h : Orders current queue order) (key : K) :
    Orders (Function.update current key none) queue (order.filter fun x => x ≠ key) := by
  refine ⟨?_, h.nodup.filter _, fun x => ?_⟩
  · rw [keys_update fun _ _ _ => Option.some_ne_none _, h.keys]
  · by_cases hx : x = key
    · simp [hx]
    · simp [hx, h.mem x]

/-- A ticket with a stamp the queue does not have for the key moves the key to the end. -/
theorem Orders.issue (h : Orders current queue order) {key : K} {stamp : S}
    (hfresh : (key, stamp) ∉ queue) :
    Orders (Function.update current key (some stamp)) (queue ++ [(key, stamp)])
      ((order.filter fun x => x ≠ key) ++ [key]) := by
  have hstale : ∀ ticket ∈ queue, ticket.1 = key → some ticket.2 ≠ some stamp := by
    rintro ⟨x, s⟩ hticket rfl hs
    cases hs
    exact hfresh hticket
  have hnew : live (Function.update current key (some stamp)) (key, stamp) = true := by
    simp [live]
  refine ⟨?_, ?_, fun x => ?_⟩
  · rw [← h.keys, ← keys_update hstale]
    simp [Tickets.keys, hnew]
  · rw [List.nodup_append]
    refine ⟨h.nodup.filter _, List.nodup_singleton key, ?_⟩
    rintro x hx y hy rfl
    rw [List.mem_singleton] at hy
    simp [hy] at hx
  · by_cases hx : x = key
    · simp [hx]
    · simp [hx, h.mem x]

end Orders
end Tickets
