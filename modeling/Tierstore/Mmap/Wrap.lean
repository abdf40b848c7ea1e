import Tierstore.Lib.Runs
import Tierstore.Mmap.Order

/-! The tables of the mmap tier under any sequence of calls, from any starting stamp: the live
tickets are the list that a counter without bound would give, also across a wrap. -/
namespace Tierstore.Mmap
variable {K : Type} [DecidableEq K]

/-- `account` records a size and issues a ticket, `resize` records the size of a replacement that
keeps its ticket; `pop` takes the oldest key off and drops its accounting, as the eviction loop
does. -/
inductive TableCall (K : Type) where
  | account (key : K) (size : Nat)
  | resize (key : K) (size : Nat)
  | touch (key : K)
  | remove (key : K)
  | compact
  | pop
  deriving DecidableEq

namespace Inner

def perform (inner : Inner K) : TableCall K → Option K × Inner K
  | .account key size =>
    (none, { inner with sizes := inner.sizes.insert key size }.insertTicket key)
  | .resize key size =>
    (none, if key ∈ inner.sizes then { inner with sizes := inner.sizes.insert key size } else inner)
  | .touch key => (none, inner.touch key)
  | .remove key => (none, (inner.removeAccounting key).2)
  | .compact => (none, inner.compactTickets)
  | .pop =>
    match inner.popOldest with
    | (none, inner) => (none, inner)
    | (some oldest, inner) => (some oldest, (inner.removeAccounting oldest).2)

def liveKeys (inner : Inner K) : List K := (inner.order.filter inner.live).map Prod.fst

def emptyAt (nextStamp : UInt64) : Inner K := { new with nextStamp }

end Inner

/-- What a call does to the live keys when no stamp is ever used again. -/
def LiveKeys.perform (keys : List K) : TableCall K → Option K × List K
  | .account key _ => (none, (keys.filter fun x => x ≠ key) ++ [key])
  | .resize _ _ => (none, keys)
  | .touch key => (none, if key ∈ keys then (keys.filter fun x => x ≠ key) ++ [key] else keys)
  | .remove key => (none, keys.filter fun x => x ≠ key)
  | .compact => (none, keys)
  | .pop => (keys.head?, keys.tail)

namespace Inner

/-- The live keys are those with a size, in order. -/
structure Tables (inner : Inner K) (keys : List K) : Prop where
  queue : inner.Queued keys
  sized : ∀ key, key ∈ keys ↔ key ∈ inner.sizes

variable {inner : Inner K} {keys : List K}

theorem tables_emptyAt (nextStamp : UInt64) : (emptyAt nextStamp : Inner K).Tables [] := by
  have hnone (key : K) : (emptyAt nextStamp : Inner K).stampOf key = none := rfl
  refine ⟨⟨.empty _ hnone, fun ticket hticket => by cases hticket⟩, fun key => ?_⟩
  simp [emptyAt, new]

theorem Tables.length (h : inner.Tables keys) : inner.sizes.keys.length = keys.length := by
  refine List.Perm.length_eq ((List.perm_ext_iff_of_nodup (AList.keys_nodup _)
    h.queue.tickets.nodup).2 fun key => ?_)
  rw [h.sized, AList.mem_keys]

theorem Tables.liveKeys (h : inner.Tables keys) : inner.liveKeys = keys := h.queue.tickets.keys

/-- Every live key has exactly one live ticket, and no other key has any. -/
theorem Tables.one_ticket (h : inner.Tables keys) (key : K) :
    inner.order.countP (fun ticket => ticket.1 = key ∧ inner.live ticket) =
      if key ∈ inner.sizes then 1 else 0 := by
  have hcount : inner.order.countP (fun ticket => ticket.1 = key ∧ inner.live ticket) =
      inner.liveKeys.count key := by
    rw [Inner.liveKeys, List.count, List.countP_map, List.countP_filter]
    refine List.countP_congr fun ticket _ => ?_
    simp
  rw [hcount, h.liveKeys]
  split
  next hkey => exact List.count_eq_one_of_mem h.queue.tickets.nodup ((h.sized key).2 hkey)
  next hkey => exact List.count_eq_zero_of_not_mem fun hmem => hkey ((h.sized key).1 hmem)

theorem Queued.congr (h : inner.Queued keys) {inner' : Inner K}
    (horder : inner'.order = inner.order)
    (hstamps : inner'.stamps = inner.stamps) (hnext : inner'.nextStamp = inner.nextStamp) :
    inner'.Queued keys := by
  have hstampOf : inner'.stampOf = inner.stampOf := by
    funext key
    rw [stampOf, stampOf, hstamps]
  refine ⟨?_, ?_⟩
  · rw [hstampOf, horder]
    exact h.tickets
  · rw [horder, hnext]
    exact h.issued

/-- Each call acts on the live keys as on the list. -/
theorem Tables.perform (h : inner.Tables keys) (hroom : inner.sizes.keys.length < 2 ^ 63)
    (c : TableCall K) :
    (inner.perform c).1 = (LiveKeys.perform keys c).1 ∧
      (inner.perform c).2.Tables (LiveKeys.perform keys c).2 := by
  have hroom' : keys.length + 1 < 2 ^ 64 := by
    have hlength := h.length
    omega
  cases c with
  | account key size =>
    have hsame : ({ inner with sizes := inner.sizes.insert key size } : Inner K).Queued keys :=
      h.queue.congr rfl rfl rfl
    refine ⟨rfl, hsame.insertTicket hroom' key, fun x => ?_⟩
    have hsizes : (({ inner with sizes := inner.sizes.insert key size } : Inner K).insertTicket
        key).sizes = inner.sizes.insert key size := insertTicket_sizes _ _
    rw [Inner.perform, hsizes, AList.mem_insert, LiveKeys.perform, List.mem_append, List.mem_filter,
      List.mem_singleton, h.sized]
    by_cases hx : x = key
    · simp [hx]
    · simp [hx]
  | resize key size =>
    rw [Inner.perform, LiveKeys.perform]
    by_cases hkey : key ∈ inner.sizes
    · rw [if_pos hkey]
      refine ⟨rfl, h.queue.congr rfl rfl rfl, fun x => ?_⟩
      rw [AList.mem_insert, h.sized]
      exact ⟨.inr, fun hx => hx.elim (fun heq => heq ▸ hkey) id⟩
    · rw [if_neg hkey]
      exact ⟨rfl, h⟩
  | touch key =>
    rw [Inner.perform, LiveKeys.perform, Inner.touch]
    by_cases hkey : key ∈ inner.sizes
    · rw [if_pos hkey, if_pos ((h.sized key).2 hkey)]
      refine ⟨rfl, h.queue.insertTicket hroom' key, fun x => ?_⟩
      rw [insertTicket_sizes, List.mem_append, List.mem_filter, List.mem_singleton, h.sized]
      by_cases hx : x = key
      · simp [hx, hkey]
      · simp [hx]
    · rw [if_neg hkey, if_neg fun hmem => hkey ((h.sized key).1 hmem)]
      exact ⟨rfl, h⟩
  | remove key =>
    refine ⟨rfl, h.queue.removeAccounting key, fun x => ?_⟩
    rw [Inner.perform, LiveKeys.perform, List.mem_filter, h.sized, ← AList.lookup_isSome,
      ← AList.lookup_isSome, removeAccounting_sizes]
    by_cases hx : x = key
    · simp [hx]
    · simp [hx]
  | compact =>
    refine ⟨rfl, h.queue.compactTickets, fun x => ?_⟩
    rw [Inner.perform, compactTickets_sizes]
    exact h.sized x
  | pop =>
    cases keys with
    | nil =>
      have hpop : inner.popOldest = (none, { inner with order := [] }) :=
        popTickets_none h.queue.tickets
      rw [Inner.perform, hpop]
      refine ⟨rfl, ⟨⟨rfl, List.nodup_nil, h.queue.tickets.mem⟩, ?_⟩, h.sized⟩
      exact fun ticket hticket => by cases hticket
    | cons first rest =>
      obtain ⟨order, hpop, hleft⟩ := h.queue.popFirst
      have hqueue := ({ inner with order } : Inner K).removeAccounting_queue first
      have hstamps := ({ inner with order } : Inner K).removeAccounting_stamps first
      rw [Inner.perform, hpop]
      refine ⟨rfl, hleft _ hqueue.1 hqueue.2 hstamps, fun x => ?_⟩
      have hsized := h.sized x
      have hnot := (List.nodup_cons.1 h.queue.tickets.nodup).1
      rw [← AList.lookup_isSome] at hsized ⊢
      simp only [removeAccounting_sizes, LiveKeys.perform, List.tail_cons]
      by_cases hx : x = first
      · simp [hx, hnot]
      · rw [if_neg hx, ← hsized]
        simp [hx]

end Inner

/-- From empty tables and any starting stamp, every run of calls with fewer than `2 ^ 63` live keys
answers as the list of live keys does and leaves its order; every live key has one live ticket. -/
theorem tickets_survive_wrap (nextStamp : UInt64) (calls : List (TableCall K))
    (hroom : Runs.Along (fun inner c => (Inner.perform inner c).2)
      (fun inner _ => inner.sizes.keys.length < 2 ^ 63) (Inner.emptyAt nextStamp) calls) :
    Runs.log Inner.perform (Inner.emptyAt nextStamp) calls = Runs.log LiveKeys.perform [] calls ∧
      (Runs.after Inner.perform (Inner.emptyAt nextStamp) calls).liveKeys =
        Runs.after LiveKeys.perform [] calls ∧
      ∀ key, (Runs.after Inner.perform (Inner.emptyAt nextStamp) calls).order.countP (fun ticket =>
          ticket.1 = key ∧
            (Runs.after Inner.perform (Inner.emptyAt nextStamp) calls).live ticket) =
        if key ∈ (Runs.after Inner.perform (Inner.emptyAt nextStamp) calls).sizes
          then 1 else 0 := by
  have hrun : ∀ (inner : Inner K) (keys : List K), inner.Tables keys →
      Runs.Along (fun inner c => (Inner.perform inner c).2)
        (fun inner _ => inner.sizes.keys.length < 2 ^ 63) inner calls →
      Runs.log Inner.perform inner calls = Runs.log LiveKeys.perform keys calls ∧
        (Runs.after Inner.perform inner calls).Tables (Runs.after LiveKeys.perform keys calls) := by
    clear hroom
    induction calls with
    | nil => exact fun inner keys h _ => ⟨rfl, h⟩
    | cons c calls ih =>
      intro inner keys h hroom
      obtain ⟨hanswer, hnext⟩ := h.perform hroom.1 c
      obtain ⟨hlog, hend⟩ := ih _ _ hnext hroom.2
      rw [Runs.log, Runs.log, hanswer, hlog]
      exact ⟨rfl, hend⟩
  obtain ⟨hlog, hend⟩ := hrun _ _ (Inner.tables_emptyAt nextStamp) hroom
  exact ⟨hlog, hend.liveKeys, hend.one_ticket⟩

/-- The theorem on a run whose second ticket takes the counter over its end. -/
theorem tickets_survive_wrap_over_end :
    Runs.log Inner.perform (Inner.emptyAt 0xFFFFFFFFFFFFFFFE)
        [.account 1 5, .account 2 5, .touch 1, .pop] =
      Runs.log LiveKeys.perform ([] : List Nat) [.account 1 5, .account 2 5, .touch 1, .pop] :=
  (tickets_survive_wrap 0xFFFFFFFFFFFFFFFE [.account 1 5, .account 2 5, .touch 1, .pop]
    (by decide)).1

end Tierstore.Mmap
