import Tierstore.Honest
import Tierstore.Stack

/-! A write-through that fails fast: it goes bottom-up, so that whatever has accepted the write
stands on tiers that have, and what lies above the failure is left alone. -/
namespace Tierstore
open Effects

section Accepted
variable {n : Nat} {K V E : Type}

def Accepts (e : Event n K V E) : Prop := ∃ a, e.2 = .ok a

def Accepted (call : TierCall K V) (log : List (Event n K V E)) (tier : Fin n) : Prop :=
  ∃ e ∈ log, e.1 = (tier, call) ∧ Accepts e

theorem Accepted.append {call : TierCall K V} {log : List (Event n K V E)} {tier : Fin n}
    (h : Accepted call log tier) (more : List (Event n K V E)) :
    Accepted call (log ++ more) tier := by
  obtain ⟨e, he, haccepted⟩ := h
  exact ⟨e, List.mem_append_left more he, haccepted⟩

end Accepted

namespace Router
variable {n : Nat} {K V E : Type} (r : Router n)

/-- What a write may be: one call on the tier, whose answer it returns. -/
def WritesBy (call : TierCall K V) (write : Fin n → RouterM n K V E (Except E (Displaced K V))) :
    Prop :=
  ∀ t log a, (write t).Trace log a →
    ∃ e : Event n K V E, log = [e] ∧ e.1 = (t, call) ∧ ((∃ d, a = .ok d) → Accepts e)

theorem writesBy_put (key : K) (value : V) :
    WritesBy (n := n) (E := E) (.put key value) fun tier => putAt tier key value := by
  rintro t log a ⟨answer, _, rfl, rfl, rfl⟩
  exact ⟨_, rfl, rfl, fun h => h⟩

theorem writesBy_putMany (entries : List (K × V)) :
    WritesBy (n := n) (E := E) (.putMany entries) fun tier => putManyAt tier entries := by
  rintro t log a ⟨answer, _, rfl, rfl, rfl⟩
  exact ⟨_, rfl, rfl, fun h => h⟩

/-- Every writable tier below has accepted the call before it is made on a tier. -/
def Backed (call : TierCall K V) (before : List (Event n K V E)) (e : Event n K V E) : Prop :=
  ∀ i, e.1 = (i, call) → ∀ j, i < j → r.writable j = true → Accepted call before j

variable {r} {call : TierCall K V}
  {write : Fin n → RouterM n K V E (Except E (Displaced K V))}

theorem Backed.append {before : List (Event n K V E)} {e : Event n K V E}
    (h : r.Backed call before e) (more : List (Event n K V E)) :
    r.Backed call (before ++ more) e :=
  fun i hi j hj hw => (h i hi j hj hw).append more

/-- What stands on either side of a tier in the loop's order. -/
theorem lt_of_split {done above : List (Fin n)} {tier : Fin n}
    (hsplit : List.finRange n = (tier :: above).reverse ++ done) (j : Fin n) :
    (tier < j → j ∈ done) ∧ (j ∈ above → j < tier) := by
  have hmiddle : List.finRange n = above.reverse ++ tier :: done := by simp [hsplit]
  have hsorted : (above.reverse ++ tier :: done).Pairwise (· < ·) :=
    hmiddle ▸ List.pairwise_lt_finRange n
  have hbefore : ∀ i ∈ above, i < tier := fun i hi =>
    (List.pairwise_append.1 hsorted).2.2 i (List.mem_reverse.2 hi) tier List.mem_cons_self
  refine ⟨fun hlt => ?_, hbefore j⟩
  have hmem : j ∈ above.reverse ++ tier :: done := hmiddle ▸ List.mem_finRange j
  obtain habove | hrest := List.mem_append.1 hmem
  · exact absurd (hbefore j (List.mem_reverse.1 habove)) (not_lt_of_gt hlt)
  · obtain rfl | hdone := List.mem_cons.1 hrest
    · exact absurd hlt (lt_irrefl j)
    · exact hdone

/-- The demotions from a tier are puts into tiers below it. -/
theorem trace_demote {tier : Fin n} {displaced out : Displaced K V} {log : List (Event n K V E)}
    (h : (r.demote tier displaced).Trace log out) : ∀ e ∈ log, r.Demotes tier e :=
  ((demotes_of_demoteDown (r := r) (E := E)
    (fun t (ht : t ∈ tiersBelow tier) => lt_of_mem_tiersBelow ht) displaced).trace h
      fun _ _ => trivial).1

/-- One turn of the loop that fails fast: the call on the tier fails and ends it, or it is accepted
and followed by its demotions and the tiers above. -/
theorem trace_turn (hwrite : WritesBy call write) (hfast : r.policy.onWriteError = .failFast)
    {tier : Fin n} {above : List (Fin n)} (hw : r.writable tier = true)
    {evicted : Displaced K V} {log : List (Event n K V E)}
    {result : Except (RouterError E) (Displaced K V)}
    (h : (r.writeThrough write (tier :: above) evicted).Trace log result) :
    (∃ e source, log = [e] ∧ e.1 = (tier, call) ∧
      result = .error (.tier (r.failure tier source))) ∨
    ∃ e demoted rest evicted', log = e :: (demoted ++ rest) ∧ e.1 = (tier, call) ∧ Accepts e ∧
      (∀ e' ∈ demoted, r.Demotes tier e') ∧
      (r.writeThrough write above evicted').Trace rest result := by
  rw [writeThrough, hw] at h
  obtain ⟨answer, first, later, rfl, hfirst, hlater⟩ := Program.trace_bind.1 h
  obtain ⟨e, rfl, he, hok⟩ := hwrite tier first answer hfirst
  cases answer with
  | error source =>
    simp only [hfast] at hlater
    obtain ⟨rfl, rfl⟩ := hlater
    exact .inl ⟨e, source, rfl, he, rfl⟩
  | ok displaced =>
    have haccepts := hok ⟨displaced, rfl⟩
    dsimp only at hlater
    split at hlater
    next => exact .inr ⟨e, [], later, evicted, rfl, he, haccepts, by simp, hlater⟩
    next =>
      split at hlater
      next =>
        obtain ⟨out, demoted, rest, rfl, hdemoted, hrest⟩ := Program.trace_bind.1 hlater
        exact .inr ⟨e, demoted, rest, _, rfl, he, haccepts, trace_demote hdemoted, hrest⟩
      next => exact .inr ⟨e, [], later, _, rfl, he, haccepts, by simp, hlater⟩

structure Rest (r : Router n) (call : TierCall K V) (todo : List (Fin n))
    (before log : List (Event n K V E))
    (result : Except (RouterError E) (Displaced K V)) : Prop where
  backed : InOrder (r.Backed call) before log
  failed : ∀ f, result = .error (.tier f) → ∃ tier ∈ todo, f.tier = tier.val ∧
    (∀ e ∈ log, tier ≤ e.1.1) ∧
    ∀ j, tier < j → r.writable j = true → Accepted call (before ++ log) j

theorem trace_writeThrough (hwrite : WritesBy call write)
    (hfast : r.policy.onWriteError = .failFast) {done todo : List (Fin n)}
    (hsplit : List.finRange n = todo.reverse ++ done) {before : List (Event n K V E)}
    (hdone : ∀ j ∈ done, r.writable j = true → Accepted call before j)
    {evicted : Displaced K V} {log : List (Event n K V E)}
    {result : Except (RouterError E) (Displaced K V)}
    (h : (r.writeThrough write todo evicted).Trace log result) :
    Rest r call todo before log result := by
  induction todo generalizing done before evicted log with
  | nil =>
    obtain ⟨rfl, rfl⟩ := h
    exact ⟨trivial, fun f hf => by cases hf⟩
  | cons tier above ih =>
    have hnext : List.finRange n = above.reverse ++ tier :: done := by simp [hsplit]
    have hbelow : ∀ j, tier < j → r.writable j = true → Accepted call before j :=
      fun j hj => hdone j ((lt_of_split hsplit j).1 hj)
    cases hw : r.writable tier with
    | false =>
      -- A tier that is not written has nothing to accept.
      rw [writeThrough, hw] at h
      have hdone' : ∀ j ∈ tier :: done, r.writable j = true → Accepted call before j := by
        intro j hj hwj
        obtain rfl | hj := List.mem_cons.1 hj
        · simp [hw] at hwj
        · exact hdone j hj hwj
      have hrest := ih hnext hdone' h
      refine ⟨hrest.backed, fun f hf => ?_⟩
      obtain ⟨failed, hmem, hfailed⟩ := hrest.failed f hf
      exact ⟨failed, List.mem_cons_of_mem tier hmem, hfailed⟩
    | true =>
      have hbacked : ∀ e : Event n K V E, e.1 = (tier, call) → r.Backed call before e := by
        intro e he i hi j hj hwj
        obtain rfl : tier = i := congrArg Prod.fst (he.symm.trans hi)
        exact hbelow j hj hwj
      obtain ⟨e, source, rfl, he, rfl⟩ |
        ⟨e, demoted, rest, evicted', rfl, he, haccepts, hdemoted, hrest⟩ :=
        trace_turn hwrite hfast hw h
      · refine ⟨⟨hbacked e he, trivial⟩, fun f hf => ?_⟩
        simp only [Except.error.injEq, RouterError.tier.injEq] at hf
        refine ⟨tier, List.mem_cons_self, by rw [← hf]; rfl, fun e' he' => ?_, fun j hj hwj =>
          (hbelow j hj hwj).append _⟩
        rw [List.mem_singleton.1 he', he]
      · have hdone' : ∀ j ∈ tier :: done, r.writable j = true →
            Accepted call (before ++ [e] ++ demoted) j := by
          intro j hj hwj
          obtain rfl | hj := List.mem_cons.1 hj
          · exact Accepted.append ⟨e, by simp, he, haccepts⟩ demoted
          · exact ((hdone j hj hwj).append [e]).append demoted
        have hmore := ih hnext hdone' hrest
        have hmiddle : InOrder (r.Backed call) (before ++ [e]) demoted := by
          refine .of_forall (fun e' b b' hb => hb.append b') fun e' he' i hi j hj hwj => ?_
          obtain ⟨t, k, v, hquery, hlt, -⟩ := hdemoted e' he'
          obtain rfl : t = i := congrArg Prod.fst (hquery.symm.trans hi)
          exact (hbelow j (lt_trans hlt hj) hwj).append [e]
        refine ⟨⟨hbacked e he, inOrder_append.2 ⟨hmiddle, hmore.backed⟩⟩, fun f hf => ?_⟩
        obtain ⟨failed, hmem, hfailed, hevents, haccepted⟩ := hmore.failed f hf
        have hlt : failed < tier := (lt_of_split hsplit failed).2 hmem
        refine ⟨failed, List.mem_cons_of_mem tier hmem, hfailed, fun e' he' => ?_,
          fun j hj hwj => ?_⟩
        · obtain rfl | he' := List.mem_cons.1 he'
          · rw [he]
            exact le_of_lt hlt
          · obtain he' | he' := List.mem_append.1 he'
            · obtain ⟨t, k, v, hquery, hbelow', -⟩ := hdemoted e' he'
              rw [hquery]
              exact le_of_lt (lt_trans hlt hbelow')
            · exact hevents e' he'
        · have hthere := haccepted j hj hwj
          simp only [List.append_assoc, List.singleton_append] at hthere ⊢
          exact hthere

/-! ## Whole writes -/

/-- A write goes bottom-up. At every call that a tier accepts, the writable tiers below have
accepted it before; if it fails at a tier, nothing was asked of the tiers above, and the writable
tiers below have accepted the write. -/
structure BottomUp (r : Router n) (call : TierCall K V) (log : List (Event n K V E))
    (result : Except (RouterError E) (Displaced K V)) : Prop where
  backed : ∀ before e later, log = before ++ e :: later → ∀ i, e.1 = (i, call) → Accepts e →
    ∀ j, i < j → r.writable j = true → Accepted call before j
  untouched : ∀ f, result = .error (.tier f) → ∀ e ∈ log, f.tier ≤ e.1.1.val
  accepted : ∀ f, result = .error (.tier f) → ∀ j : Fin n, f.tier < j.val →
    r.writable j = true → Accepted call log j

theorem bottomUp_of_trace (hwrite : WritesBy call write)
    (hfast : r.policy.onWriteError = .failFast) {log : List (Event n K V E)}
    {result : Except (RouterError E) (Displaced K V)}
    (h : (if !(List.finRange n).any r.writable then pure (.error .readOnly)
      else r.writeThrough write (List.finRange n).reverse [] :
        RouterM n K V E (Except (RouterError E) (Displaced K V))).Trace log result) :
    r.BottomUp call log result := by
  split at h
  next =>
    obtain ⟨rfl, rfl⟩ := h
    exact ⟨fun before e later hlog => by simp at hlog, fun _ _ => by simp, fun f hf => nomatch hf⟩
  next =>
    have hsplit : List.finRange n = (List.finRange n).reverse.reverse ++ [] := by simp
    have hdone : ∀ j ∈ ([] : List (Fin n)), r.writable j = true →
        Accepted call ([] : List (Event n K V E)) j := by simp
    have hrest := trace_writeThrough hwrite hfast hsplit hdone h
    constructor
    case backed =>
      intro before e later hlog i hi _ j hj hwj
      have horder := hrest.backed
      rw [hlog] at horder
      exact (inOrder_append.1 horder).2.1 i hi j hj hwj
    case untouched =>
      intro f hf e he
      obtain ⟨tier, -, htier, hevents, -⟩ := hrest.failed f hf
      rw [htier]
      exact hevents e he
    case accepted =>
      intro f hf j hj hwj
      obtain ⟨tier, -, htier, -, haccepted⟩ := hrest.failed f hf
      rw [htier] at hj
      exact haccepted j hj hwj

/-- Tiers that were asked nothing are as they were. -/
theorem run_untouched {T α : Type} [Tier T K V E] (p : RouterM n K V E α) (s : Stack T n)
    (j : Fin n) (h : ∀ e ∈ p.events Stack.exec s, e.1.1 ≠ j) : (Stack.run p s).2 j = s j := by
  induction p generalizing s with
  | done a => rfl
  | call q next ih =>
    have hrest := ih _ (Stack.exec q s).2 fun e he => h e (List.mem_cons_of_mem _ he)
    exact hrest.trans (Stack.exec_other q s (h _ List.mem_cons_self).symm)

theorem BottomUp.run_eq {T : Type} [Tier T K V E] {s : Stack T n}
    {p : RouterM n K V E (Except (RouterError E) (Displaced K V))}
    (h : r.BottomUp call (p.events Stack.exec s) (Stack.run p s).1) {f : TierFailure E}
    (hf : (Stack.run p s).1 = .error (.tier f)) {j : Fin n} (hj : j.val < f.tier) :
    (Stack.run p s).2 j = s j := by
  refine run_untouched p s j fun e he heq => ?_
  have hle := h.untouched f hf e he
  rw [heq] at hle
  omega

/-- A write-through that fails fast goes bottom-up, whatever its calls and demotions are answered;
over any stack, the tiers above the one it failed at are as they were. -/
theorem failFast_bottomUp (hwrite : r.policy.write = .writeThrough)
    (hfast : r.policy.onWriteError = .failFast) :
    (∀ (key : K) (value : V) (log : List (Event n K V E)) result,
      (r.put key value).Trace log result → r.BottomUp (.put key value) log result) ∧
    (∀ (entries : List (K × V)) (log : List (Event n K V E)) result,
      (r.putMany entries).Trace log result → r.BottomUp (.putMany entries) log result) ∧
    ∀ (T : Type) [Tier T K V E] (s : Stack T n) f (j : Fin n), j.val < f.tier →
      (∀ key value, (Stack.run (r.put key value) s).1 = .error (.tier f) →
        (Stack.run (r.put key value) s).2 j = s j) ∧
      ∀ entries, (Stack.run (r.putMany entries) s).1 = .error (.tier f) →
        (Stack.run (r.putMany entries) s).2 j = s j := by
  have hput : ∀ (key : K) (value : V) (log : List (Event n K V E)) result,
      (r.put key value).Trace log result → r.BottomUp (.put key value) log result := by
    intro key value log result h
    rw [put, hwrite] at h
    exact bottomUp_of_trace (writesBy_put key value) hfast h
  have hmany : ∀ (entries : List (K × V)) (log : List (Event n K V E)) result,
      (r.putMany entries).Trace log result → r.BottomUp (.putMany entries) log result := by
    intro entries log result h
    rw [putMany, hwrite] at h
    exact bottomUp_of_trace (writesBy_putMany entries) hfast h
  refine ⟨hput, hmany, fun T _ s f j hj => ⟨fun key value hf => ?_, fun entries hf => ?_⟩⟩
  · exact (hput key value _ _ (Program.run_trace _ _ s)).run_eq hf hj
  · exact (hmany entries _ _ (Program.run_trace _ _ s)).run_eq hf hj

/-- The bottom tier takes the entry, the top one does not. -/
theorem failFast_bottomUp_full :
    (Router.uniform 2 "memory" Policy.default).BottomUp (.put 1 10)
      ([⟨(1, .put 1 10), .ok []⟩, ⟨(0, .put 1 10), .error "full"⟩] : List (Event 2 Nat Nat String))
      (.error (.tier ⟨0, "memory", "full"⟩)) :=
  (failFast_bottomUp rfl rfl).1 1 10 _ _ ⟨.ok [], _, rfl, .error "full", _, rfl, rfl, rfl⟩

end Router
end Tierstore
