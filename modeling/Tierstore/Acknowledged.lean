import Tierstore.FanOut
import Tierstore.Origin

/-! What an acknowledged write or delete settles for a key. No call that does not write the key
unsettles it, whatever fails and however the calls interleave. -/
namespace Tierstore
open Overlay Effects

/-- Under the key, nothing but what `m` says; any entry of another key. -/
def Only {K V : Type} (k : K) (m : Option V) : K → V → Prop := fun x w => x = k → m = some w

/-- The answer acknowledges that the key has come to `m`. A write-through does so only where it
fails on the first tier that rejects it, and never for a batch. -/
def Router.Acknowledges {K V E : Type} [DecidableEq K] {n : Nat} (r : Router n) (k : K)
    (m : Option V) : (c : RouterCall K V) → c.Output E → Prop
  | .put key value, a => key = k ∧ m = some value ∧ (∃ displaced, a = .ok displaced) ∧
      (r.policy.write = .writeAround ∨ r.policy.onWriteError = .failFast)
  | .putMany entries, a => m = latest entries k ∧ k ∈ entries.map Prod.fst ∧
      (∃ displaced, a = .ok displaced) ∧ r.policy.write = .writeAround
  | .delete key, a => key = k ∧ m = none ∧ ∃ present, a = .ok present
  | .deleteMany keys, a => k ∈ keys ∧ m = none ∧ ∃ flags, a = .ok flags
  | .removeMany keys, report => k ∈ keys ∧ m = none ∧ report.isComplete = true
  | _, _ => False

namespace Stack
variable {T K V E : Type} {n : Nat} [DecidableEq K] [Tier T K V E] [LawfulTier T]
  {P : K → V → Prop} {s : Stack T n} {k : K} {m : Option V}

omit [Tier T K V E] [LawfulTier T] [DecidableEq K] in
theorem holds_only_of_eq {held : K → Option V} (h : held k = m) : Holds (Only k m) held := by
  intro x w hx hxk
  rw [← h, ← hxk, hx]

/-- A tier that holds only such entries afterwards, or was not called and held only such. -/
theorem holds_each {call : TierCall K V} {tiers : List (Fin n)}
    (hcalled : ∀ t ∈ tiers, Holds P ((exec (t, call) s).2.held t))
    (hothers : ∀ t, t ∉ tiers → Holds P (s.held t)) (t : Fin n) :
    Holds P ((s.each call tiers).held t) := by
  by_cases ht : t ∈ tiers
  · have hsame : (s.each call tiers).held t = (exec (t, call) s).2.held t :=
      held_congr (each_of_mem ht s)
    rw [hsame]
    exact hcalled t ht
  · have hsame : (s.each call tiers).held t = s.held t := held_congr (each_of_not_mem ht s)
    rw [hsame]
    exact hothers t ht

theorem deleted_holds {t : Fin n} {key : K} {present : Bool}
    (h : (exec (t, .delete key) s).1 = .ok present) :
    Holds (Only key none) ((exec (t, .delete key) s).2.held t) := by
  refine holds_only_of_eq ?_
  rw [held_exec, show Tier.call (s t).tier (.delete key) = Tier.delete (s t).tier key from rfl,
    LawfulTier.delete_ok (s t).tier key present h]
  simp [erase]

theorem deletedMany_holds {t : Fin n} {keys : List K} {flags : List Bool}
    (h : (exec (t, .deleteMany keys) s).1 = .ok flags) (hk : k ∈ keys) :
    Holds (Only k none) ((exec (t, .deleteMany keys) s).2.held t) := by
  refine holds_only_of_eq ?_
  rw [held_exec,
    show Tier.call (s t).tier (.deleteMany keys) = Tier.deleteMany (s t).tier keys from rfl,
    LawfulTier.deleteMany_ok (s t).tier keys flags h]
  simp [eraseAll, hk]

omit [Tier T K V E] [LawfulTier T] [DecidableEq K] in
theorem holds_of_none {held : K → Option V} (h : Holds (Only k none) held) (m : Option V) :
    Holds (Only k m) held := by
  intro x w hx hxk
  cases h x w hx hxk

theorem put_holds {t : Fin n} {v : V} {displaced : Displaced K V}
    (h : (exec (t, .put k v) s).1 = .ok displaced) :
    Vouched (Only k (some v)) displaced ∧
      Holds (Only k (some v)) ((exec (t, .put k v) s).2.held t) := by
  have hwrite : Holds (Only k (some v)) (write (contents (s t).tier) [(k, v)]) :=
    holds_only_of_eq (by rw [write_singleton, if_pos rfl])
  rw [held_exec]
  exact put_clean hwrite h

theorem putMany_holds {t : Fin n} {entries : List (K × V)} {displaced : Displaced K V}
    (h : (exec (t, .putMany entries) s).1 = .ok displaced) (hk : k ∈ entries.map Prod.fst) :
    Holds (Only k (latest entries k)) ((exec (t, .putMany entries) s).2.held t) := by
  intro x w hx hxk
  subst hxk
  have hwritten := congrFun (putMany_conserves h) x
  rw [atop_of_some hx, write] at hwritten
  cases hlatest : latest entries x with
  | none => exact absurd hk (latest_eq_none.1 hlatest)
  | some v => rw [hwritten, atop_of_some hlatest]

/-! ## A write-through that every tier accepts -/
section Through
variable (r : Router n)

/-- If an accepted write leaves a tier with vouched entries only, and displaces only such, then
a write-through that fails on the first rejection leaves every tier so when it succeeds. -/
theorem writeThrough_acknowledged (hfast : r.policy.onWriteError = .failFast)
    {w : Fin n → RouterM n K V E (Except E (Displaced K V))}
    (hother : ∀ t (s : Stack T n) j, j ≠ t → (run (w t) s).2 j = s j)
    (hput : ∀ t (s : Stack T n) d, (run (w t) s).1 = .ok d →
      Vouched P d ∧ Holds P ((run (w t) s).2.held t))
    (ts done : List (Fin n)) (hsplit : List.finRange n = ts.reverse ++ done)
    (evicted : Displaced K V) (s : Stack T n)
    (hdone : ∀ j, j ∈ done ∨ r.writable j = false → Holds P (s.held j)) {displaced : Displaced K V}
    (hok : (run (r.writeThrough w ts evicted) s).1 = .ok displaced) (j : Fin n) :
    Holds P ((run (r.writeThrough w ts evicted) s).2.held j) := by
  induction ts generalizing done evicted s with
  | nil =>
    refine hdone j (Or.inl ?_)
    simpa [hsplit] using List.mem_finRange j
  | cons t above ih =>
    have hsplit' : List.finRange n = above.reverse ++ t :: done := by
      rw [hsplit]
      simp
    rw [Router.writeThrough] at hok ⊢
    cases hw : r.writable t with
    | false =>
      simp only [hw, Bool.not_false, if_true] at hok ⊢
      refine ih (t :: done) hsplit' evicted s (fun i hi => ?_) hok
      obtain hi | hi := hi
      · obtain rfl | hi := List.mem_cons.1 hi
        · exact hdone i (Or.inr hw)
        · exact hdone i (Or.inl hi)
      · exact hdone i (Or.inr hi)
    | true =>
      simp only [hw, Bool.not_true, Bool.false_eq_true, if_false, run_bind] at hok ⊢
      have hframe := hother t s
      have hgood := hput t s
      generalize run (w t) s = out at *
      obtain ⟨a, s₁⟩ := out
      cases a with
      | error source => simp [hfast] at hok
      | ok d =>
        obtain ⟨hd, ht⟩ := hgood d rfl
        have hdone₁ : ∀ i, i ∈ t :: done ∨ r.writable i = false → Holds P (s₁.held i) := by
          intro i hi
          by_cases hit : i = t
          · rw [hit]
            exact ht
          · have hsame : s₁.held i = s.held i := held_congr (hframe i hit)
            rw [hsame]
            exact hdone i (hi.imp_left fun hi => (List.mem_cons.1 hi).resolve_left hit)
        have hclean : Clean (fun i => i ∈ t :: done ∨ r.writable i = false) (fun _ => True)
            (fun _ => True) P (fun _ => True) (r.demote t d : RouterM n K V E _) := by
          refine r.demote_clean t (fun i hi => Or.inl ?_) (fun _ _ => trivial) d fun _ => hd
          rw [tiersBelow_of_split hsplit'] at hi
          exact List.mem_cons_of_mem t hi
        have hstep : ∀ (q : Query n K V) (s : Stack T n),
            (∀ i, i ∈ t :: done ∨ r.writable i = false → Holds P (s.held i)) →
            OkCall (fun i => i ∈ t :: done ∨ r.writable i = false) (fun _ => True) P q →
            OkAnswer (fun _ => True) P q (exec q s).1 ∧
              ∀ i, i ∈ t :: done ∨ r.writable i = false → Holds P ((exec q s).2.held i) :=
          fun q s hs hq => exec_clean hq hs
        have hdemoted := (run_clean hstep hclean hdone₁).2
        dsimp only at hok ⊢
        split at hok
        · next hempty =>
          rw [if_pos hempty]
          exact ih (t :: done) hsplit' evicted s₁ hdone₁ hok
        · next hnonempty =>
          rw [if_neg hnonempty]
          split at hok
          · next hdown =>
            rw [if_pos hdown, run_bind]
            rw [run_bind] at hok
            exact ih (t :: done) hsplit' _ _ hdemoted hok
          · next hdown =>
            rw [if_neg hdown]
            exact ih (t :: done) hsplit' _ s₁ hdone₁ hok

end Through

/-! ## What an acknowledgement leaves behind -/
section Settled
variable (r : Router n) (hreadOnly : ∀ t, r.writable t = false → Holds (Only k m) (s.held t))
include hreadOnly

theorem delete_settles {key : K} {present : Bool} (hkey : key = k) (hm : m = none)
    (hok : (run (r.delete key) s).1 = .ok present) (t : Fin n) :
    Holds (Only k m) ((run (r.delete key) s).2.held t) := by
  rw [r.run_delete] at hok ⊢
  have hnone : (r.refusals (r.answers (.delete key) (List.finRange n) s)).isEmpty = true := by
    by_contra hsome
    simp [Router.deleted, hsome] at hok
  refine holds_each (fun t ht => ?_) (fun t ht => hreadOnly t ?_) t
  · obtain ⟨a, ha⟩ := r.accepted_of_refusals hnone ht
    rw [hm, ← hkey]
    exact deleted_holds ha
  · simpa [Router.writables] using ht

theorem removeMany_settles {keys : List K} (hk : k ∈ keys) (hm : m = none)
    (hcomplete : (run (r.removeMany keys) s).1.isComplete = true) (t : Fin n) :
    Holds (Only k m) ((run (r.removeMany keys) s).2.held t) := by
  rw [r.run_removeMany] at hcomplete ⊢
  have hnone : (r.refusals (r.answers (.deleteMany keys) (List.finRange n) s)).isEmpty = true :=
    hcomplete
  refine holds_each (fun t ht => ?_) (fun t ht => hreadOnly t ?_) t
  · obtain ⟨a, ha⟩ := r.accepted_of_refusals hnone ht
    rw [hm]
    exact deletedMany_holds ha hk
  · simpa [Router.writables] using ht

theorem deleteMany_settles {keys : List K} {flags : List Bool} (hk : k ∈ keys) (hm : m = none)
    (hok : (run (r.deleteMany keys) s).1 = .ok flags) (t : Fin n) :
    Holds (Only k m) ((run (r.deleteMany keys) s).2.held t) := by
  have hremoved := removeMany_settles r hreadOnly hk hm
  rw [r.run_deleteMany] at hok ⊢
  rw [r.run_removeMany] at hremoved
  refine hremoved ?_ t
  by_contra hbounded
  simp [hbounded] at hok

theorem writeAround_settles {call : TierCall K V} {es : List (K × V)}
    {write : Fin n → RouterM n K V E (Except E (Displaced K V))}
    {remove : Fin n → RouterM n K V E (Except E call.Output)}
    (hwrites : Writes T write es) (hremove : ∀ t, remove t = Program.ask (t, call))
    (hwritten : ∀ t d, (run (write t) s).1 = .ok d → Holds (Only k m) ((run (write t) s).2.held t))
    (hremoved : ∀ t (s : Stack T n) a, (exec (t, call) s).1 = .ok a →
      Holds (Only k none) ((exec (t, call) s).2.held t))
    {displaced : Displaced K V} (hok : (run (r.writeAround write remove) s).1 = .ok displaced)
    (t : Fin n) : Holds (Only k m) ((run (r.writeAround write remove) s).2.held t) := by
  cases hbottom : r.bottom with
  | none =>
    rw [Router.writeAround, hbottom] at hok
    cases hok
  | some bottom =>
    obtain ⟨-, habove⟩ := r.bottom_spec hbottom
    have hother := hwrites.other bottom s
    have hheld := hwritten bottom
    rw [r.run_writeAround call hremove hbottom] at hok ⊢
    generalize run (write bottom) s = out at *
    obtain ⟨a, s₁⟩ := out
    cases a with
    | error source => cases hok
    | ok d =>
      have hnone : (r.refusals (r.answers call (Router.above bottom) s₁)).isEmpty = true := by
        by_contra hsome
        simp [Router.writtenAround, hsome] at hok
      refine holds_each (fun t ht => ?_) (fun t ht => ?_) t
      · obtain ⟨a, ha⟩ := r.accepted_of_refusals hnone ht
        exact holds_of_none (hremoved t s₁ a ha) m
      · by_cases htb : t = bottom
        · rw [htb]
          exact hheld d rfl
        · have hsame : s₁.held t = s.held t := held_congr (hother t htb)
          rw [hsame]
          refine hreadOnly t ?_
          cases hw : r.writable t with
          | false => rfl
          | true =>
            have hmem := (habove t hw).resolve_left htb
            exact absurd (List.mem_filter.2 ⟨hmem, hw⟩) ht

end Settled

/-- After an acknowledgement no tier holds anything else under the key. -/
theorem acknowledged_holds (r : Router n)
    (hreadOnly : ∀ t, r.writable t = false → Holds (Only k m) (s.held t)) {c : RouterCall K V}
    (h : r.Acknowledges k m c (run (r.execute c) s).1) (t : Fin n) :
    Holds (Only k m) ((run (r.execute c) s).2.held t) := by
  cases c with
  | get key | exists_ key | getMany keys | readMany keys | readOne key => exact h.elim
  | delete key =>
    obtain ⟨hkey, hm, present, hok⟩ := h
    exact delete_settles r hreadOnly hkey hm hok t
  | deleteMany keys =>
    obtain ⟨hk, hm, flags, hok⟩ := h
    exact deleteMany_settles r hreadOnly hk hm hok t
  | removeMany keys =>
    obtain ⟨hk, hm, hcomplete⟩ := h
    exact removeMany_settles r hreadOnly hk hm hcomplete t
  | put key value =>
    obtain ⟨rfl, rfl, ⟨displaced, hok⟩, hmode⟩ := h
    simp only [Router.execute, Router.put] at hok ⊢
    cases hwrite : r.policy.write with
    | writeAround =>
      rw [hwrite] at hok
      exact writeAround_settles r hreadOnly (writes_put key value) (fun _ => rfl)
        (fun t d hd => (put_holds (show (exec (t, .put key value) s).1 = .ok d from hd)).2)
        (fun t s a ha => deleted_holds ha) hok t
    | writeThrough =>
      have hfast : r.policy.onWriteError = .failFast :=
        hmode.resolve_left (by rw [hwrite]; simp)
      rw [hwrite] at hok
      dsimp only at hok ⊢
      split at hok
      · cases hok
      · next hany =>
        rw [if_neg hany]
        exact writeThrough_acknowledged r hfast (writes_put (T := T) (E := E) key value).other
          (fun t s d hd => put_holds (show (exec (t, .put key value) s).1 = .ok d from hd))
          (List.finRange n).reverse [] (by simp) [] s
          (fun j hj => hreadOnly j (hj.resolve_left (by simp))) hok t
  | putMany entries =>
    obtain ⟨rfl, hk, ⟨displaced, hok⟩, hmode⟩ := h
    simp only [Router.execute, Router.putMany, hmode] at hok ⊢
    exact writeAround_settles r hreadOnly (writes_putMany entries) (fun _ => rfl)
      (fun t d hd => putMany_holds (show (exec (t, .putMany entries) s).1 = .ok d from hd) hk)
       (fun t s a ha => deletedMany_holds ha hk) hok t

end Stack

namespace TieredCache

/-- What has been acknowledged is final: whatever else happens on the stack afterwards, in any
interleaving and with any failures, no tier holds and no call shows anything else under the key,
unless a call writes it. -/
theorem acknowledged_is_final {T K V E L ι : Type} [DecidableEq K] [Tier T K V E] [LawfulTier T]
    [DecidableEq ι] {n : Nat} (r : Router n) (singleFlight : Bool) (s : Stack T n) (k : K)
    (m : Option V) (hreadOnly : ∀ t, r.writable t = false → ∀ v, s.held t k = some v → m = some v)
    (op : RouterCall K V) (hop : r.Acknowledges k m op (Stack.run (r.execute op) s).1)
    (calls : ι → ServiceCall K V L) (hcalls : ∀ i v, (k, v) ∈ (calls i).written → m = some v)
    (schedule : List ι) :
    let later := Pool.run execLoad
      (startService r singleFlight calls (Stack.run (r.execute op) s).2) schedule
    (∀ t v, later.shared.stack.held t k = some v → m = some v) ∧
      ∀ i a, later.threads i = .done a → ∀ v, (calls i).Shows a (k, v) → m = some v := by
  have hsettled : ∀ t v, (Stack.run (r.execute op) s).2.held t k = some v → m = some v := by
    intro t v hv
    refine Stack.acknowledged_holds r (fun t ht x w hx hxk => ?_) hop t k v hv rfl
    exact hreadOnly t ht w (hxk ▸ hx)
  have hcarries : ∀ i, (entries (T := T)).Carries (fun e => e ∈ (calls i).written)
      (fun a e => (calls i).Shows (E := E) a e) (execute r singleFlight (calls i)) :=
    fun i X hX => execute_passes r singleFlight (calls i) hX
  have hstart : ∀ e : K × V, (∃ t, (Stack.run (r.execute op) s).2.held t e.1 = some e.2) →
      e.1 = k → m = some e.2 := by
    rintro ⟨x, v⟩ ⟨t, ht⟩ rfl
    exact hsettled t v ht
  have hown : ∀ i, ∀ e ∈ (calls i).written, e.1 = k → m = some e.2 := by
    rintro i ⟨x, v⟩ he rfl
    exact hcalls i v he
  obtain ⟨hheld, hshown⟩ := Carriage.confined_run (X := fun e => e.1 = k → m = some e.2)
    entries_closed { stack := (Stack.run (r.execute op) s).2, gates := [] } hcarries hstart hown
    schedule
  exact ⟨fun t v hv => hheld (k, v) ⟨t, hv⟩ rfl,
    fun i a hdone v hv => hshown i a hdone (k, v) hv rfl⟩

def aroundMemory : Router 2 :=
  .uniform 2 "memory" { defaultPolicy with write := .writeAround }

def copiedTwice : Stack (MemoryTier Nat Nat) 2 :=
  (Stack.run (memoryCache.put 1 5) (Stack.build fun _ => .unbounded)).2

theorem acknowledged_is_final_memory :
    let put : RouterCall Nat Nat := .put 1 10
    let calls : Fin 2 → ServiceCall Nat Nat String := fun _ => .get 1
    let later := Pool.run execLoad (startService (E := Infallible) aroundMemory true calls
      (Stack.run (aroundMemory.execute put) copiedTwice).2) [0, 1, 0, 0, 1, 0, 0, 1, 1, 1, 1]
    (∀ t v, later.shared.stack.held t 1 = some v → some 10 = some v) ∧
      ∀ i a, later.threads i = .done a → ∀ v, (calls i).Shows a (1, v) → some 10 = some v :=
  acknowledged_is_final aroundMemory true copiedTwice 1 (some 10) (fun _ h => by cases h)
    (.put 1 10) ⟨rfl, rfl, ⟨[], by decide +kernel⟩, .inl rfl⟩ (fun _ => .get 1)
    (fun _ _ h => by cases h) _

end TieredCache
end Tierstore
