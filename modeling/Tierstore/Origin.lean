import Tierstore.Service

/-! No entry comes out of thin air: whatever calls run at once and whatever tiers fail, an
entry in a tier or in a result was there at the start, or a caller or its loader has handed it
over, under that very key. -/
namespace Tierstore
open Overlay Effects

namespace Router
variable {n : Nat} {K V E : Type} (r : Router n) {P : K → V → Prop}

/-- The trait-level batched read hands out what the report does. -/
theorem getMany_honest (keys : List K) :
    Honest P (fun a => ∀ values, a = .ok values → ∀ k v, (k, some v) ∈ keys.zip values → P k v)
      (r.getMany keys : RouterM n K V E _) := by
  refine (r.readMany_clean (fun _ => trivial) (fun _ _ => trivial) keys).bind fun a ha => ?_
  cases a with
  | error error => exact fun values h => by cases h
  | ok report =>
    dsimp only
    split
    · exact fun values h => by cases h
    · rintro values hvalues
      cases hvalues
      exact (ha report rfl).2

theorem put_honest {key : K} {value : V} (h : P key value) :
    Honest P (fun a => ∀ d, a = .ok d → Vouched P d) (r.put key value : RouterM n K V E _) := by
  have hw : ∀ t : Fin n, Honest P (fun a => ∀ d, a = .ok d → Vouched P d)
      (putAt t key value : RouterM n K V E _) := fun t =>
    (putAt_clean (fun _ => trivial) t h).mono fun a ha d hd => ha d hd trivial
  rw [put]
  cases r.policy.write with
  | writeThrough =>
    dsimp only
    split
    · exact fun d hd => by cases hd
    · exact r.writeThrough_honest hw _ fun e he => by cases he
  | writeAround =>
    exact r.writeAround_honest hw fun t => deleteAt_clean (fun _ => trivial) t trivial

theorem putMany_honest {entries : List (K × V)} (h : Vouched P entries) :
    Honest P (fun a => ∀ d, a = .ok d → Vouched P d) (r.putMany entries : RouterM n K V E _) := by
  have hw : ∀ t : Fin n, Honest P (fun a => ∀ d, a = .ok d → Vouched P d)
      (putManyAt t entries : RouterM n K V E _) := fun t =>
    (putManyAt_clean (fun _ => trivial) t h).mono fun a ha d hd => ha d hd trivial
  rw [putMany]
  cases r.policy.write with
  | writeThrough =>
    dsimp only
    split
    · exact fun d hd => by cases hd
    · exact r.writeThrough_honest hw _ fun e he => by cases he
  | writeAround =>
    exact r.writeAround_honest hw fun t =>
      deleteManyAt_clean (fun _ => trivial) t fun _ _ => trivial

/-- Every call on a router hands out vouched entries, if the caller's are. -/
theorem execute_honest (c : RouterCall K V) (hc : Vouched P c.written) :
    Honest P (fun a => ∀ e, c.Shows a e → P e.1 e.2) (r.execute c : RouterM n K V E _) := by
  have hD : ∀ _ : Fin n, True := fun _ => trivial
  have hQ : ∀ t, r.Spills t → True := fun _ _ => trivial
  cases c with
  | get key =>
    refine (r.get_clean hD hQ key).mono fun a ha => ?_
    rintro ⟨k, v⟩ ⟨rfl, hv⟩
    exact ha v hv
  | exists_ key => exact (r.exists_clean hD key).mono fun a _ e he => he.elim
  | getMany keys =>
    refine (r.getMany_honest keys).mono fun a ha => ?_
    rintro ⟨k, v⟩ ⟨values, hvalues, hmem⟩
    exact ha values hvalues k v hmem
  | put key value =>
    refine (r.put_honest (hc (key, value) (by simp [RouterCall.written]))).mono fun a ha => ?_
    rintro e ⟨d, hd, he⟩
    exact ha d hd e he
  | delete key => exact (r.delete_clean hD trivial).mono fun a _ e he => he.elim
  | putMany entries =>
    refine (r.putMany_honest hc).mono fun a ha => ?_
    rintro e ⟨d, hd, he⟩
    exact ha d hd e he
  | deleteMany keys =>
    refine (r.removeMany_clean hD fun _ _ => trivial).bind fun report _ => ?_
    split <;> exact fun e he => he.elim
  | readMany keys =>
    refine (r.readMany_clean hD hQ keys).mono fun a ha => ?_
    rintro ⟨k, v⟩ ⟨report, hreport, hmem⟩
    exact (ha report hreport).2 k v hmem
  | readOne key =>
    refine (r.readOne_clean hD hQ key).mono fun a ha => ?_
    rintro ⟨k, v⟩ ⟨rfl, report, hreport, hv⟩
    exact ha report hreport v hv
  | removeMany keys =>
    exact (r.removeMany_clean hD fun _ _ => trivial).mono fun a _ e he => he.elim

end Router

namespace TieredCache
variable {n : Nat} {T K V E L : Type}

/-! ## Entries on the move -/

def Writes : Query n K V → K × V → Prop
  | (_, .put key value), e => e = (key, value)
  | (_, .putMany entries), e => e ∈ entries
  | _, _ => False

def Returns : (q : Query n K V) → Answer n K V E q → K × V → Prop
  | (_, .get key), a, e => e.1 = key ∧ a = .ok (some e.2)
  | (_, .getMany keys), a, e => ∃ values, a = .ok values ∧ (e.1, some e.2) ∈ keys.zip values
  | (_, .put _ _), a, e => ∃ displaced, a = .ok displaced ∧ e ∈ displaced
  | (_, .putMany _), a, e => ∃ displaced, a = .ok displaced ∧ e ∈ displaced
  | _, _, _ => False

theorem okCall_iff {P : K → V → Prop} {q : Query n K V} :
    OkCall (fun _ => True) (fun _ => True) P q ↔ ∀ e, Writes q e → P e.1 e.2 := by
  obtain ⟨t, c⟩ := q
  cases c <;> simp [OkCall, Writes, Vouched]

theorem okAnswer_iff {P : K → V → Prop} {q : Query n K V} {a : Answer n K V E q} :
    OkAnswer (fun _ => True) P q a ↔ ∀ e, Returns q a e → P e.1 e.2 := by
  obtain ⟨t, c⟩ := q
  cases c <;> cases a <;> try simp [OkAnswer, Returns, Vouched]
  next key out => cases out <;> simp

/-- Entries travel in tier calls and out of loaders; a stack holds the ones in its tiers. -/
def entries [DecidableEq K] [Tier T K V E] [LawfulTier T] :
    Carriage (K × V) (LoadQuery n K V L) (LoadAnswer n K V E L) (Shared T K n) where
  takes
    | .cache (.tier q), e => Writes q e
    | .load key result, e => e.1 = key ∧ result = .ok e.2
    | _, _ => False
  gives
    | .cache (.tier q), a, e => Returns q a e
    | .load key _, a, e => e.1 = key ∧ a = .ok e.2
    | .cache (.acquire _), _, _ => False
    | .cache (.release _), _, _ => False
  holds s e := ∃ t, s.stack.held t e.1 = some e.2

section Calls
variable [DecidableEq K] [Tier T K V E] [LawfulTier T]

/-- A tier answers with entries it holds or was given, and keeps no others. -/
theorem entries_closed :
    (entries : Carriage (K × V) (LoadQuery n K V L) (LoadAnswer n K V E L) (Shared T K n)).Closed
      execLoad := by
  rintro q s a s' hexec e he
  cases q with
  | load key result =>
    cases hexec
    obtain hgives | hheld := he
    · exact Or.inr hgives
    · exact Or.inl hheld
  | cache q =>
    cases q with
    | acquire key =>
      simp only [execLoad, exec] at hexec
      split at hexec
      · cases hexec
      · cases hexec
        exact Or.inl (he.resolve_left id)
    | release key =>
      cases hexec
      exact Or.inl (he.resolve_left id)
    | tier q =>
      have hq : OkCall (fun _ => True) (fun _ => True)
          (fun k v => (∃ t, s.stack.held t k = some v) ∨ Writes q (k, v)) q :=
        okCall_iff.2 fun e he => Or.inr he
      have hs : ∀ t, True →
          Holds (fun k v => (∃ t, s.stack.held t k = some v) ∨ Writes q (k, v)) (s.stack.held t) :=
        fun t _ k v hv => Or.inl ⟨t, hv⟩
      obtain ⟨hans, hheld⟩ := Stack.exec_clean (Q := fun _ => True) hq hs
      simp only [execLoad, exec, Option.some.injEq, Prod.mk.injEq] at hexec
      obtain ⟨rfl, rfl⟩ := hexec
      obtain hgives | ⟨t, ht⟩ := he
      · exact okAnswer_iff.1 hans e hgives
      · exact hheld t trivial e.1 e.2 ht

end Calls

/-! ## The gated reads -/
section Gated
variable {α : Type} (r : Router n) (singleFlight : Bool)

theorem honest_lift {P : K → V → Prop} {post : α → Prop} {p : RouterM n K V E α}
    (h : Router.Honest P post p) : (lift p).Safe (OkQuery P) (OkReply P) post := by
  refine Program.Safe.embed ?_ ?_ h
  · exact fun _ hq => hq
  · exact fun _ _ ha => ha

theorem lookupGated_honest {P : K → V → Prop} (key : K) :
    (lookupGated r singleFlight key : CacheM n K V E _).Safe (OkQuery P) (OkReply P)
      fun a => ∀ report, a = .ok report → ∀ v, report.status.value = some v → P key v := by
  have hread := honest_lift (r.readOne_clean (P := P) (E := E)
    (fun _ => trivial) (fun _ _ => trivial) key)
  unfold lookupGated
  split
  · exact hread
  · exact ⟨trivial, fun _ _ => hread.bind fun _ ha => ⟨trivial, fun _ _ => ha⟩⟩

theorem getGated_honest {P : K → V → Prop} (key : K) :
    (getGated r singleFlight key : CacheM n K V E _).Safe (OkQuery P) (OkReply P)
      fun a => ∀ v, a = .ok (some v) → P key v := by
  refine (lookupGated_honest r singleFlight key).bind fun a ha v hv => ?_
  cases a with
  | error error => cases hv
  | ok report =>
    obtain ⟨status, failures⟩ := report
    cases status with
    | hit tier value =>
      cases hv
      exact ha _ rfl v rfl
    | miss => cases hv
    | inconclusive => cases hv

end Gated

/-! ## What a call passes on -/
section Passes
variable [DecidableEq K] [Tier T K V E] [LawfulTier T] {α : Type}

abbrev Passes (T : Type) {K V E : Type} [DecidableEq K] [Tier T K V E] [LawfulTier T]
    (X : K × V → Prop) (post : α → Prop) (p : LoadM n K V E L α) : Prop :=
  p.Safe (fun q => ∀ e, (entries (T := T)).takes q e → X e)
    (fun q a => ∀ e, (entries (T := T)).gives q a e → X e) post

variable {X : K × V → Prop}

theorem passes_liftCache {post : α → Prop} {p : CacheM n K V E α}
    (h : p.Safe (OkQuery fun k v => X (k, v)) (OkReply fun k v => X (k, v)) post) :
    Passes T X post (liftCache p : LoadM n K V E L α) := by
  refine Program.Safe.embed (fun q hq => ?_) (fun q a ha => ?_) h
  · cases q with
    | tier q => exact okCall_iff.1 hq
    | acquire key => exact fun e he => he.elim
    | release key => exact fun e he => he.elim
  · cases q with
    | tier q => exact okAnswer_iff.2 ha
    | acquire key => trivial
    | release key => trivial

variable (r : Router n) (singleFlight : Bool)

theorem probe_passes (key : K) :
    Passes T X (fun a => ∀ v, a = some v → X (key, v)) (probe r key : LoadM n K V E L _) := by
  have hget := passes_liftCache (T := T) (L := L) (honest_lift (r.get_clean (E := E)
    (P := fun k v => X (k, v)) (fun _ => trivial) (fun _ _ => trivial) key))
  refine hget.bind fun a ha => ?_
  split
  · next value =>
    rintro v hv
    cases hv
    exact ha value rfl
  · exact fun v hv => by cases hv

theorem loadAndFill_passes {key : K} {load : Except L V} (h : ∀ v, load = .ok v → X (key, v)) :
    Passes T X (fun a => ∀ v, a = .ok v → X (key, v))
      (loadAndFill r key load : LoadM n K V E L _) := by
  refine ⟨fun e he => ?_, fun a ha => ?_⟩
  · obtain ⟨hkey, hload⟩ := he
    have he := h e.2 hload
    rwa [← hkey] at he
  · cases a with
    | error error => exact fun v hv => by cases hv
    | ok value =>
      have hvalue : X (key, value) := ha (key, value) ⟨rfl, rfl⟩
      refine (passes_liftCache (honest_lift (r.put_honest hvalue))).bind fun _ _ v hv => ?_
      cases hv
      exact hvalue

theorem getOrLoad_passes {key : K} {load : Except L V} (h : ∀ v, load = .ok v → X (key, v)) :
    Passes T X (fun a => ∀ v, a = .ok v → X (key, v))
      (getOrLoad r singleFlight key load : LoadM n K V E L _) := by
  refine (probe_passes r key).bind fun a ha => ?_
  cases a with
  | some value =>
    rintro v hv
    cases hv
    exact ha value rfl
  | none =>
    dsimp only
    split
    · exact loadAndFill_passes r h
    · refine ⟨fun e he => he.elim, fun _ _ => (probe_passes r key).bind fun a ha => ?_⟩
      cases a with
      | some value =>
        refine ⟨fun e he => he.elim, fun _ _ => ?_⟩
        rintro v hv
        cases hv
        exact ha value rfl
      | none =>
        exact (loadAndFill_passes r h).bind fun result hresult =>
          ⟨fun e he => he.elim, fun _ _ => hresult⟩

theorem execute_passes (c : ServiceCall K V L) (hc : ∀ e ∈ c.written, X e) :
    Passes T X (fun a => ∀ e, c.Shows a e → X e)
      (execute r singleFlight c : LoadM n K V E L _) := by
  cases c with
  | router c => exact passes_liftCache (honest_lift (r.execute_honest c hc))
  | get key =>
    refine (passes_liftCache (getGated_honest r singleFlight key)).mono fun a ha => ?_
    rintro ⟨k, v⟩ ⟨rfl, hv⟩
    exact ha v hv
  | lookup key =>
    refine (passes_liftCache (lookupGated_honest r singleFlight key)).mono fun a ha => ?_
    rintro ⟨k, v⟩ ⟨rfl, report, hreport, hv⟩
    exact ha report hreport v hv
  | getOrLoad key load =>
    refine (getOrLoad_passes r singleFlight fun v hv => hc (key, v) ?_).mono fun a ha => ?_
    · rw [hv]
      exact List.mem_singleton_self _
    · rintro ⟨k, v⟩ ⟨rfl, hv⟩
      exact ha v hv

end Passes

/-- Where an entry may come from: the tiers at the start, or a call that has taken a step. -/
def Sourced [DecidableEq K] [Tier T K V E] [LawfulTier T] {ι : Type}
    (calls : ι → ServiceCall K V L) (s : Stack T n) (log : List (ι × LoadQuery n K V L))
    (e : K × V) : Prop :=
  (∃ t, s.held t e.1 = some e.2) ∨ ∃ i, (∃ q, (i, q) ∈ log) ∧ e ∈ (calls i).written

/-- Over any tiers that meet the contract, any call on which may fail, and for every policy
and every interleaving of calls on a router or on a cache over it: an entry that any tier holds
or any call returns was in a tier at the start, or a call that has begun was given it or has
loaded it, under that key. -/
theorem no_entry_out_of_thin_air {T K V E L ι : Type} [DecidableEq K] [Tier T K V E]
    [LawfulTier T] [DecidableEq ι] {n : Nat} (r : Router n) (singleFlight : Bool)
    (calls : ι → ServiceCall K V L) (s : Stack T n) (schedule : List ι) :
    let c := Pool.run execLoad (startService r singleFlight calls s) schedule
    (∀ t k v, c.shared.stack.held t k = some v → Sourced calls s c.log (k, v)) ∧
      ∀ i a, c.threads i = .done a → ∀ e, (calls i).Shows a e →
        Sourced calls s c.log e ∨ e ∈ (calls i).written := by
  have hcarries : ∀ i, (entries (T := T)).Carries (fun e => e ∈ (calls i).written)
      (fun a e => (calls i).Shows (E := E) a e) (execute r singleFlight (calls i)) :=
    fun i X hX => execute_passes r singleFlight (calls i) hX
  obtain ⟨hheld, hshown⟩ := Carriage.sourced_run entries_closed
    { stack := s, gates := [] } hcarries schedule
  exact ⟨fun t k v hv => hheld (k, v) ⟨t, hv⟩, hshown⟩

end TieredCache
end Tierstore
