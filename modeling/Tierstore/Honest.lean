import Tierstore.Lib.Traces
import Tierstore.Reads

/-! What a single-key read asks, and what it returns, for every answer it may get. -/
namespace Tierstore
open Effects

abbrev Event (n : Nat) (K V E : Type) := Program.Event (Query n K V) (Answer n K V E)

namespace Router
variable {n : Nat} {K V E : Type} (r : Router n)

def Ends : Except E (Option V) → Prop
  | .ok (some _) => True
  | .ok none => False
  | .error _ => r.policy.read.onError = .failFast

def failuresOf {α : Type} (out : Fin n → Except E α) (tiers : List (Fin n)) :
    List (TierFailure E) :=
  tiers.filterMap fun t =>
    match out t with
    | .error source => some (r.failure t source)
    | .ok _ => none

def Demotes (target : Fin n) (e : Event n K V E) : Prop :=
  ∃ t k v, e.1 = (t, .put k v) ∧ target < t ∧ r.writable t = true

def CopiesTo (key : K) (value : V) (targets : List (Fin n)) (log : List (Event n K V E)) : Prop :=
  ∃ blocks, log = blocks.flatten ∧ List.Forall₂ (fun target block =>
    ∃ a demoted, block = ⟨(target, .put key value), a⟩ :: demoted ∧
      ∀ e ∈ demoted, r.Demotes target e) (targets.filter fun t => r.writable t) blocks

structure HonestRead (key : K) (log : List (Event n K V E))
    (result : Option (Except (RouterError E) (Option V))) (out : Fin n → Except E (Option V))
    (reached : List (Fin n)) (copies : List (Event n K V E)) : Prop where
  order : reached <+: List.finRange n
  calls : log = reached.map (fun t => ⟨(t, .get key), out t⟩) ++ copies
  goesOn : ∀ t ∈ reached.dropLast, ¬ r.Ends (out t)
  stops : reached = List.finRange n ∨ ∃ t ∈ reached.getLast?, r.Ends (out t)
  hit : ∀ v, result = some (.ok (some v)) ↔ ∃ t ∈ reached, out t = .ok (some v)
  miss : result = some (.ok none) ↔ reached = List.finRange n ∧ ∀ t, out t = .ok none
  inconclusive : ∀ failures, result = some (.error (.inconclusive failures)) ↔
    r.policy.read.onError = .fallThrough ∧ reached = List.finRange n ∧
      (∀ t v, out t ≠ .ok (some v)) ∧ failures ≠ [] ∧
      failures = r.failuresOf out (List.finRange n)
  failed : ∀ failure, result = some (.error (.tier failure)) ↔
    r.policy.read.onError = .failFast ∧
      ∃ t ∈ reached, ∃ source, out t = .error source ∧ failure = r.failure t source
  ends : (∃ found, result = some (.ok found)) ∨
    (∃ failures, result = some (.error (.inconclusive failures))) ∨
    ∃ failure, result = some (.error (.tier failure))
  copied : ∀ t ∈ reached, ∀ v, out t = .ok (some v) →
    r.CopiesTo key v (r.hitTargets t) copies
  quiet : (∀ t ∈ reached, ∀ v, out t ≠ .ok (some v)) → copies = []

variable {r} {key : K}

/-! ## The copies -/

theorem demotes_of_demoteInto {source target : Fin n} (hbelow : source < target)
    (hw : r.writable target = true) (entries next : Displaced K V) :
    (demoteInto (E := E) target entries next).Safe
      (fun q => ∃ t k v, q = (t, .put k v) ∧ source < t ∧ r.writable t = true)
      (fun _ _ => True) (fun _ => True) := by
  induction entries generalizing next with
  | nil => trivial
  | cons e rest ih =>
    refine ⟨⟨target, e.1, e.2, rfl, hbelow, hw⟩, fun a _ => ?_⟩
    cases a with
    | ok displaced => exact ih _
    | error source => exact ih _

theorem demotes_of_demoteDown {source : Fin n} {below : List (Fin n)}
    (hbelow : ∀ t ∈ below, source < t) (entries : Displaced K V) :
    (r.demoteDown (E := E) below entries).Safe
      (fun q => ∃ t k v, q = (t, .put k v) ∧ source < t ∧ r.writable t = true)
      (fun _ _ => True) (fun _ => True) := by
  induction below generalizing entries with
  | nil => trivial
  | cons t below ih =>
    have hrest := ih fun u hu => hbelow u (List.mem_cons_of_mem _ hu)
    rw [demoteDown]
    split
    · trivial
    · split
      · exact hrest entries
      · next hw =>
        refine (demotes_of_demoteInto (hbelow t (by simp)) (by simpa using hw) entries []).bind ?_
        exact fun next _ => hrest next

theorem lt_of_mem_tiersBelow {source t : Fin n} (h : t ∈ tiersBelow source) : source < t := by
  obtain ⟨i, hi, rfl⟩ := List.mem_drop_iff_getElem.1 h
  simp only [List.getElem_finRange, Fin.lt_def]
  simp
  omega

theorem trace_promoteOne {target : Fin n} {value : V} {log : List (Event n K V E)}
    (h : (r.promoteOne target key (some value)).Trace log ()) :
    (r.writable target = true ∧ ∃ a demoted, log = ⟨(target, .put key value), a⟩ :: demoted ∧
      ∀ e ∈ demoted, r.Demotes target e) ∨ r.writable target = false ∧ log = [] := by
  rw [promoteOne, promoteWith] at h
  split at h
  · next hw =>
    obtain ⟨a, demoted, rfl, hrest⟩ := h
    refine Or.inl ⟨hw, a, demoted, rfl, ?_⟩
    cases a with
    | error source =>
      obtain ⟨rfl, -⟩ := hrest
      simp
    | ok displaced =>
      change (if _ then _ else _ : RouterM n K V E Unit).Trace demoted () at hrest
      split at hrest
      · obtain ⟨out, first, rest, rfl, hfirst, rfl, -⟩ := Program.trace_bind.1 hrest
        have hsafe := demotes_of_demoteDown (r := r) (E := E)
          (fun t (ht : t ∈ tiersBelow target) => lt_of_mem_tiersBelow ht) displaced
        rw [List.append_nil]
        exact (hsafe.trace hfirst fun _ _ => trivial).1
      · obtain ⟨rfl, -⟩ := hrest
        simp
  · next hw =>
    obtain ⟨rfl, -⟩ := h
    exact Or.inr ⟨by simpa using hw, rfl⟩

theorem trace_copies {value : V} {targets : List (Fin n)} {log : List (Event n K V E)}
    (h : (targets.forM fun target => r.promoteOne (E := E) target key (some value)).Trace log ()) :
    r.CopiesTo key value targets log := by
  induction targets generalizing log with
  | nil =>
    obtain ⟨rfl, -⟩ := h
    exact ⟨[], rfl, .nil⟩
  | cons target rest ih =>
    change (r.promoteOne target key (some value) >>= fun _ => rest.forM fun target =>
      r.promoteOne target key (some value)).Trace log () at h
    obtain ⟨_, first, later, rfl, hfirst, hlater⟩ := Program.trace_bind.1 h
    obtain ⟨blocks, rfl, hblocks⟩ := ih hlater
    obtain ⟨hw, hfirst⟩ | ⟨hw, rfl⟩ := trace_promoteOne hfirst
    · refine ⟨first :: blocks, rfl, ?_⟩
      rw [List.filter_cons_of_pos (by simpa using hw)]
      exact .cons hfirst hblocks
    · refine ⟨blocks, rfl, ?_⟩
      rwa [List.filter_cons_of_neg (by simp [hw])]

/-! ## The walk down -/

inductive Walked (r : Router n) (key : K) (out : Fin n → Except E (Option V))
    (tiers : List (Fin n)) (failures : List (TierFailure E)) :
    List (Fin n) → Except (RouterError E) (Option V) → List (Event n K V E) → Prop where
  | found (passed : List (Fin n)) (t : Fin n) (v : V) (copies : List (Event n K V E))
    (hsplit : passed ++ [t] <+: tiers) (hpassed : ∀ u ∈ passed, ¬ r.Ends (out u))
    (hout : out t = .ok (some v)) (hcopies : r.CopiesTo key v (r.hitTargets t) copies) :
    Walked r key out tiers failures (passed ++ [t]) (.ok (some v)) copies
  | failed (passed : List (Fin n)) (t : Fin n) (source : E)
    (hsplit : passed ++ [t] <+: tiers) (hpassed : ∀ u ∈ passed, ¬ r.Ends (out u))
    (hout : out t = .error source) (hfast : r.policy.read.onError = .failFast) :
    Walked r key out tiers failures (passed ++ [t]) (.error (.tier (r.failure t source))) []
  | exhausted (hpassed : ∀ u ∈ tiers, ¬ r.Ends (out u)) :
    Walked r key out tiers failures tiers
      (Router.exhausted none (failures ++ r.failuresOf out tiers)) []

variable {out out' : Fin n → Except E (Option V)} {tiers reached : List (Fin n)}
  {failures : List (TierFailure E)} {result : Except (RouterError E) (Option V)}
  {copies : List (Event n K V E)}

theorem Walked.congr (h : r.Walked key out tiers failures reached result copies)
    (hout : ∀ t ∈ tiers, out t = out' t) :
    r.Walked key out' tiers failures reached result copies := by
  cases h with
  | found passed t v copies hsplit hpassed hfound hcopies =>
    have hmem : ∀ u ∈ passed ++ [t], u ∈ tiers := fun u hu => hsplit.subset hu
    refine .found passed t v copies hsplit (fun u hu => ?_) ?_ hcopies
    · rw [← hout u (hmem u (by simp [hu]))]
      exact hpassed u hu
    · rw [← hout t (hmem t (by simp)), hfound]
  | failed passed t source hsplit hpassed hfail hfast =>
    have hmem : ∀ u ∈ passed ++ [t], u ∈ tiers := fun u hu => hsplit.subset hu
    refine .failed passed t source hsplit (fun u hu => ?_) ?_ hfast
    · rw [← hout u (hmem u (by simp [hu]))]
      exact hpassed u hu
    · rw [← hout t (hmem t (by simp)), hfail]
  | exhausted hpassed =>
    have hfailures : r.failuresOf out tiers = r.failuresOf out' tiers :=
      List.filterMap_congr fun t ht => by rw [hout t ht]
    rw [hfailures]
    refine .exhausted fun u hu => ?_
    rw [← hout u hu]
    exact hpassed u hu

/-- A tier that answers without a value is passed. -/
theorem Walked.miss (h : r.Walked key out tiers failures reached result copies) {t : Fin n}
    (hmiss : out t = .ok none) :
    r.Walked key out (t :: tiers) failures (t :: reached) result copies := by
  have hgoes : ¬ r.Ends (out t) := by simp [hmiss, Ends]
  cases h with
  | found passed u v copies hsplit hpassed hout hcopies =>
    exact .found (t :: passed) u v copies (List.cons_prefix_cons.2 ⟨rfl, hsplit⟩)
      (List.forall_mem_cons.2 ⟨hgoes, hpassed⟩) hout hcopies
  | failed passed u source hsplit hpassed hout hfast =>
    exact .failed (t :: passed) u source (List.cons_prefix_cons.2 ⟨rfl, hsplit⟩)
      (List.forall_mem_cons.2 ⟨hgoes, hpassed⟩) hout hfast
  | exhausted hpassed =>
    have hfailures : r.failuresOf out tiers = r.failuresOf out (t :: tiers) := by
      simp [failuresOf, hmiss]
    rw [hfailures]
    exact .exhausted (List.forall_mem_cons.2 ⟨hgoes, hpassed⟩)

/-- So is a tier that fails under a policy that falls through, and its failure is kept. -/
theorem Walked.fall {t : Fin n} {source : E}
    (h : r.Walked key out tiers (failures ++ [r.failure t source]) reached result copies)
    (hfail : out t = .error source) (hfall : r.policy.read.onError = .fallThrough) :
    r.Walked key out (t :: tiers) failures (t :: reached) result copies := by
  have hgoes : ¬ r.Ends (out t) := by simp [hfail, Ends, hfall]
  cases h with
  | found passed u v copies hsplit hpassed hout hcopies =>
    exact .found (t :: passed) u v copies (List.cons_prefix_cons.2 ⟨rfl, hsplit⟩)
      (List.forall_mem_cons.2 ⟨hgoes, hpassed⟩) hout hcopies
  | failed passed u source hsplit hpassed hout hfast =>
    rw [hfall] at hfast
    cases hfast
  | exhausted hpassed =>
    have hfailures : failures ++ [r.failure t source] ++ r.failuresOf out tiers =
        failures ++ r.failuresOf out (t :: tiers) := by
      simp [failuresOf, hfail]
    rw [hfailures]
    exact .exhausted (List.forall_mem_cons.2 ⟨hgoes, hpassed⟩)

theorem Walked.reached_prefix (h : r.Walked key out tiers failures reached result copies) :
    reached <+: tiers := by
  cases h with
  | found passed t v copies hsplit _ _ _ => exact hsplit
  | failed passed t source hsplit _ _ _ => exact hsplit
  | exhausted _ => exact List.prefix_refl _

/-- The answer of a tier above can be added to those of the tiers below. -/
theorem Walked.answer (h : r.Walked key out tiers failures reached result copies) {t : Fin n}
    (ht : t ∉ tiers) (a : Except E (Option V)) :
    r.Walked key (Function.update out t a) tiers failures reached result copies ∧
      reached.map (fun u => (⟨(u, .get key), Function.update out t a u⟩ : Event n K V E)) =
        reached.map fun u => ⟨(u, .get key), out u⟩ := by
  have hsame : ∀ u ∈ tiers, out u = Function.update out t a u := by
    intro u hu
    rw [Function.update_of_ne]
    rintro rfl
    exact ht hu
  refine ⟨h.congr hsame, List.map_congr_left fun u hu => ?_⟩
  rw [← hsame u (h.reached_prefix.subset hu)]

theorem trace_readDown {log : List (Event n K V E)} (hnd : tiers.Nodup)
    (h : (r.readDown key tiers failures).Trace log result) :
    ∃ out reached copies, r.Walked key out tiers failures reached result copies ∧
      log = reached.map (fun t => ⟨(t, .get key), out t⟩) ++ copies := by
  induction tiers generalizing failures log with
  | nil =>
    obtain ⟨rfl, rfl⟩ := h
    have hdone : r.Walked (K := K) key (fun _ => .ok none) [] failures [] _ [] :=
      .exhausted (V := V) (by simp)
    refine ⟨fun _ => .ok none, [], [], ?_, rfl⟩
    simpa [failuresOf] using hdone
  | cons t below ih =>
    obtain ⟨hnew, hnd⟩ := List.nodup_cons.1 hnd
    obtain ⟨a, rest, rfl, hrest⟩ := h
    cases a with
    | ok answer =>
      cases answer with
      | some v =>
        change ((r.hitTargets t).forM (fun target => r.promoteOne target key (some v)) >>=
          fun _ => pure (.ok (some v)) : RouterM n K V E _).Trace rest result at hrest
        obtain ⟨_, copies, _, rfl, hcopies, rfl, rfl⟩ := Program.trace_bind.1 hrest
        refine ⟨fun _ => .ok (some v), [t], copies, ?_, by simp⟩
        exact .found [] t v copies (by simp) (by simp) rfl (trace_copies hcopies)
      | none =>
        obtain ⟨out, reached, copies, hwalk, rfl⟩ := ih hnd hrest
        obtain ⟨hwalk, hmap⟩ := hwalk.answer hnew (.ok none)
        refine ⟨_, t :: reached, copies, hwalk.miss (Function.update_self t _ out), ?_⟩
        rw [List.map_cons, hmap, Function.update_self]
        rfl
    | error source =>
      cases hfail : r.policy.read.onError with
      | failFast =>
        rw [hfail] at hrest
        obtain ⟨rfl, rfl⟩ := hrest
        refine ⟨fun _ => .error source, [t], [], ?_, by simp⟩
        exact .failed [] t source (by simp) (by simp) rfl hfail
      | fallThrough =>
        rw [hfail] at hrest
        obtain ⟨out, reached, copies, hwalk, rfl⟩ := ih hnd hrest
        obtain ⟨hwalk, hmap⟩ := hwalk.answer hnew (.error source)
        refine ⟨_, t :: reached, copies, hwalk.fall (Function.update_self t _ out) hfail, ?_⟩
        rw [List.map_cons, hmap, Function.update_self]
        rfl

/-! ## The whole read -/

theorem not_value_of_passed {a : Except E (Option V)} (h : ¬ r.Ends a) (v : V) :
    a ≠ .ok (some v) := by
  rintro rfl
  exact h trivial

theorem not_error_of_passed {a : Except E (Option V)} (h : ¬ r.Ends a)
    (hfast : r.policy.read.onError = .failFast) (source : E) : a ≠ .error source := by
  rintro rfl
  exact h hfast

theorem failuresOf_eq_nil {α : Type} {out : Fin n → Except E α} {tiers : List (Fin n)} :
    r.failuresOf out tiers = [] ↔ ∀ t ∈ tiers, ∃ a, out t = .ok a := by
  rw [failuresOf, List.filterMap_eq_nil_iff]
  refine forall₂_congr fun t _ => ?_
  cases out t <;> simp

section Honest
variable {out : Fin n → Except E (Option V)} {passed : List (Fin n)} {t : Fin n}
  {log copies : List (Event n K V E)}

/-- Only the last tier that is reached can end the walk. -/
theorem eq_last_of_ends (hpassed : ∀ u ∈ passed, ¬ r.Ends (out u)) {u : Fin n}
    (hu : u ∈ passed ++ [t]) (hends : r.Ends (out u)) : u = t := by
  obtain hu | hu := List.mem_append.1 hu
  · exact absurd hends (hpassed u hu)
  · exact List.mem_singleton.1 hu

theorem honest_found {v : V} (hsplit : passed ++ [t] <+: List.finRange n)
    (hpassed : ∀ u ∈ passed, ¬ r.Ends (out u)) (hout : out t = .ok (some v))
    (hcopies : r.CopiesTo key v (r.hitTargets t) copies)
    (hlog : log = (passed ++ [t]).map (fun t => ⟨(t, .get key), out t⟩) ++ copies) :
    r.HonestRead key log (some (.ok (some v))) out (passed ++ [t]) copies := by
  have hvalue : ∀ u ∈ passed ++ [t], ∀ w, out u = .ok (some w) → u = t ∧ w = v := by
    intro u hu w hw
    obtain rfl := eq_last_of_ends hpassed hu (by rw [hw]; trivial)
    rw [hout] at hw
    cases hw
    exact ⟨rfl, rfl⟩
  refine ⟨hsplit, hlog, ?_, Or.inr ⟨t, by simp, by simp [hout, Ends]⟩, fun w => ⟨?_, ?_⟩, ?_,
    fun fs => ?_, fun f => ?_, Or.inl ⟨_, rfl⟩, fun u hu w hw => ?_, fun hno => ?_⟩
  · simpa using hpassed
  · intro hw
    cases hw
    exact ⟨t, by simp, hout⟩
  · rintro ⟨u, hu, hw⟩
    rw [(hvalue u hu w hw).2]
  · refine ⟨fun hw => (by cases hw), fun hw => ?_⟩
    rw [hw.2 t] at hout
    cases hout
  · exact ⟨fun hw => (by cases hw), fun hw => absurd hout (hw.2.2.1 t v)⟩
  · refine ⟨fun hw => (by cases hw), ?_⟩
    rintro ⟨hfast, u, hu, source, hfail, -⟩
    obtain rfl := eq_last_of_ends hpassed hu (by rw [hfail]; exact hfast)
    rw [hout] at hfail
    cases hfail
  · obtain ⟨rfl, rfl⟩ := hvalue u hu w hw
    exact hcopies
  · exact absurd hout (hno t (by simp) v)

theorem honest_failed {source : E} (hsplit : passed ++ [t] <+: List.finRange n)
    (hpassed : ∀ u ∈ passed, ¬ r.Ends (out u)) (hout : out t = .error source)
    (hfast : r.policy.read.onError = .failFast)
    (hlog : log = (passed ++ [t]).map (fun t => ⟨(t, .get key), out t⟩)) :
    r.HonestRead key log (some (.error (.tier (r.failure t source)))) out (passed ++ [t]) [] := by
  have hnone : ∀ u ∈ passed ++ [t], ∀ w, out u ≠ .ok (some w) := by
    intro u hu w hw
    obtain rfl := eq_last_of_ends hpassed hu (by rw [hw]; trivial)
    rw [hout] at hw
    cases hw
  refine ⟨hsplit, by rw [hlog, List.append_nil], ?_,
    Or.inr ⟨t, by simp, by simp [hout, Ends, hfast]⟩, fun w => ⟨?_, ?_⟩, ?_, fun fs => ?_,
    fun f => ⟨?_, ?_⟩, Or.inr (Or.inr ⟨_, rfl⟩), fun u hu w hw => ?_, fun _ => rfl⟩
  · simpa using hpassed
  · intro hw
    cases hw
  · rintro ⟨u, hu, hw⟩
    exact absurd hw (hnone u hu w)
  · refine ⟨fun hw => (by cases hw), fun hw => ?_⟩
    rw [hw.2 t] at hout
    cases hout
  · refine ⟨fun hw => (by cases hw), fun hw => ?_⟩
    rw [hfast] at hw
    cases hw.1
  · intro hw
    cases hw
    exact ⟨hfast, t, by simp, source, hout, rfl⟩
  · rintro ⟨-, u, hu, source', hfail, rfl⟩
    obtain rfl := eq_last_of_ends hpassed hu (by rw [hfail]; exact hfast)
    rw [hout] at hfail
    cases hfail
    rfl
  · exact absurd hw (hnone u hu w)

theorem honest_exhausted (hpassed : ∀ u ∈ List.finRange n, ¬ r.Ends (out u))
    (hlog : log = (List.finRange n).map fun t => ⟨(t, .get key), out t⟩) :
    r.HonestRead key log
      (some (Router.exhausted none (r.failuresOf out (List.finRange n)))) out
      (List.finRange n) [] := by
  have hnone (u : Fin n) (w : V) : out u ≠ .ok (some w) :=
    not_value_of_passed (hpassed u (List.mem_finRange u)) w
  have hcases : Router.exhausted (E := E) (none : Option V)
      (r.failuresOf out (List.finRange n)) =
      if r.failuresOf out (List.finRange n) = [] then .ok none
      else .error (.inconclusive (r.failuresOf out (List.finRange n))) := rfl
  rw [hcases]
  refine ⟨List.prefix_refl _, by rw [hlog, List.append_nil],
    fun u hu => hpassed u (List.mem_finRange u), Or.inl rfl, fun w => ⟨?_, ?_⟩, ?_, fun fs => ?_,
    fun f => ⟨?_, ?_⟩, ?_, fun u _ w hw => ?_, fun _ => rfl⟩
  · split <;> exact fun hw => (by cases hw)
  · rintro ⟨u, -, hw⟩
    exact absurd hw (hnone u w)
  · constructor
    · intro hw
      split at hw
      · next hnil =>
        refine ⟨rfl, fun u => ?_⟩
        obtain ⟨a, ha⟩ := failuresOf_eq_nil.1 hnil u (List.mem_finRange u)
        cases a with
        | none => exact ha
        | some w => exact absurd ha (hnone u w)
      · cases hw
    · rintro ⟨-, hw⟩
      rw [if_pos (failuresOf_eq_nil.2 fun u _ => ⟨none, hw u⟩)]
  · constructor
    · intro hw
      split at hw
      · cases hw
      · next hsome =>
        cases hw
        refine ⟨?_, rfl, hnone, hsome, rfl⟩
        cases hfast : r.policy.read.onError with
        | fallThrough => rfl
        | failFast =>
          refine absurd (failuresOf_eq_nil.2 fun u hu => ?_) hsome
          cases hout : out u with
          | ok a => exact ⟨a, rfl⟩
          | error source => exact absurd hout (not_error_of_passed (hpassed u hu) hfast source)
    · rintro ⟨-, -, -, hsome, rfl⟩
      rw [if_neg hsome]
  · split <;> exact fun hw => (by cases hw)
  · rintro ⟨hfast, u, -, source, hfail, -⟩
    exact absurd hfail (not_error_of_passed (hpassed u (List.mem_finRange u)) hfast source)
  · split
    · exact Or.inl ⟨_, rfl⟩
    · exact Or.inr (Or.inl ⟨_, rfl⟩)
  · exact absurd hw (hnone u w)

theorem Walked.honest {reached : List (Fin n)} {result : Except (RouterError E) (Option V)}
    (h : r.Walked key out (List.finRange n) [] reached result copies)
    (hlog : log = reached.map (fun t => ⟨(t, .get key), out t⟩) ++ copies) :
    r.HonestRead key log (some result) out reached copies := by
  cases h with
  | found passed t v copies hsplit hpassed hout hcopies =>
    exact honest_found hsplit hpassed hout hcopies hlog
  | failed passed t source hsplit hpassed hout hfast =>
    exact honest_failed hsplit hpassed hout hfast (hlog.trans (List.append_nil _))
  | exhausted hpassed => exact honest_exhausted hpassed (hlog.trans (List.append_nil _))

end Honest

/-- Two walks whose gets are answered alike end alike, whatever becomes of the copies. -/
theorem readDown_agree {r' : Router n} (hname : r'.name = r.name)
    (hpolicy : r'.policy.read.onError = r.policy.read.onError) {tiers : List (Fin n)}
    {failures : List (TierFailure E)} {log log' : List (Event n K V E)}
    {result result' : Except (RouterError E) (Option V)}
    (h : (r.readDown key tiers failures).Trace log result)
    (h' : (r'.readDown key tiers failures).Trace log' result')
    (hsame : ∀ t a a', ⟨(t, .get key), a⟩ ∈ log → ⟨(t, .get key), a'⟩ ∈ log' → a = a') :
    result' = result := by
  have hfailure (t : Fin n) (source : E) : r'.failure t source = r.failure t source := by
    rw [failure, failure, hname]
  induction tiers generalizing failures log log' with
  | nil =>
    obtain ⟨-, rfl⟩ := h
    obtain ⟨-, rfl⟩ := h'
    rfl
  | cons t below ih =>
    obtain ⟨a, rest, rfl, hrest⟩ := h
    obtain ⟨a', rest', rfl, hrest'⟩ := h'
    obtain rfl : a = a' := hsame t a a' (by simp) (by simp)
    have hlater : ∀ t a a', ⟨(t, .get key), a⟩ ∈ rest → ⟨(t, .get key), a'⟩ ∈ rest' → a = a' :=
      fun u b b' hb hb' => hsame u b b' (List.mem_cons_of_mem _ hb) (List.mem_cons_of_mem _ hb')
    cases a with
    | ok answer =>
      cases answer with
      | some v =>
        obtain ⟨_, _, _, -, -, -, rfl⟩ := Program.trace_bind.1
          (show ((r.hitTargets t).forM (fun target => r.promoteOne target key (some v)) >>=
            fun _ => pure (.ok (some v)) : RouterM n K V E _).Trace rest result from hrest)
        obtain ⟨_, _, _, -, -, -, rfl⟩ := Program.trace_bind.1
          (show ((r'.hitTargets t).forM (fun target => r'.promoteOne target key (some v)) >>=
            fun _ => pure (.ok (some v)) : RouterM n K V E _).Trace rest' result' from hrest')
        rfl
      | none => exact ih hrest hrest' hlater
    | error source =>
      rw [hpolicy] at hrest'
      cases hfail : r.policy.read.onError with
      | failFast =>
        rw [hfail] at hrest hrest'
        rw [hrest.2, hrest'.2, hfailure]
      | fallThrough =>
        rw [hfail] at hrest hrest'
        have hnext : (r'.readDown key below (failures ++ [r'.failure t source])).Trace rest'
          result' := hrest'
        rw [hfailure] at hnext
        exact ih hrest hnext hlater

/-- Misses are honest and promotion is harmless: what a single-key read asks and returns, for
every answer of every call; and its result depends on the answers of the gets alone. -/
theorem get_is_honest (r : Router n) (key : K) {log : List (Event n K V E)}
    {result : Option (Except (RouterError E) (Option V))}
    (h : (r.get key).Trace log result) :
    (∃ out reached copies, r.HonestRead key log result out reached copies) ∧
      ∀ (r' : Router n) log' result', (r'.get key).Trace log' result' → r'.name = r.name →
        r'.policy.read.onError = r.policy.read.onError →
        (∀ t a a', ⟨(t, .get key), a⟩ ∈ log → ⟨(t, .get key), a'⟩ ∈ log' → a = a') →
        result' = result := by
  rw [get_eq] at h
  obtain ⟨answer, hread, rfl⟩ := Program.trace_map.1 h
  refine ⟨?_, fun r' log' result' h' hname hpolicy hsame => ?_⟩
  · obtain ⟨out, reached, copies, hwalk, hlog⟩ := trace_readDown (List.nodup_finRange n) hread
    exact ⟨out, reached, copies, hwalk.honest hlog⟩
  · rw [get_eq] at h'
    obtain ⟨answer', hread', rfl⟩ := Program.trace_map.1 h'
    rw [readDown_agree hname hpolicy hread hread' hsame]

def copying : Router 2 :=
  .uniform 2 "memory" { Policy.default with read := ⟨.allAbove, .fallThrough⟩ }

theorem get_is_honest_below :
    ∃ out reached copies, copying.HonestRead (E := String) 1
      [⟨(0, .get 1), .ok none⟩, ⟨(1, .get 1), .ok (some 5)⟩, ⟨(0, .put 1 5), .ok []⟩]
      (some (.ok (some 5))) out reached copies := by
  have h : (copying.get (E := String) 1).Trace
      [⟨(0, .get 1), .ok none⟩, ⟨(1, .get 1), .ok (some 5)⟩, ⟨(0, .put 1 5), .ok []⟩]
      (some (.ok (some 5))) :=
    ⟨.ok none, _, rfl, .ok (some 5), _, rfl, .ok [], _, rfl, rfl, rfl⟩
  exact (get_is_honest copying 1 h).1

end Router
end Tierstore
