import Tierstore.Load

/-! Concurrent loads of one key are coalesced: the calls on a cache move the copies of the key
as `Column` says. -/
namespace Tierstore
open Overlay Effects

namespace TieredCache
variable {n : Nat} {T K V L : Type} {ι : Type} [DecidableEq ι] [DecidableEq K]
  [Tier T K V Infallible] [LawfulTier T] {U : T → Prop} {k : K}

/-! ## What a query does to the copies of `k` -/
section Exec
variable {s s' : Shared T K n} {t : Fin n}

omit [DecidableEq ι] in
theorem exec_get {a : Except Infallible (Option V)}
    (h : exec (E := Infallible) (.tier (t, .get k)) s = some (a, s')) :
    a = .ok (s.stack.held t k) ∧ s'.stack.held = s.stack.held := by
  simp only [exec, Option.some.injEq, Prod.mk.injEq] at h
  obtain ⟨rfl, rfl⟩ := h
  refine ⟨?_, Stack.held_exec_read (LawfulTier.get_contents _ _)⟩
  rw [Stack.exec_answer]
  change (Tier.get (s.stack t).tier k).1 = _
  cases hres : (Tier.get (s.stack t).tier k).1 with
  | error e => exact e.elim
  | ok found =>
    rw [LawfulTier.get_ok _ _ found hres]
    rfl

omit [DecidableEq ι] in
/-- The calls on other keys leave the copies of `k`. -/
theorem exec_elsewhere (hU : Keeping U) {q : CacheQuery n K V}
    (hq : Elsewhere (L := L) k (.cache q)) {a : CacheAnswer n K V Infallible q}
    (h : exec q s = some (a, s')) (hs : ∀ t, U (s.stack t).tier) (j : Fin n) :
    s'.stack.held j k = s.stack.held j k := by
  cases q with
  | acquire key => rw [exec_gate h fun _ _ heq => by cases heq]
  | release key => rw [exec_gate h fun _ _ heq => by cases heq]
  | tier q =>
    obtain ⟨t, c⟩ := q
    by_cases hj : j = t
    · subst hj
      have heq : s'.stack.held j = contents (Tier.call (s.stack j).tier c).2 := by
        simp only [exec, Option.some.injEq, Prod.mk.injEq] at h
        rw [← h.2]
        exact Stack.held_exec (j, c) s.stack
      rw [heq]
      change _ = contents (s.stack j).tier k
      cases c with
      | get key => exact congrFun (LawfulTier.get_contents (s.stack j).tier key) k
      | getMany keys => exact congrFun (LawfulTier.getMany_contents (s.stack j).tier keys) k
      | put key v =>
        have hkey : key ≠ k := hq
        change contents (Tier.put (s.stack j).tier key v).2 k = _
        cases hres : (Tier.put (s.stack j).tier key v).1 with
        | error e => exact e.elim
        | ok d =>
          have hput := LawfulTier.put_ok (s.stack j).tier key v d hres
          rw [hU.put _ key v d (hs j) hres, latest_nil, atop_empty] at hput
          rw [hput, write_singleton, if_neg (Ne.symm hkey)]
      | putMany entries =>
        rw [← heq, (exec_putMany hU h hs).1]
        change write (s.stack.held j) entries k = s.stack.held j k
        have hnot : k ∉ entries.map Prod.fst := by
          intro hmem
          obtain ⟨e, he, hek⟩ := List.mem_map.1 hmem
          exact hq e he hek
        rw [write_of_notMem hnot]
      | delete key =>
        have hkey : key ≠ k := hq
        change contents (Tier.delete (s.stack j).tier key).2 k = _
        cases hres : (Tier.delete (s.stack j).tier key).1 with
        | error e => exact e.elim
        | ok b =>
          rw [LawfulTier.delete_ok _ key b hres]
          simp [erase, Ne.symm hkey]
      | exists_ key => exact hq.elim
      | deleteMany keys => exact hq.elim
    · rw [Stack.held_congr (exec_of_ne h fun x c' heq => ?_)]
      cases heq
      exact Ne.symm hj

end Exec

/-! ## The calls move a column -/

variable {calls : ι → LoadCall K V L}

def column (k : K) (c : LoadPool n T K V Infallible L calls) (memory : ι → Memory n V)
    (gate : Option ι) : Column ι n V where
  copies t := c.shared.stack.held t k
  gate := gate
  calls i := (memory i).toProgress
  loaded := loads k c.log

/-- The calls keep to their memories, and the gate of `k` is whose memory says so. -/
structure Coalescing (U : T → Prop) (k : K) (c : LoadPool n T K V Infallible L calls)
    (memory : ι → Memory n V) (gate : Option ι) : Prop where
  goes : ∀ i, Goes k (Fine k (calls i)) (c.threads i) (memory i)
  kept : ∀ t, U (c.shared.stack t).tier
  holder : ∀ i, (memory i).gate = true ↔ gate = some i
  locked : gate ≠ none → k ∈ c.shared.gates

section Step
variable {c : LoadPool n T K V Infallible L calls} {memory : ι → Memory n V} {gate : Option ι}
  {i : ι}

theorem execLoad_kept (hU : Keeping U) {q : LoadQuery n K V L} {s s' : Shared T K n}
    {a : LoadAnswer n K V Infallible L q} (h : execLoad q s = some (a, s'))
    (hs : ∀ t, U (s.stack t).tier) : LoadReply q a ∧ ∀ t, U (s'.stack t).tier := by
  cases q with
  | cache q => exact exec_kept hU h hs
  | load key result =>
    cases h
    exact ⟨rfl, hs⟩

/-- One call moves on, and its memory with it. -/
theorem Coalescing.answered (hU : Keeping U) (hc : Coalescing U k c memory gate)
    {q : LoadQuery n K V L} {next : LoadAnswer n K V Infallible L q → LoadM n K V Infallible L _}
    (hthread : c.threads i = .call q next) {a : LoadAnswer n K V Infallible L q}
    {s : Shared T K n} (hexec : execLoad q c.shared = some (a, s)) {gate' : Option ι}
    (hgate : ∀ j, (Function.update memory i (remember k (memory i) q a) j).gate = true ↔
      gate' = some j) (hlocked : gate' ≠ none → k ∈ s.gates) :
    Coalescing U k { shared := s, threads := Function.update c.threads i (next a),
                     log := (i, q) :: c.log }
      (Function.update memory i (remember k (memory i) q a)) gate' := by
  obtain ⟨hreply, hkept⟩ := execLoad_kept hU hexec hc.kept
  refine ⟨fun j => ?_, hkept, hgate, hlocked⟩
  exact Pool.follows_step hc.goes hthread hreply j

omit [Tier T K V Infallible] [LawfulTier T] in
theorem gate_same (hc : Coalescing U k c memory gate) {m : Memory n V}
    (hm : m.gate = (memory i).gate) (j : ι) :
    (Function.update memory i m j).gate = true ↔ gate = some j := by
  by_cases hj : j = i
  · subst hj
    rw [Function.update_self, hm]
    exact hc.holder j
  · rw [Function.update_of_ne hj]
    exact hc.holder j

omit [DecidableEq ι] [LawfulTier T] in
theorem gates_elsewhere {q : LoadQuery n K V L} (hq : Elsewhere k q) {s s' : Shared T K n}
    {a : LoadAnswer n K V Infallible L q} (h : execLoad q s = some (a, s')) (hk : k ∈ s.gates) :
    k ∈ s'.gates := by
  cases q with
  | load key result =>
    cases h
    exact hk
  | cache q =>
    cases q with
    | tier q =>
      cases h
      exact hk
    | acquire key =>
      simp only [execLoad, exec] at h
      split at h
      · cases h
      · cases h
        exact List.mem_cons_of_mem key hk
    | release key =>
      have hkey : key ≠ k := hq
      cases h
      exact (List.mem_erase_of_ne (Ne.symm hkey)).2 hk

omit [DecidableEq ι] [LawfulTier T] [Tier T K V Infallible] in
theorem loads_elsewhere {q : LoadQuery n K V L} (hq : Elsewhere k q)
    (log : List (ι × LoadQuery n K V L)) : loads k ((i, q) :: log) = loads k log := by
  cases q with
  | cache q => rfl
  | load key result =>
    have hkey : key ≠ k := hq
    cases result with
    | error e => rfl
    | ok v => simp [loads, hkey]

/-- The column after a step of the call `i` that leaves its memory at `m`. -/
theorem column_answered (gate : Option ι) {s : Shared T K n} {q : LoadQuery n K V L}
    {threads : (i : ι) → LoadM n K V Infallible L ((calls i).Output Infallible)}
    {copies : Fin n → Option V} (hcopies : ∀ t, s.stack.held t k = copies t) (m : Memory n V)
    (gate' : Option ι) {loaded : List (ι × V)} (hloaded : loads k ((i, q) :: c.log) = loaded) :
    column k { shared := s, threads, log := (i, q) :: c.log } (Function.update memory i m) gate' =
      { copies, gate := gate', calls := (column k c memory gate).sets i m.toProgress, loaded } := by
  simp only [column, Column.mk.injEq, hloaded, true_and, and_true]
  refine ⟨funext hcopies, funext fun j => ?_⟩
  by_cases hj : j = i
  · simp [Column.sets, hj]
  · simp [Column.sets, hj]

theorem sets_same {m : Memory n V} (hm : m.toProgress = (memory i).toProgress) :
    (column k c memory gate).sets i m.toProgress = (column k c memory gate).calls :=
  Function.update_eq_self_iff.2 hm

theorem column_same :
    { copies := fun t => c.shared.stack.held t k, gate := gate,
      calls := (column k c memory gate).sets i (memory i).toProgress,
      loaded := loads k c.log } = column k c memory gate := by
  rw [sets_same rfl]
  rfl

omit [DecidableEq ι] [LawfulTier T] in
theorem gates_tier {q : Query n K V} {s s' : Shared T K n} {a : Answer n K V Infallible q}
    (h : exec (.tier q) s = some (a, s')) : s'.gates = s.gates := by
  cases h
  rfl

theorem column_probed {t : Fin n} (found : Option V) (hprobes : (memory i).Probes t)
    (hfound : c.shared.stack.held t k = found) :
    Column.Step (column k c memory gate) { column k c memory gate with
      calls := (column k c memory gate).sets i (probed (memory i) t found).toProgress } := by
  cases found with
  | some v => exact .hit i t v hprobes hfound
  | none => exact .miss i t hprobes hfound

omit [DecidableEq ι] [DecidableEq K] [LawfulTier T] [Tier T K V Infallible] in
theorem gate_probed (m : Memory n V) (t : Fin n) (found : Option V) :
    (probed m t found).gate = m.gate := by
  cases found <;> rfl

/-- From one pool to the next the calls keep to their memories, and the column moves or stays. -/
def Advances (U : T → Prop) (k : K) (c : LoadPool n T K V Infallible L calls)
    (memory : ι → Memory n V) (gate : Option ι) (c' : LoadPool n T K V Infallible L calls) : Prop :=
  ∃ memory' gate', Coalescing U k c' memory' gate' ∧
    (column k c' memory' gate' = column k c memory gate ∨
      Column.Step (column k c memory gate) (column k c' memory' gate'))

variable {q : LoadQuery n K V L}
  {next : LoadAnswer n K V Infallible L q → LoadM n K V Infallible L ((calls i).Output Infallible)}
  {a : LoadAnswer n K V Infallible L q} {s : Shared T K n}

theorem advances_load (hU : Keeping U) (hc : Coalescing U k c memory gate) {result : Except L V}
    {next : LoadAnswer n K V Infallible L (.load k result) →
      LoadM n K V Infallible L ((calls i).Output Infallible)}
    (hthread : c.threads i = .call (.load k result) next)
    (hkeeps : (memory i).gate = true ∧ (memory i).depth = n ∧ (memory i).filled = none) :
    Advances U k c memory gate
      { shared := c.shared, threads := Function.update c.threads i (next result),
        log := (i, .load k result) :: c.log } := by
  obtain ⟨hgate, hdepth, hfilled⟩ := hkeeps
  cases result with
  | error e =>
    refine ⟨_, gate, hc.answered hU hthread rfl (gate_same hc rfl) hc.locked, Or.inl ?_⟩
    rw [column_answered gate (fun _ => rfl) _ gate rfl]
    exact column_same
  | ok v =>
    have hremember : remember k (memory i) (.load k (.ok v : Except L V)) (.ok v) =
        { memory i with filled := some (v, []) } := by simp [remember]
    have hloaded : loads k ((i, LoadQuery.load k (.ok v)) :: c.log) = (i, v) :: loads k c.log := by
      simp [loads]
    refine ⟨_, gate, hc.answered hU hthread rfl (gate_same hc (by rw [hremember])) hc.locked,
      Or.inr ?_⟩
    rw [column_answered gate (fun _ => rfl) _ gate hloaded, hremember]
    exact .load i v ((hc.holder i).1 hgate) hdepth hfilled

theorem advances_acquire (hU : Keeping U) (hc : Coalescing U k c memory gate)
    {next : LoadAnswer n K V Infallible L (.cache (.acquire k)) →
      LoadM n K V Infallible L ((calls i).Output Infallible)}
    (hthread : c.threads i = .call (.cache (.acquire k)) next) (hfree : k ∉ c.shared.gates) :
    Advances U k c memory gate
      { shared := { c.shared with gates := k :: c.shared.gates },
        threads := Function.update c.threads i (next ()),
        log := (i, .cache (.acquire k)) :: c.log } := by
  have hremember : remember (L := L) k (memory i) (.cache (.acquire k)) () =
      { memory i with gate := true, depth := 0 } := by simp [remember]
  have hnone : gate = none := by
    by_contra hne
    exact hfree (hc.locked hne)
  refine ⟨_, some i, hc.answered hU hthread (by simp [execLoad, exec, hfree]) (fun j => ?_)
    (fun _ => by simp), Or.inr ?_⟩
  · rw [hremember]
    by_cases hj : j = i
    · simp [hj]
    · simp [hj, Ne.symm hj, hc.holder j, hnone]
  · rw [column_answered gate (fun _ => rfl) _ (some i) rfl, hremember]
    exact .enter i hnone

theorem advances_release (hU : Keeping U) (hc : Coalescing U k c memory gate)
    {next : LoadAnswer n K V Infallible L (.cache (.release k)) →
      LoadM n K V Infallible L ((calls i).Output Infallible)}
    (hthread : c.threads i = .call (.cache (.release k)) next) (hgate : (memory i).gate = true)
    (hfull : ∀ v ts, (memory i).filled = some (v, ts) → ∀ t, t ∈ ts) :
    Advances U k c memory gate
      { shared := { c.shared with gates := c.shared.gates.erase k },
        threads := Function.update c.threads i (next ()),
        log := (i, .cache (.release k)) :: c.log } := by
  have hremember : remember (L := L) k (memory i) (.cache (.release k)) () =
      { memory i with gate := false } := by simp [remember]
  have hholder := (hc.holder i).1 hgate
  refine ⟨_, none, hc.answered hU hthread rfl (fun j => ?_) (fun hne => absurd rfl hne),
    Or.inr ?_⟩
  · rw [hremember]
    by_cases hj : j = i
    · simp [hj]
    · simp [hj, hc.holder j, hholder, Ne.symm hj]
  · rw [column_answered gate (fun _ => rfl) _ none rfl, hremember, sets_same rfl]
    exact .leave i hholder hfull

/-- A call on a tier leaves the gates. -/
theorem Coalescing.tier (hU : Keeping U) (hc : Coalescing U k c memory gate) {q : Query n K V}
    {next : LoadAnswer n K V Infallible L (.cache (.tier q)) →
      LoadM n K V Infallible L ((calls i).Output Infallible)}
    (hthread : c.threads i = .call (.cache (.tier q)) next)
    {a : LoadAnswer n K V Infallible L (.cache (.tier q))}
    (hexec : execLoad (.cache (.tier q)) c.shared = some (a, s)) {m : Memory n V}
    (hremember : remember k (memory i) (.cache (.tier q) : LoadQuery n K V L) a = m)
    (hgate : m.gate = (memory i).gate) :
    Coalescing U k { shared := s, threads := Function.update c.threads i (next a),
                     log := (i, .cache (.tier q)) :: c.log }
      (Function.update memory i m) gate := by
  subst hremember
  exact hc.answered hU hthread hexec (gate_same hc hgate)
    fun hne => (gates_tier hexec).symm ▸ hc.locked hne

theorem advances_tier (hU : Keeping U) (hc : Coalescing U k c memory gate) {q : Query n K V}
    {next : LoadAnswer n K V Infallible L (.cache (.tier q)) →
      LoadM n K V Infallible L ((calls i).Output Infallible)}
    (hthread : c.threads i = .call (.cache (.tier q)) next)
    {a : LoadAnswer n K V Infallible L (.cache (.tier q))}
    (hexec : execLoad (.cache (.tier q)) c.shared = some (a, s))
    (hkeeps : Keeps k (memory i) (.cache (.tier q) : LoadQuery n K V L)) :
    Advances U k c memory gate
      { shared := s, threads := Function.update c.threads i (next a),
        log := (i, .cache (.tier q)) :: c.log } := by
  obtain ⟨t, call⟩ := q
  cases call with
  | get key =>
    obtain ⟨rfl, hprobes⟩ := hkeeps
    obtain ⟨rfl, hheld⟩ := exec_get hexec
    have hremember : remember (L := L) key (memory i) (.cache (.tier (t, .get key)))
        (.ok (c.shared.stack.held t key)) =
          probed (memory i) t (c.shared.stack.held t key) := by simp [remember]
    refine ⟨_, gate, hc.tier hU hthread hexec hremember (gate_probed _ _ _), Or.inr ?_⟩
    rw [column_answered gate (fun j => by rw [hheld]) _ gate rfl]
    exact column_probed _ hprobes rfl
  | getMany keys =>
    obtain ⟨rfl, hprobes⟩ := hkeeps
    obtain ⟨rfl, hheld⟩ := exec_getMany hexec
    have hremember : remember (L := L) k (memory i) (.cache (.tier (t, .getMany [k])))
        (.ok [c.shared.stack.held t k]) =
          probed (memory i) t (c.shared.stack.held t k) := by simp [remember]
    refine ⟨_, gate, hc.tier hU hthread hexec hremember (gate_probed _ _ _), Or.inr ?_⟩
    rw [column_answered gate (fun j => by rw [hheld]) _ gate rfl]
    exact column_probed _ hprobes rfl
  | put key v =>
    obtain ⟨rfl, hhas⟩ := hkeeps
    obtain ⟨hheld, hothers⟩ := exec_put hU hexec hc.kept
    have hremember : remember (L := L) key (memory i) (.cache (.tier (t, .put key v))) a =
        { memory i with toProgress := (memory i).fill t } := by simp [remember]
    have hcopies : ∀ j, s.stack.held j key =
        Function.update (fun j => c.shared.stack.held j key) t (some v) j := by
      intro j
      by_cases hj : j = t
      · simp [hj, hheld]
      · simp [hj, hothers j hj]
    refine ⟨_, gate, hc.tier hU hthread hexec hremember rfl, Or.inr ?_⟩
    rw [column_answered gate hcopies _ gate rfl]
    exact .write i t v hhas
  | putMany entries =>
    obtain ⟨hheld, hothers⟩ := exec_putMany hU hexec hc.kept
    have hremember : remember (L := L) k (memory i) (.cache (.tier (t, .putMany entries))) a =
        memory i := rfl
    refine ⟨_, gate, hc.tier hU hthread hexec hremember rfl, ?_⟩
    cases hlatest : latest entries k with
    | none =>
      have hcopies : ∀ j, s.stack.held j k = c.shared.stack.held j k := by
        intro j
        by_cases hj : j = t
        · rw [hj, hheld]
          exact atop_of_none hlatest _
        · rw [hothers j hj]
      rw [column_answered gate hcopies _ gate rfl]
      exact Or.inl column_same
    | some v =>
      have hcopies : ∀ j, s.stack.held j k =
          Function.update (fun j => c.shared.stack.held j k) t (some v) j := by
        intro j
        by_cases hj : j = t
        · rw [hj, hheld, Function.update_self]
          exact atop_of_some hlatest _
        · rw [hothers j hj, Function.update_of_ne hj]
      rw [column_answered gate hcopies _ gate rfl, sets_same rfl]
      exact Or.inr (.promote i t v (hkeeps _ (latest_mem hlatest)).2)
  | exists_ key => exact hkeeps.elim
  | delete key => exact hkeeps.elim
  | deleteMany keys => exact hkeeps.elim

/-- A query of a call on another key. -/
theorem advances_elsewhere (hU : Keeping U) (hc : Coalescing U k c memory gate)
    (hthread : c.threads i = .call q next) (hexec : execLoad q c.shared = some (a, s))
    (helse : Elsewhere k q) :
    Advances U k c memory gate
      { shared := s, threads := Function.update c.threads i (next a), log := (i, q) :: c.log } := by
  have hremember : remember k (memory i) q a = memory i := remember_elsewhere helse a
  have hcopies : ∀ t, s.stack.held t k = c.shared.stack.held t k := by
    cases q with
    | load key result =>
      cases hexec
      exact fun _ => rfl
    | cache q => exact exec_elsewhere (L := L) hU helse hexec hc.kept
  refine ⟨_, gate, hc.answered hU hthread hexec (gate_same hc (by rw [hremember]))
    (fun hne => gates_elsewhere helse hexec (hc.locked hne)), Or.inl ?_⟩
  rw [column_answered gate hcopies _ gate (loads_elsewhere helse c.log), hremember]
  exact column_same

/-- A step of the pool moves the column, or leaves it. -/
theorem column_step (hU : Keeping U) (hc : Coalescing U k c memory gate) (i : ι) :
    Advances U k c memory gate (Pool.step execLoad c i) := by
  obtain hsame | ⟨q, next, a, s, hthread, hexec, heq⟩ := Pool.step_cases execLoad c i
  · rw [hsame]
    exact ⟨memory, gate, hc, Or.inl rfl⟩
  rw [heq]
  have hgoes := hc.goes i
  rw [hthread] at hgoes
  obtain hkeeps | helse := hgoes.1
  · cases q with
    | load key result =>
      obtain ⟨rfl, hkeeps⟩ := hkeeps
      cases hexec
      exact advances_load hU hc hthread hkeeps
    | cache q =>
      cases q with
      | acquire key =>
        obtain rfl : key = k := hkeeps
        simp only [execLoad, exec] at hexec
        split at hexec
        · cases hexec
        next hfree =>
          cases hexec
          exact advances_acquire hU hc hthread hfree
      | release key =>
        obtain ⟨rfl, hgate, hfull⟩ := hkeeps
        cases hexec
        exact advances_release hU hc hthread hgate hfull
      | tier q => exact advances_tier hU hc hthread hexec hkeeps
  · exact advances_elsewhere hU hc hthread hexec helse

end Step

/-! ## Whole runs -/
section Run

def Returned (k : K) (ok : V → Prop) :
    (c : LoadCall K V L) → LoadM n K V Infallible L (c.Output Infallible) → Prop
  | .getOrLoad key load, .done a =>
    key = k → (∀ v, a = .ok v → ok v) ∧ ∀ e, a = .error e → load = .error e
  | _, _ => True

structure Coalesced (k : K) (s : Stack T n) (c : LoadPool n T K V Infallible L calls) : Prop where
  one : (loads k c.log).length ≤ 1
  held : ∀ v, s.shown k = some v → loads k c.log = []
  returns : ∀ i, Returned k (fun v => s.shown k = some v ∨ ∃ j, (j, v) ∈ loads k c.log) (calls i)
    (c.threads i)
  /-- What a tier holds it held before, or one of the loads has succeeded with it. -/
  leaves : ∀ t v, c.shared.stack.held t k = some v →
    (∃ t', s.held t' k = some v) ∨ ∃ j, (j, v) ∈ loads k c.log

/-- What a step of a column keeps, a run of the pool keeps. -/
theorem column_run (inv : Column ι n V → Prop) (hU : Keeping U)
    (hinv : ∀ c c', inv c → Column.Step c c' → inv c') (schedule : List ι)
    {c : LoadPool n T K V Infallible L calls} {memory : ι → Memory n V} {gate : Option ι}
    (hc : Coalescing U k c memory gate) (hcol : inv (column k c memory gate)) :
    ∃ memory' gate', Coalescing U k (Pool.run execLoad c schedule) memory' gate' ∧
      inv (column k (Pool.run execLoad c schedule) memory' gate') := by
  induction schedule generalizing c memory gate with
  | nil => exact ⟨memory, gate, hc, hcol⟩
  | cons i schedule ih =>
    obtain ⟨memory', gate', hc', hsame | hstep⟩ := column_step hU hc i
    · exact ih hc' (hsame ▸ hcol)
    · exact ih hc' (hinv _ _ hcol hstep)

omit [DecidableEq ι] [LawfulTier T] in
theorem coalescing_start {r : Router n} (hw : ∀ i, r.writable i = true)
    (hp : r.policy = defaultPolicy) (hn : 0 < n) {s : Stack T n} (hs : ∀ t, U (s t).tier)
    (hcalls : ∀ i, (∀ v, calls i ≠ .cache (.put k v)) ∧ calls i ≠ .cache (.invalidate k)) :
    Coalescing U k (startLoads r true calls s) (fun _ => Memory.start) none where
  goes i := performLoad_goes r hw hp hn (calls i) (hcalls i).1 (hcalls i).2
  kept := hs
  holder i := by simp [Memory.start]
  locked h := absurd rfl h

omit [DecidableEq ι] [Tier T K V Infallible] [LawfulTier T] in
/-- What a call returns follows from what it has in the end. -/
theorem returned_of_goes {call : LoadCall K V L}
    {p : LoadM n K V Infallible L (call.Output Infallible)} {m : Memory n V}
    (h : Goes k (Fine k call) p m) {ok : V → Prop} (hok : ∀ v, m.Has v → ok v) :
    Returned k ok call p := by
  cases call with
  | cache c => trivial
  | getOrLoad key load =>
    cases p with
    | call q next => trivial
    | done a => exact fun hkey => ⟨fun v hv => hok v ((h hkey).1 v hv), (h hkey).2⟩

end Run
end TieredCache

/-- Concurrent loads of one key over unbounded tiers that do not fail, among calls that neither
write nor delete the key, are coalesced. -/
theorem loads_coalesce {T K V L ι : Type} [DecidableEq K] [Tier T K V Infallible] [LawfulTier T]
    [DecidableEq ι] {U : T → Prop} (hU : Keeping U) {n : Nat} (hn : 0 < n) (r : Router n)
    (hw : ∀ i, r.writable i = true) (hp : r.policy = TieredCache.defaultPolicy) (s : Stack T n)
    (hs : ∀ t, U (s t).tier) (k : K) (calls : ι → LoadCall K V L)
    (hcalls : ∀ i, (∀ v, calls i ≠ .cache (.put k v)) ∧ calls i ≠ .cache (.invalidate k))
    (schedule : List ι) :
    TieredCache.Coalesced k s
      (Pool.run TieredCache.execLoad (TieredCache.startLoads r true calls s) schedule) := by
  have hstart := TieredCache.coalescing_start hw hp hn hs hcalls
  cases hshown : s.shown k with
  | some v =>
    obtain ⟨above, top, below, hsplit, hnone, htop⟩ := exists_top_of_stacked hshown
    obtain ⟨memory, gate, hc, hserved⟩ := TieredCache.column_run
      (Column.Served top v fun x => ∃ t, s.held t k = some x) hU
      (fun _ _ h hstep => h.step hstep) schedule hstart
      { served := htop
        above := fun t ht x hx => by
          have habsent : some x = none := hx.symm.trans (hnone t (mem_above_of_lt hsplit ht))
          cases habsent
        old := fun t x hx => ⟨t, hx⟩
        depth := fun i => Nat.zero_le _
        hand := fun i x hx => by cases hx
        filled := fun i => rfl
        loaded := rfl }
    have hloads : TieredCache.loads k (Pool.run TieredCache.execLoad
        (TieredCache.startLoads r true calls s) schedule).log = [] := hserved.loaded
    exact
      { one := by simp [hloads]
        held := fun _ _ => hloads
        returns := fun i => TieredCache.returned_of_goes (hc.goes i) fun x hx =>
          Or.inl (by rw [hserved.has (i := i) hx]; exact hshown)
        leaves := fun t x hx => Or.inl (hserved.old t x hx) }
  | none =>
    have hnone : ∀ t, s.held t k = none := fun t => stacked_eq_none.1 hshown t (List.mem_finRange t)
    obtain ⟨memory, gate, hc, hfresh⟩ := TieredCache.column_run Column.Fresh hU
      (fun _ _ h hstep => h.step hn hstep) schedule hstart
      (Or.inl ⟨hnone, fun _ => rfl, fun _ => rfl, rfl⟩)
    obtain hunloaded | ⟨w, v, hloaded⟩ := hfresh
    · have hloads : TieredCache.loads k (Pool.run TieredCache.execLoad
          (TieredCache.startLoads r true calls s) schedule).log = [] := hunloaded.loaded
      exact
        { one := by simp [hloads]
          held := fun _ _ => hloads
          returns := fun i => TieredCache.returned_of_goes (hc.goes i) fun x hx =>
            (hunloaded.not_has (i := i) hx).elim
          leaves := fun t x hx => by
            have habsent : some x = none := hx.symm.trans (hunloaded.copies t)
            cases habsent }
    · have hloads : TieredCache.loads k (Pool.run TieredCache.execLoad
          (TieredCache.startLoads r true calls s) schedule).log = [(w, v)] := hloaded.loaded
      exact
        { one := by simp [hloads]
          held := fun x hx => by rw [hshown] at hx; cases hx
          returns := fun i => TieredCache.returned_of_goes (hc.goes i) fun x hx =>
            Or.inr ⟨w, by rw [hloads, hloaded.has (i := i) hx]; simp⟩
          leaves := fun t x hx => Or.inr ⟨w, by rw [hloads, hloaded.copies t x hx]; simp⟩ }

def threeLoads (i : Fin 3) : LoadCall Nat Nat Unit :=
  .getOrLoad 1 (if i.val = 0 then .error () else .ok (10 + i))

theorem loads_coalesce_overlapping :
    let s : Stack (MemoryTier Nat Nat) 2 := Stack.build fun _ => .unbounded
    let final := Pool.run TieredCache.execLoad
      (TieredCache.startLoads memoryCache true threeLoads s)
      [0, 1, 2, 2, 0, 1, 0, 1, 2, 0, 0, 0, 0, 1, 2, 1, 1, 1, 1, 2, 1, 1, 2, 2, 2]
    TieredCache.Coalesced 1 s final ∧ TieredCache.loads 1 final.log = [(1, 11)] ∧
      ∀ i, (final.threads i).Done := by
  intro s final
  have hunbounded : ∀ t, (s t).tier.Unbounded := fun _ => ⟨rfl, rfl⟩
  have hcalls : ∀ i, (∀ v, threeLoads i ≠ .cache (.put 1 v)) ∧
      threeLoads i ≠ .cache (.invalidate 1) := fun i => ⟨(by rintro v ⟨⟩), by rintro ⟨⟩⟩
  exact ⟨loads_coalesce MemoryTier.keeping_unbounded (by decide) memoryCache (fun _ => rfl) rfl s
    hunbounded 1 threeLoads hcalls _, by decide +kernel, by decide +kernel⟩

end Tierstore
