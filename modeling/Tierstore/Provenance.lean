import Tierstore.Reads

/-! Where the entries a router writes come from: an operation writes what the client gave
it, what a read answered, or what a tier displaced. -/
namespace Tierstore
open Overlay Effects

section Calls
variable {n : Nat} {K V E : Type}

def Vouched (P : K → V → Prop) (entries : List (K × V)) : Prop := ∀ e ∈ entries, P e.1 e.2

/-- The router only calls tiers in `D`, deletes only keys in `X`, and writes only vouched
entries. -/
def OkCall (D : Fin n → Prop) (X : K → Prop) (P : K → V → Prop) : Query n K V → Prop
  | (t, .put k v) => D t ∧ P k v
  | (t, .putMany es) => D t ∧ Vouched P es
  | (t, .delete k) => D t ∧ X k
  | (t, .deleteMany ks) => D t ∧ ∀ k ∈ ks, X k
  | (t, _) => D t

/-- Reads answer with vouched values, and the tiers in `Q` displace vouched entries. -/
def OkAnswer (Q : Fin n → Prop) (P : K → V → Prop) :
    (q : Query n K V) → Answer n K V E q → Prop
  | (_, .get k), .ok (some v) => P k v
  | (_, .getMany ks), .ok vs => ∀ k v, (k, some v) ∈ ks.zip vs → P k v
  | (t, .put _ _), .ok d => Q t → Vouched P d
  | (t, .putMany _), .ok d => Q t → Vouched P d
  | _, _ => True

theorem OkCall.tier {D : Fin n → Prop} {X : K → Prop} {P : K → V → Prop} {q : Query n K V}
    (h : OkCall D X P q) : D q.1 := by
  obtain ⟨t, c⟩ := q
  cases c with
  | put k v => exact h.1
  | putMany es => exact h.1
  | get k => exact h
  | exists_ k => exact h
  | getMany ks => exact h
  | delete k => exact h.1
  | deleteMany ks => exact h.1

theorem OkCall.mono {D D' : Fin n → Prop} {X : K → Prop} {P : K → V → Prop}
    {q : Query n K V}
    (h : OkCall D X P q) (hD : D q.1 → D' q.1) : OkCall D' X P q := by
  have ht := hD h.tier
  obtain ⟨t, c⟩ := q
  cases c with
  | put k v => exact ⟨ht, h.2⟩
  | putMany es => exact ⟨ht, h.2⟩
  | get k => exact ht
  | exists_ k => exact ht
  | getMany ks => exact ht
  | delete k => exact ⟨ht, h.2⟩
  | deleteMany ks => exact ⟨ht, h.2⟩

/-- The program keeps to vouched entries as long as the tiers do. -/
abbrev Clean (D : Fin n → Prop) (X : K → Prop) (Q : Fin n → Prop) (P : K → V → Prop)
    {α : Type} (post : α → Prop)
    (p : RouterM n K V E α) : Prop :=
  p.Safe (OkCall D X P) (OkAnswer Q P) post

end Calls

namespace Router
variable {n : Nat} {K V E : Type} (r : Router n)
  {D Q : Fin n → Prop} {X : K → Prop} {P : K → V → Prop}

def Spills (t : Fin n) : Prop :=
  r.policy.demoteDisplaced = true ∧ ∃ j ∈ tiersBelow t, r.writable j = true

instance (t : Fin n) : Decidable (r.Spills t) := inferInstanceAs (Decidable (_ ∧ _))

theorem demoteInto_clean {target : Fin n} (hD : D target) (current next : Displaced K V)
    (hcur : Vouched P current) {post : Displaced K V → Prop}
    (hnext : ∀ d, (Q target → Vouched P d) → post (next ++ d)) :
    Clean D X Q P post (demoteInto target current next : RouterM n K V E _) := by
  induction current generalizing next with
  | nil =>
    have h := hnext [] fun _ => by simp [Vouched]
    rwa [List.append_nil] at h
  | cons e rest ih =>
    obtain ⟨k, v⟩ := e
    have hrest : Vouched P rest := fun e he => hcur e (List.mem_cons_of_mem _ he)
    refine ⟨⟨hD, hcur (k, v) (by simp)⟩, fun a ha => ?_⟩
    cases a with
    | error source => exact ih next hrest hnext
    | ok d =>
      refine ih (next ++ d) hrest fun d' hd' => ?_
      rw [List.append_assoc]
      refine hnext (d ++ d') fun hQ e he => ?_
      obtain h | h := List.mem_append.1 he
      · exact ha hQ e h
      · exact hd' hQ e h

/-- Every tier whose displaced entries go into a tier of `below` vouches for them. -/
theorem demoteDown_clean (below : List (Fin n)) (hD : ∀ j ∈ below, D j)
    (hQ : ∀ above t rest, below = above ++ t :: rest →
      (∃ j ∈ rest, r.writable j = true) → Q t)
    (current : Displaced K V)
    (hcur : (∃ j ∈ below, r.writable j = true) → Vouched P current) :
    Clean D X Q P (fun _ => True) (r.demoteDown below current : RouterM n K V E _) := by
  induction below generalizing current with
  | nil => trivial
  | cons target below ih =>
    have hD' : ∀ j ∈ below, D j := fun j hj => hD j (List.mem_cons_of_mem _ hj)
    have hQ' : ∀ above t rest, below = above ++ t :: rest →
        (∃ j ∈ rest, r.writable j = true) → Q t :=
      fun above t rest h => hQ (target :: above) t rest (by simp [h])
    rw [demoteDown]
    split
    · trivial
    · by_cases hwt : r.writable target = true
      · simp only [hwt, Bool.not_true, Bool.false_eq_true, if_false]
        have hinto : Clean D X Q P
            (fun next => (∃ j ∈ below, r.writable j = true) → Vouched P next)
            (demoteInto target current [] : RouterM n K V E _) := by
          refine demoteInto_clean (hD target (by simp)) current [] ?_ ?_
          · exact hcur ⟨target, by simp, hwt⟩
          · exact fun d hd hj => hd (hQ [] target below rfl hj)
        exact hinto.bind fun next hnext => ih hD' hQ' next hnext
      · simp only [hwt, Bool.not_false, if_true]
        refine ih hD' hQ' current fun ⟨j, hj, hwj⟩ => hcur ⟨j, ?_, hwj⟩
        exact List.mem_cons_of_mem _ hj

theorem demote_clean (t : Fin n) (hD : ∀ j ∈ tiersBelow t, D j)
    (hQ : ∀ t', (∃ j ∈ tiersBelow t', r.writable j = true) → Q t') (entries : Displaced K V)
    (hent : (∃ j ∈ tiersBelow t, r.writable j = true) → Vouched P entries) :
    Clean D X Q P (fun _ => True) (r.demote t entries : RouterM n K V E _) := by
  refine r.demoteDown_clean (tiersBelow t) hD ?_ entries hent
  intro above t' rest hsplit hj
  obtain ⟨a, b, hab⟩ := exists_split t
  rw [tiersBelow_of_split hab] at hsplit
  have hsplit' : List.finRange n = (a ++ t :: above) ++ t' :: rest := by simp [hab, hsplit]
  exact hQ t' (by rwa [tiersBelow_of_split hsplit'])

/-! ## The operations -/
section Operations
variable (hD : ∀ t, D t) (hQ : ∀ t, r.Spills t → Q t)
include hD

omit hD in
theorem forM_clean {ι : Type} (l : List ι) (f : ι → RouterM n K V E Unit)
    (h : ∀ i ∈ l, Clean D X Q P (fun _ => True) (f i)) :
    Clean D X Q P (fun _ => True) (l.forM f) := by
  induction l with
  | nil => trivial
  | cons i l ih =>
    exact (h i (by simp)).bind fun _ _ => ih fun j hj => h j (List.mem_cons_of_mem i hj)

include hQ in
theorem spill_clean (t : Fin n) (displaced : Displaced K V) (hdis : Q t → Vouched P displaced)
    (hd : r.policy.demoteDisplaced = true) :
    Clean D X Q P (fun _ => True) (r.demote t displaced : RouterM n K V E _) :=
  r.demote_clean t (fun j _ => hD j) (fun t' hj => hQ t' ⟨hd, hj⟩) displaced
    fun hj => hdis (hQ t ⟨hd, hj⟩)

include hQ in
theorem promoteWith_clean (t : Fin n) {w : RouterM n K V E (Except E (Displaced K V))}
    (hw : Clean D X Q P (fun a => ∀ d, a = .ok d → Q t → Vouched P d) w) :
    Clean D X Q P (fun _ => True) (r.promoteWith t w) := by
  rw [promoteWith]
  split
  · refine hw.bind fun a ha => ?_
    cases a with
    | error source => trivial
    | ok d =>
      dsimp only
      split
      · next hcond =>
        have hd : r.policy.demoteDisplaced = true := by
          simp only [Bool.and_eq_true] at hcond
          exact hcond.1
        exact (r.spill_clean hD hQ t d (ha d rfl) hd).bind fun _ _ => trivial
      · trivial
  · trivial

theorem putAt_clean (t : Fin n) {k : K} {v : V} (hkv : P k v) :
    Clean D X Q P (fun a => ∀ d, a = .ok d → Q t → Vouched P d)
      (putAt t k v : RouterM n K V E _) := by
  refine ⟨⟨hD t, hkv⟩, fun a ha d hd => ?_⟩
  subst hd
  exact ha

theorem putManyAt_clean (t : Fin n) {es : List (K × V)} (hes : Vouched P es) :
    Clean D X Q P (fun a => ∀ d, a = .ok d → Q t → Vouched P d)
      (putManyAt t es : RouterM n K V E _) := by
  refine ⟨⟨hD t, hes⟩, fun a ha d hd => ?_⟩
  subst hd
  exact ha

include hQ in
theorem readDown_clean (key : K) (l : List (Fin n)) (failures : List (TierFailure E)) :
    Clean D X Q P (fun a => ∀ v, a = .ok (some v) → P key v) (r.readDown key l failures) := by
  induction l generalizing failures with
  | nil =>
    intro v hv
    simp only [exhausted] at hv
    split at hv <;> cases hv
  | cons t below ih =>
    refine ⟨hD t, fun a ha => ?_⟩
    cases a with
    | ok found =>
      cases found with
      | some value =>
        have hvalue : P key value := ha
        refine (forM_clean _ _ fun target _ => ?_).bind fun _ _ => ?_
        · exact r.promoteWith_clean hD hQ target (putAt_clean hD target hvalue)
        · intro v hv
          cases hv
          exact hvalue
      | none => exact ih failures
    | error source =>
      cases r.policy.read.onError with
      | failFast => exact fun v hv => by cases hv
      | fallThrough => exact ih _

include hQ in
theorem get_clean (key : K) :
    Clean D X Q P (fun a => ∀ v, a = some (.ok (some v)) → P key v)
      (r.get key : RouterM n K V E _) := by
  rw [get_eq, map_eq_pure_bind]
  refine (r.readDown_clean hD hQ key (List.finRange n) []).bind fun a ha v hv => ?_
  exact ha v (Option.some.inj hv)

theorem existsDown_clean (key : K) (l : List (Fin n)) (failures : List (TierFailure E)) :
    Clean D X Q P (fun _ => True) (r.existsDown key l failures : RouterM n K V E _) := by
  induction l generalizing failures with
  | nil => trivial
  | cons t below ih =>
    refine ⟨hD t, fun a _ => ?_⟩
    cases a with
    | ok found =>
      cases found with
      | true => trivial
      | false => exact ih failures
    | error source =>
      cases r.policy.read.onError with
      | failFast => trivial
      | fallThrough => exact ih _

theorem exists_clean (key : K) :
    Clean D X Q P (fun _ => True) (r.exists_ key : RouterM n K V E _) := by
  rw [exists_eq, map_eq_pure_bind]
  exact (r.existsDown_clean hD key (List.finRange n) []).bind fun _ _ => trivial

/-! ### Batched reads -/

omit hD in
theorem resolve_value {m : Nat} (t : Fin n) (l : List (Fin m × Option V))
    (statuses : Fin m → KeyStatus V) (i : Fin m) (v : V)
    (h : ((resolve t l statuses).1 i).value = some v) :
    (i, some v) ∈ l ∨ (statuses i).value = some v := by
  obtain hold | ⟨w, hmem, hhit⟩ := resolve_cases t l statuses i
  · rw [hold] at h
    exact Or.inr h
  · rw [hhit] at h
    cases h
    exact Or.inl hmem

theorem readTiers_clean (keys : List K) (l : List (Fin n))
    (statuses : Fin keys.length → KeyStatus V) (unresolved : List (Fin keys.length))
    (failures : List (TierFailure E))
    (hstat : ∀ i v, (statuses i).value = some v → P (keys.get i) v) :
    Clean D X Q P (fun a => ∀ out, a = .ok out →
        ∀ i v, (out.1 i).value = some v → P (keys.get i) v)
      (r.readTiers keys l statuses unresolved failures) := by
  induction l generalizing statuses unresolved failures with
  | nil =>
    intro out hout
    cases hout
    exact hstat
  | cons t below ih =>
    rw [readTiers]
    split
    · intro out hout
      cases hout
      exact hstat
    · refine ⟨hD t, fun a ha => ?_⟩
      cases a with
      | ok found =>
        refine ih _ _ _ fun i v hv => ?_
        obtain hmem | hold := resolve_value t _ statuses i v hv
        · refine ha (keys.get i) v ?_
          rw [List.zip_map_left]
          exact List.mem_map.2 ⟨(i, some v), hmem, rfl⟩
        · exact hstat i v hold
      | error source =>
        cases r.policy.read.onError with
        | failFast => exact fun out hout => by cases hout
        | fallThrough => exact ih statuses unresolved _ hstat

omit hD in
theorem hitEntries_vouched {keys : List K} {statuses : Fin keys.length → KeyStatus V}
    (hstat : ∀ i v, (statuses i).value = some v → P (keys.get i) v) (t : Fin n) :
    Vouched P (hitEntries keys statuses t) := by
  intro e he
  obtain ⟨i, hkey, hv⟩ := mem_hitEntries he
  rw [← hkey]
  exact hstat i e.2 hv

include hQ in
theorem promoteBatch_clean {keys : List K} {statuses : Fin keys.length → KeyStatus V}
    (hstat : ∀ i v, (statuses i).value = some v → P (keys.get i) v) :
    Clean D X Q P (fun _ => True) (r.promoteBatch keys statuses : RouterM n K V E _) := by
  have hloop : ∀ l : List (Fin n),
      Clean D X Q P (fun _ => True) (r.promoteTiers keys statuses l : RouterM n K V E _) := by
    intro l
    induction l with
    | nil => trivial
    | cons t rest ih =>
      rw [promoteTiers]
      dsimp only
      split
      · exact ih
      · refine (forM_clean _ _ fun target _ => ?_).bind fun _ _ => ih
        exact r.promoteWith_clean hD hQ target
          (putManyAt_clean hD target (hitEntries_vouched hstat t))
  rw [promoteBatch]
  split
  · trivial
  · exact hloop _

def ReportVouched (P : K → V → Prop) (keys : List K) (report : ReadReport V E) : Prop :=
  report.statuses.length = keys.length ∧
    ∀ k v, (k, some v) ∈ keys.zip report.intoValues → P k v

include hQ in
theorem readMany_clean (keys : List K) :
    Clean D X Q P (fun a => ∀ report, a = .ok report → ReportVouched P keys report)
      (r.readMany keys : RouterM n K V E _) := by
  have hstart : ∀ (i : Fin keys.length) (v : V),
      (KeyStatus.miss : KeyStatus V).value = some v → P (keys.get i) v :=
    fun i v hv => by cases hv
  refine (r.readTiers_clean hD keys (List.finRange n) (fun _ => .miss)
    (List.finRange keys.length) [] hstart).bind fun a ha => ?_
  cases a with
  | error e => exact fun report h => by cases h
  | ok out =>
    obtain ⟨statuses, unresolved, failures⟩ := out
    have hstat := ha _ rfl
    dsimp only at hstat ⊢
    generalize hnew : (if failures.isEmpty = true then statuses
      else fun index => if index ∈ unresolved then KeyStatus.inconclusive
        else statuses index) = final
    have hfinal : ∀ i v, (final i).value = some v → P (keys.get i) v := by
      intro i v hv
      subst hnew
      split at hv
      · exact hstat i v hv
      · by_cases hi : i ∈ unresolved
        · simp [hi, KeyStatus.value] at hv
        · simp only [hi, if_false] at hv
          exact hstat i v hv
    refine (r.promoteBatch_clean hD hQ hfinal).bind fun _ _ report hrep => ?_
    cases hrep
    refine ⟨by simp, fun k v hkv => ?_⟩
    rw [ReadReport.intoValues, List.map_ofFn] at hkv
    obtain ⟨i, hi, hget⟩ := List.mem_iff_getElem.1 hkv
    rw [List.getElem_zip] at hget
    have hlen : i < keys.length := by
      rw [List.length_zip] at hi
      omega
    have hk : keys[i] = k := congrArg Prod.fst hget
    have hv : (final ⟨i, hlen⟩).value = some v := by
      have h := congrArg Prod.snd hget
      simpa using h
    have hP := hfinal ⟨i, hlen⟩ v hv
    rwa [List.get_eq_getElem, hk] at hP

include hQ in
theorem readOne_clean (key : K) :
    Clean D X Q P (fun a => ∀ report, a = .ok report →
        ∀ v, report.status.value = some v → P key v)
      (r.readOne key : RouterM n K V E _) := by
  refine (r.readMany_clean hD hQ [key]).bind fun a ha => ?_
  cases a with
  | error e => exact fun report h => by cases h
  | ok report =>
    obtain ⟨hlen, hvouched⟩ := ha report rfl
    obtain ⟨status, hstatus⟩ := List.length_eq_one_iff.1 hlen
    intro one hone v hv
    cases hone
    refine hvouched key v ?_
    simp only [hstatus, List.getLast?_singleton, Option.getD_some] at hv
    simp [ReadReport.intoValues, hstatus, hv]

/-! ### Writes and deletes -/

include hQ in
theorem writeThrough_clean {w : Fin n → RouterM n K V E (Except E (Displaced K V))}
    (hw : ∀ t, Clean D X Q P (fun a => ∀ d, a = .ok d → Q t → Vouched P d) (w t))
    (ts : List (Fin n)) (evicted : Displaced K V) :
    Clean D X Q P (fun _ => True) (r.writeThrough w ts evicted) := by
  induction ts generalizing evicted with
  | nil => trivial
  | cons t above ih =>
    rw [writeThrough]
    split
    · exact ih evicted
    · refine (hw t).bind fun a ha => ?_
      cases a with
      | ok d =>
        dsimp only
        split
        · exact ih evicted
        · split
          · next hd => exact (r.spill_clean hD hQ t d (ha d rfl) hd).bind fun _ _ => ih _
          · exact ih _
      | error source =>
        dsimp only
        cases r.policy.onWriteError with
        | failFast => trivial
        | bestEffort => exact ih evicted

omit hD in
theorem invalidate_clean {α : Type} {remove : Fin n → RouterM n K V E (Except E α)}
    (hremove : ∀ t, Clean D X Q P (fun _ => True) (remove t)) (ts : List (Fin n))
    (failures : List (TierFailure E)) :
    Clean D X Q P (fun _ => True) (r.invalidate remove ts failures) := by
  induction ts generalizing failures with
  | nil => trivial
  | cons t below ih =>
    rw [invalidate]
    split
    · exact ih failures
    · refine (hremove t).bind fun a _ => ?_
      cases a with
      | ok a => exact ih failures
      | error source => exact ih _

omit hD in
theorem writeAround_clean {α : Type} {w : Fin n → RouterM n K V E (Except E (Displaced K V))}
    {remove : Fin n → RouterM n K V E (Except E α)}
    (hw : ∀ t, Clean D X Q P (fun a => ∀ d, a = .ok d → Q t → Vouched P d) (w t))
    (hremove : ∀ t, Clean D X Q P (fun _ => True) (remove t)) :
    Clean D X Q P (fun _ => True) (r.writeAround w remove) := by
  rw [writeAround]
  split
  · trivial
  · next b _ =>
    refine (hw b).bind fun a _ => ?_
    cases a with
    | error source => trivial
    | ok d =>
      refine (r.invalidate_clean hremove _ []).bind fun failures _ => ?_
      split <;> trivial

theorem deleteAt_clean (t : Fin n) {k : K} (hk : X k) :
    Clean D X Q P (fun _ => True) (deleteAt t k : RouterM n K V E _) :=
  ⟨⟨hD t, hk⟩, fun _ _ => trivial⟩

theorem deleteManyAt_clean (t : Fin n) {ks : List K} (hks : ∀ k ∈ ks, X k) :
    Clean D X Q P (fun _ => True) (deleteManyAt t ks : RouterM n K V E _) :=
  ⟨⟨hD t, hks⟩, fun _ _ => trivial⟩

include hQ in
theorem put_clean {k : K} {v : V} (hkv : P k v) (hk : X k) :
    Clean D X Q P (fun _ => True) (r.put k v : RouterM n K V E _) := by
  rw [put]
  cases r.policy.write with
  | writeThrough =>
    dsimp only
    split
    · trivial
    · exact r.writeThrough_clean hD hQ (fun t => putAt_clean hD t hkv) _ []
  | writeAround =>
    exact r.writeAround_clean (fun t => putAt_clean hD t hkv) fun t => deleteAt_clean hD t hk

include hQ in
theorem putMany_clean {es : List (K × V)} (hes : Vouched P es)
    (hks : ∀ k ∈ es.map Prod.fst, X k) :
    Clean D X Q P (fun _ => True) (r.putMany es : RouterM n K V E _) := by
  rw [putMany]
  cases r.policy.write with
  | writeThrough =>
    dsimp only
    split
    · trivial
    · exact r.writeThrough_clean hD hQ (fun t => putManyAt_clean hD t hes) _ []
  | writeAround =>
    exact r.writeAround_clean (fun t => putManyAt_clean hD t hes) fun t =>
      deleteManyAt_clean hD t hks

theorem delete_clean {k : K} (hk : X k) :
    Clean D X Q P (fun _ => True) (r.delete k : RouterM n K V E _) := by
  have hloop : ∀ (ts : List (Fin n)) (existed : Bool) (failures : List (TierFailure E)),
      Clean D X Q P (fun _ => True) (r.deleteTiers k ts existed failures) := by
    intro ts
    induction ts with
    | nil =>
      intro existed failures
      rw [deleteTiers]
      split <;> trivial
    | cons t below ih =>
      intro existed failures
      rw [deleteTiers]
      split
      · exact ih existed failures
      · refine ⟨⟨hD t, hk⟩, fun a _ => ?_⟩
        cases a with
        | ok present => exact ih _ failures
        | error source => exact ih existed _
  exact hloop _ _ _

theorem removeMany_clean {ks : List K} (hks : ∀ k ∈ ks, X k) :
    Clean D X Q P (fun _ => True) (r.removeMany ks : RouterM n K V E _) := by
  have hloop : ∀ (ts : List (Fin n)) (removed : List Bool) (failures : List (TierFailure E)),
      Clean D X Q P (fun _ => True) (r.removeTiers ks ts removed failures) := by
    intro ts
    induction ts with
    | nil => exact fun _ _ => trivial
    | cons t below ih =>
      intro removed failures
      rw [removeTiers]
      split
      · exact ih removed failures
      · refine ⟨⟨hD t, hks⟩, fun a _ => ?_⟩
        cases a with
        | ok flags => exact ih _ failures
        | error source => exact ih removed _
  exact hloop _ _ _

end Operations
end Router

end Tierstore
