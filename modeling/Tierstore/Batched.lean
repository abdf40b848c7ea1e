import Tierstore.Honest
import Tierstore.Lookup

/-! What a batched read asks of each tier, and how it classifies each key, for every answer it
may get. -/
namespace Tierstore
open Effects

/-- A list with one slot for each element of `l` reads a function off along `l`. -/
theorem exists_slots {α β : Type} [DecidableEq α] [Inhabited β] {l : List α} (hnd : l.Nodup)
    {values : List β} (h : values.length = l.length) : ∃ f : α → β, values = l.map f := by
  induction l generalizing values with
  | nil => exact ⟨fun _ => default, List.length_eq_zero_iff.1 h⟩
  | cons a rest ih =>
    obtain ⟨hnew, hnd⟩ := List.nodup_cons.1 hnd
    cases values with
    | nil => cases h
    | cons b values =>
      obtain ⟨f, rfl⟩ := ih hnd (Nat.succ.inj h)
      refine ⟨Function.update f a b, ?_⟩
      rw [List.map_cons, Function.update_self]
      congr 1
      refine List.map_congr_left fun x hx => ?_
      rw [Function.update_of_ne]
      rintro rfl
      exact hnew hx

namespace Router
variable {n m : Nat} {K V E : Type} (r : Router n)

def valueAt (a : Except E (Fin m → Option V)) (i : Fin m) : Option V :=
  match a with
  | .ok values => values i
  | .error _ => none

def given (slots : Fin n → Except E (Fin m → Option V)) (t : Fin n) (i : Fin m) : Option V :=
  valueAt (slots t) i

/-- The positions of `open_` that no tier of `tiers` above `t` gave a value for. -/
def leftFor (slots : Fin n → Except E (Fin m → Option V)) (tiers : List (Fin n))
    (open_ : List (Fin m)) (t : Fin n) : List (Fin m) :=
  open_.filter fun i => ∀ u ∈ tiers, u < t → (given slots u i).isNone

def asked (slots : Fin n → Except E (Fin m → Option V)) (t : Fin n) : List (Fin m) :=
  leftFor slots (List.finRange n) (List.finRange m) t

def batchCall (keys : List K) (slots : Fin n → Except E (Fin keys.length → Option V))
    (open_ : List (Fin keys.length)) (t : Fin n) : Event n K V E :=
  ⟨(t, .getMany (open_.map keys.get)), (slots t).map fun values => open_.map values⟩

def topmost (slots : Fin n → Except E (Fin m → Option V)) (tiers : List (Fin n)) (i : Fin m) :
    Option (Fin n × V) :=
  tiers.findSome? fun t => (given slots t i).map fun v => (t, v)

structure Probed (keys : List K) (tiers : List (Fin n))
    (statuses : Fin keys.length → KeyStatus V) (open_ : List (Fin keys.length))
    (failures : List (TierFailure E)) (log : List (Event n K V E))
    (result : Except (RouterError E)
      ((Fin keys.length → KeyStatus V) × List (Fin keys.length) × List (TierFailure E)))
    (slots : Fin n → Except E (Fin keys.length → Option V)) (called : List (Fin n)) : Prop where
  order : called <+: tiers
  calls : log = called.map fun t => batchCall keys slots (leftFor slots tiers open_ t) t
  called_iff : ∀ t ∈ tiers, t ∈ called ↔ leftFor slots tiers open_ t ≠ [] ∧
    (r.policy.read.onError = .failFast → ∀ u ∈ tiers, u < t → ∃ values, slots u = .ok values)
  silent : ∀ t ∉ called, slots t = .ok fun _ => none
  failed : ∀ t ∈ called, ∀ source, slots t = .error source →
    r.policy.read.onError = .failFast → result = .error (.tier (r.failure t source))
  report : (r.policy.read.onError = .failFast → ∀ t ∈ called, ∃ values, slots t = .ok values) →
    result = .ok (fun i => if i ∈ open_ then
        match topmost slots tiers i with
        | some (t, v) => .hit t v
        | none => statuses i
        else statuses i,
      open_.filter fun i => ∀ u ∈ tiers, (given slots u i).isNone,
      failures ++ r.failuresOf slots tiers)

variable {r} {slots : Fin n → Except E (Fin m → Option V)} {t : Fin n} {below : List (Fin n)}

theorem leftFor_head (hsorted : (t :: below).Pairwise (· < ·)) (open_ : List (Fin m)) :
    leftFor slots (t :: below) open_ t = open_ := by
  refine List.filter_eq_self.2 fun i _ => decide_eq_true fun u hu hlt => ?_
  obtain rfl | hbelow := List.mem_cons.1 hu
  · exact absurd hlt (lt_irrefl u)
  · exact absurd (hlt.trans (List.rel_of_pairwise_cons hsorted hbelow)) (lt_irrefl u)

theorem leftFor_tail (hsorted : (t :: below).Pairwise (· < ·)) (a : Except E (Fin m → Option V))
    (open_ : List (Fin m)) {x : Fin n} (hx : x ∈ below) :
    leftFor (Function.update slots t a) (t :: below) open_ x =
      leftFor slots below (open_.filter fun i => (valueAt a i).isNone) x := by
  have hlt := List.rel_of_pairwise_cons hsorted hx
  have hne : ∀ u ∈ below, u ≠ t := fun u hu => (List.rel_of_pairwise_cons hsorted hu).ne'
  rw [leftFor, leftFor, List.filter_filter]
  refine List.filter_congr fun i _ => ?_
  rw [Bool.eq_iff_iff]
  simp only [decide_eq_true_eq, Bool.and_eq_true, List.forall_mem_cons]
  constructor
  · rintro ⟨ht, hrest⟩
    refine ⟨fun u hu hux => ?_, ?_⟩
    · have hu' := hrest u hu hux
      rwa [given, Function.update_of_ne (hne u hu)] at hu'
    · have ht' := ht hlt
      rwa [given, Function.update_self] at ht'
  · rintro ⟨hrest, ht⟩
    refine ⟨fun _ => ?_, fun u hu hux => ?_⟩
    · rwa [given, Function.update_self]
    · rw [given, Function.update_of_ne (hne u hu)]
      exact hrest u hu hux

theorem topmost_update (a : Except E (Fin m → Option V)) (ht : t ∉ below) (i : Fin m) :
    topmost (Function.update slots t a) below i = topmost slots below i := by
  induction below with
  | nil => rfl
  | cons u below ih =>
    obtain ⟨hne, ht⟩ := not_or.1 (mt List.mem_cons.2 ht)
    rw [topmost, topmost, List.findSome?_cons, List.findSome?_cons, given, given,
      Function.update_of_ne (Ne.symm hne)]
    cases valueAt (slots u) i with
    | some v => rfl
    | none => exact ih ht

theorem topmost_cons (a : Except E (Fin m → Option V)) (ht : t ∉ below) (i : Fin m) :
    topmost (Function.update slots t a) (t :: below) i =
      match valueAt a i with
      | some v => some (t, v)
      | none => topmost slots below i := by
  rw [topmost, List.findSome?_cons, given, Function.update_self]
  cases valueAt a i with
  | some v => rfl
  | none => exact topmost_update a ht i

def failureOf (r : Router n) (t : Fin n) (a : Except E (Fin m → Option V)) : List (TierFailure E) :=
  match a with
  | .ok _ => []
  | .error source => [r.failure t source]

theorem failuresOf_cons (a : Except E (Fin m → Option V)) (ht : t ∉ below) :
    r.failuresOf (Function.update slots t a) (t :: below) =
      failureOf r t a ++ r.failuresOf slots below := by
  have hbelow : r.failuresOf (Function.update slots t a) below = r.failuresOf slots below := by
    refine List.filterMap_congr fun u hu => ?_
    rw [Function.update_of_ne]
    rintro rfl
    exact ht hu
  rw [← hbelow, failuresOf, List.filterMap_cons, Function.update_self]
  cases a <;> rfl

def answered (t : Fin n) (a : Except E (Fin m → Option V)) (open_ : List (Fin m))
    (statuses : Fin m → KeyStatus V) (i : Fin m) : KeyStatus V :=
  if i ∈ open_ then
    match valueAt a i with
    | some v => .hit t v
    | none => statuses i
  else statuses i

/-- A tier that answers, or fails under a policy that falls through, is passed. -/
theorem Probed.cons {keys : List K} {statuses : Fin keys.length → KeyStatus V}
    {open_ : List (Fin keys.length)} {failures : List (TierFailure E)} {log : List (Event n K V E)}
    {result : Except (RouterError E)
      ((Fin keys.length → KeyStatus V) × List (Fin keys.length) × List (TierFailure E))}
    {slots : Fin n → Except E (Fin keys.length → Option V)} {called : List (Fin n)}
    (hsorted : (t :: below).Pairwise (· < ·)) (hopen : open_ ≠ [])
    (a : Except E (Fin keys.length → Option V))
    (ha : r.policy.read.onError = .failFast → ∃ values, a = .ok values)
    (h : r.Probed keys below (answered t a open_ statuses)
      (open_.filter fun i => (valueAt a i).isNone) (failures ++ failureOf r t a) log result slots
      called) :
    r.Probed keys (t :: below) statuses open_ failures
      (⟨(t, .getMany (open_.map keys.get)), a.map fun values => open_.map values⟩ :: log) result
      (Function.update slots t a) (t :: called) := by
  have hlt : ∀ u ∈ below, t < u := fun u hu => List.rel_of_pairwise_cons hsorted hu
  have hnew : t ∉ below := fun hmem => lt_irrefl t (hlt t hmem)
  have hne : ∀ u ∈ below, u ≠ t := fun u hu => (hlt u hu).ne'
  have hslot : ∀ u ∈ below, Function.update slots t a u = slots u := fun u hu =>
    Function.update_of_ne (hne u hu) _ _
  have hcalled : ∀ u ∈ called, u ∈ below := fun u hu => h.order.subset hu
  refine ⟨List.cons_prefix_cons.2 ⟨rfl, h.order⟩, ?_, ?_, ?_, ?_, ?_⟩
  · rw [List.map_cons, batchCall, leftFor_head hsorted, Function.update_self, h.calls]
    congr 1
    refine List.map_congr_left fun u hu => ?_
    rw [leftFor_tail hsorted a open_ (hcalled u hu), batchCall, batchCall, hslot u (hcalled u hu)]
  · intro x hx
    obtain rfl | hx := List.mem_cons.1 hx
    · rw [leftFor_head hsorted]
      refine ⟨fun _ => ⟨hopen, fun _ u hu hux => ?_⟩, fun _ => by simp⟩
      obtain rfl | hu := List.mem_cons.1 hu
      · exact absurd hux (lt_irrefl u)
      · exact absurd (hux.trans (hlt u hu)) (lt_irrefl u)
    · rw [leftFor_tail hsorted a open_ hx, List.mem_cons, or_iff_right (hne x hx),
        h.called_iff x hx]
      refine and_congr_right fun _ => forall_congr' fun hfast => ?_
      rw [List.forall_mem_cons, Function.update_self]
      constructor
      · refine fun hbelow => ⟨fun _ => ha hfast, fun u hu hux => ?_⟩
        rw [hslot u hu]
        exact hbelow u hu hux
      · rintro ⟨-, hbelow⟩ u hu hux
        have hu' := hbelow u hu hux
        rwa [hslot u hu] at hu'
  · intro x hx
    obtain ⟨hxt, hx⟩ := not_or.1 (mt List.mem_cons.2 hx)
    rw [Function.update_of_ne hxt]
    exact h.silent x hx
  · intro x hx source hfail hfast
    obtain rfl | hx := List.mem_cons.1 hx
    · obtain ⟨values, rfl⟩ := ha hfast
      rw [Function.update_self] at hfail
      cases hfail
    · rw [hslot x (hcalled x hx)] at hfail
      exact h.failed x hx source hfail hfast
  · intro hok
    rw [h.report fun hfast x hx => ?_]
    · rw [failuresOf_cons a hnew, List.append_assoc, List.filter_filter]
      congr 3
      · funext i
        rw [topmost_cons a hnew]
        simp only [List.mem_filter, answered]
        by_cases hi : i ∈ open_ <;> cases valueAt a i <;> simp [hi]
      · refine List.filter_congr fun i _ => ?_
        rw [Bool.eq_iff_iff]
        simp only [decide_eq_true_eq, Bool.and_eq_true, List.forall_mem_cons]
        rw [and_comm, given, Function.update_self]
        refine and_congr_right fun _ => forall₂_congr fun u hu => ?_
        rw [given, given, hslot u hu]
    · have hx' := hok hfast x (List.mem_cons_of_mem _ hx)
      rwa [hslot x (hcalled x hx)] at hx'

/-- A tier that fails under a fail-fast policy ends the probes. -/
theorem Probed.stop {keys : List K} {statuses : Fin keys.length → KeyStatus V}
    {open_ : List (Fin keys.length)} {failures : List (TierFailure E)}
    (hsorted : (t :: below).Pairwise (· < ·)) (hopen : open_ ≠ []) (source : E)
    (hfail : r.policy.read.onError = .failFast) :
    r.Probed keys (t :: below) statuses open_ failures
      [⟨(t, .getMany (open_.map keys.get)), .error source⟩] (.error (.tier (r.failure t source)))
      (Function.update (fun _ => .ok fun _ => none) t (.error source)) [t] := by
  have hlt : ∀ u ∈ below, t < u := fun u hu => List.rel_of_pairwise_cons hsorted hu
  refine ⟨by simp, ?_, fun x hx => ?_, fun x hx => ?_, fun x hx source' hsource _ => ?_,
    fun hok => ?_⟩
  · rw [List.map_singleton, batchCall, leftFor_head hsorted, Function.update_self]
    rfl
  · obtain rfl | hx := List.mem_cons.1 hx
    · rw [leftFor_head hsorted]
      refine ⟨fun _ => ⟨hopen, fun _ u hu hux => ?_⟩, fun _ => by simp⟩
      obtain rfl | hu := List.mem_cons.1 hu
      · exact absurd hux (lt_irrefl u)
      · exact absurd (hux.trans (hlt u hu)) (lt_irrefl u)
    · refine ⟨fun hxt => ?_, fun hreach => ?_⟩
      · exact absurd (List.mem_singleton.1 hxt) (hlt x hx).ne'
      · obtain ⟨values, hvalues⟩ := hreach.2 hfail t (by simp) (hlt x hx)
        rw [Function.update_self] at hvalues
        cases hvalues
  · exact Function.update_of_ne (fun e => hx (by simp [e])) _ _
  · obtain rfl := List.mem_singleton.1 hx
    rw [Function.update_self] at hsource
    cases hsource
    rfl
  · obtain ⟨values, hvalues⟩ := hok hfail t (by simp)
    rw [Function.update_self] at hvalues
    cases hvalues

theorem trace_readTiers {keys : List K} {tiers : List (Fin n)}
    (hsorted : tiers.Pairwise (· < ·)) {statuses : Fin keys.length → KeyStatus V}
    {open_ : List (Fin keys.length)} (hnd : open_.Nodup) {failures : List (TierFailure E)}
    {log : List (Event n K V E)}
    {result : Except (RouterError E)
      ((Fin keys.length → KeyStatus V) × List (Fin keys.length) × List (TierFailure E))}
    (h : (r.readTiers keys tiers statuses open_ failures).Trace log result)
    (hlen : ∀ t ks vs, ⟨(t, .getMany ks), .ok vs⟩ ∈ log → vs.length = ks.length) :
    ∃ slots called, r.Probed keys tiers statuses open_ failures log result slots called := by
  induction tiers generalizing statuses open_ failures log with
  | nil =>
    obtain ⟨rfl, rfl⟩ := h
    refine ⟨fun _ => .ok fun _ => none, [], by simp, rfl, by simp, fun _ _ => rfl, by simp,
      fun _ => ?_⟩
    simp [topmost, failuresOf]
  | cons t below ih =>
    rw [readTiers] at h
    by_cases hopen : open_ = []
    · subst hopen
      obtain ⟨rfl, rfl⟩ := h
      refine ⟨fun _ => .ok fun _ => none, [], by simp, rfl, by simp [leftFor], fun _ _ => rfl,
        by simp, fun _ => ?_⟩
      simp [failuresOf]
    · rw [if_neg (by simpa using hopen)] at h
      obtain ⟨a, rest, rfl, hrest⟩ := h
      have hlater : ∀ t ks vs, ⟨(t, .getMany ks), .ok vs⟩ ∈ rest → vs.length = ks.length :=
        fun u ks vs hmem => hlen u ks vs (List.mem_cons_of_mem _ hmem)
      cases a with
      | ok found =>
        have hfound : found.length = open_.length := by
          simpa using hlen t _ found (by simp)
        obtain ⟨values, rfl⟩ := exists_slots hnd hfound
        have hzip : open_.zip (open_.map values) = open_.map fun i => (i, values i) := by
          simpa using (@List.zip_map' _ _ _ id values open_)
        obtain ⟨hleft, hstat⟩ := Stack.resolve_spec t values open_ statuses
        change (r.readTiers keys below (resolve t (open_.zip (open_.map values)) statuses).1
          (resolve t (open_.zip (open_.map values)) statuses).2 failures).Trace rest result at hrest
        rw [hzip, hleft, funext hstat] at hrest
        obtain ⟨slots, called, hprobed⟩ := ih hsorted.of_cons (hnd.filter _) hrest hlater
        let a : Except E (Fin keys.length → Option V) := .ok values
        have hnext : r.Probed keys below (answered t a open_ statuses)
            (open_.filter fun i => (valueAt a i).isNone) (failures ++ failureOf r t a) rest result
            slots called := by
          rw [failureOf, List.append_nil]
          exact hprobed
        exact ⟨_, _, Probed.cons hsorted hopen a (fun _ => ⟨values, rfl⟩) hnext⟩
      | error source =>
        cases hfail : r.policy.read.onError with
        | failFast =>
          rw [hfail] at hrest
          obtain ⟨rfl, rfl⟩ := hrest
          exact ⟨_, _, Probed.stop hsorted hopen source hfail⟩
        | fallThrough =>
          rw [hfail] at hrest
          obtain ⟨slots, called, hprobed⟩ := ih hsorted.of_cons hnd hrest hlater
          let a : Except E (Fin keys.length → Option V) := .error source
          have hstat : answered t a open_ statuses = statuses := by
            funext i
            simp [answered, valueAt, a]
          have hleft : open_.filter (fun i => (valueAt a i).isNone) = open_ := by
            simp [valueAt, a]
          have hnext : r.Probed keys below (answered t a open_ statuses)
              (open_.filter fun i => (valueAt a i).isNone) (failures ++ failureOf r t a) rest
              result slots called := by
            rw [hstat, hleft]
            exact hprobed
          have ha : r.policy.read.onError = .failFast → ∃ values, a = .ok values := by
            rw [hfail]
            exact fun hfast => (by cases hfast)
          exact ⟨_, _, Probed.cons hsorted hopen a ha hnext⟩

/-! ## The whole read -/

theorem mem_above_iff {above below : List (Fin n)} (h : List.finRange n = above ++ t :: below)
    {u : Fin n} : u ∈ above ↔ u < t := by
  have hsorted : (above ++ t :: below).Pairwise (· < ·) := h ▸ List.pairwise_lt_finRange n
  obtain ⟨-, hbelow, hlt⟩ := List.pairwise_append.1 hsorted
  refine ⟨fun hu => hlt u hu t (by simp), fun hu => ?_⟩
  have hmem : u ∈ above ++ t :: below := h ▸ List.mem_finRange u
  obtain hmem | hmem := List.mem_append.1 hmem
  · exact hmem
  · obtain rfl | hmem := List.mem_cons.1 hmem
    · exact absurd hu (lt_irrefl u)
    · exact absurd (hu.trans (List.rel_of_pairwise_cons hbelow hmem)) (lt_irrefl u)

theorem topmost_eq_some {i : Fin m} {v : V} : topmost slots (List.finRange n) i = some (t, v) ↔
    given slots t i = some v ∧ ∀ u < t, given slots u i = none := by
  rw [topmost, List.findSome?_eq_some_iff]
  constructor
  · rintro ⟨above, u, below, hsplit, hu, hnone⟩
    obtain ⟨w, hw, heq⟩ := Option.map_eq_some_iff.1 hu
    cases heq
    refine ⟨hw, fun x hx => ?_⟩
    simpa using hnone x ((mem_above_iff hsplit).2 hx)
  · rintro ⟨hv, hnone⟩
    obtain ⟨above, below, hsplit⟩ := exists_split t
    refine ⟨above, t, below, hsplit, by simp [hv], fun x hx => ?_⟩
    simp [hnone x ((mem_above_iff hsplit).1 hx)]

theorem topmost_eq_none {i : Fin m} :
    topmost slots (List.finRange n) i = none ↔ ∀ t, given slots t i = none := by
  simp [topmost, List.findSome?_eq_none_iff]

def Copies (e : Event n K V E) : Prop :=
  (∃ es, e.1.2 = .putMany es) ∨ ∃ k v, e.1.2 = .put k v

structure ClassifiedRead (r : Router n) (keys : List K) (log : List (Event n K V E))
    (result : Except (RouterError E) (ReadReport V E))
    (slots : Fin n → Except E (Fin keys.length → Option V)) (called : List (Fin n))
    (copies : List (Event n K V E)) : Prop where
  order : called <+: List.finRange n
  calls : log = called.map (fun t => batchCall keys slots (asked slots t) t) ++ copies
  called_iff : ∀ t, t ∈ called ↔ asked slots t ≠ [] ∧
    (r.policy.read.onError = .failFast → ∀ u < t, ∃ values, slots u = .ok values)
  silent : ∀ t ∉ called, slots t = .ok fun _ => none
  promoted : ∀ e ∈ copies, Copies e
  failed : ∀ error, result = .error error ↔ r.policy.read.onError = .failFast ∧
    ∃ t ∈ called, ∃ source, slots t = .error source ∧ error = .tier (r.failure t source)
  unpromoted : ∀ error, result = .error error → copies = []
  length : ∀ report, result = .ok report → report.statuses.length = keys.length
  hit : ∀ report, result = .ok report → ∀ (i : Fin keys.length) (tier : Nat) (v : V),
    report.statuses[i.val]? = some (.hit tier v) ↔
      ∃ t ∈ called, t.val = tier ∧ given slots t i = some v ∧ ∀ u < t, given slots u i = none
  miss : ∀ report, result = .ok report → ∀ i : Fin keys.length,
    report.statuses[i.val]? = some .miss ↔
      called = List.finRange n ∧ ∀ t, ∃ values, slots t = .ok values ∧ values i = none
  inconclusive : ∀ report, result = .ok report → ∀ i : Fin keys.length,
    report.statuses[i.val]? = some .inconclusive ↔
      (∀ t, given slots t i = none) ∧ ∃ t ∈ called, ∃ source, slots t = .error source
  failures : ∀ report, result = .ok report → report.failures = r.failuresOf slots called

theorem copies_of_demote (source : Fin n) (entries : Displaced K V) :
    (r.demote (E := E) source entries).Safe
      (fun q => (∃ es, q.2 = .putMany es) ∨ ∃ k v, q.2 = .put k v) (fun _ _ => True)
      (fun _ => True) := by
  refine (demotes_of_demoteDown (fun t ht => lt_of_mem_tiersBelow ht) entries).weaken ?_
  rintro q ⟨t, k, v, rfl, -⟩
  exact Or.inr ⟨k, v, rfl⟩

theorem copies_of_promoteInto (target : Fin n) (entries : List (K × V)) :
    (r.promoteInto (E := E) target entries).Safe
      (fun q => (∃ es, q.2 = .putMany es) ∨ ∃ k v, q.2 = .put k v) (fun _ _ => True)
      (fun _ => True) := by
  rw [promoteInto, promoteWith]
  split
  · refine ⟨Or.inl ⟨entries, rfl⟩, fun a _ => ?_⟩
    cases a with
    | error source => trivial
    | ok displaced =>
      change Program.Safe _ _ _ (if _ then _ else _ : RouterM n K V E Unit)
      split
      · exact (copies_of_demote target displaced).bind fun _ _ => trivial
      · trivial
  · trivial

theorem copies_of_promoteBatch (keys : List K) (statuses : Fin keys.length → KeyStatus V) :
    (r.promoteBatch (E := E) keys statuses).Safe
      (fun q => (∃ es, q.2 = .putMany es) ∨ ∃ k v, q.2 = .put k v) (fun _ _ => True)
      (fun _ => True) := by
  have htargets (entries : List (K × V)) (targets : List (Fin n)) :
      (targets.forM fun target => r.promoteInto (E := E) target entries).Safe
        (fun q => (∃ es, q.2 = .putMany es) ∨ ∃ k v, q.2 = .put k v) (fun _ _ => True)
        (fun _ => True) := by
    induction targets with
    | nil => trivial
    | cons target rest ih => exact (copies_of_promoteInto target entries).bind fun _ _ => ih
  have htiers (tiers : List (Fin n)) : (r.promoteTiers (E := E) keys statuses tiers).Safe
      (fun q => (∃ es, q.2 = .putMany es) ∨ ∃ k v, q.2 = .put k v) (fun _ _ => True)
      (fun _ => True) := by
    induction tiers with
    | nil => trivial
    | cons t rest ih =>
      rw [promoteTiers]
      dsimp only
      split
      · exact ih
      · exact (htargets _ _).bind fun _ _ => ih
  rw [promoteBatch]
  split
  · trivial
  · exact htiers _

theorem failuresOf_called {called : List (Fin n)} (horder : called <+: List.finRange n)
    (hsilent : ∀ t ∉ called, slots t = .ok fun _ => none) :
    r.failuresOf slots (List.finRange n) = r.failuresOf slots called := by
  obtain ⟨rest, hrest⟩ := horder
  have hnd : (called ++ rest).Nodup := hrest ▸ List.nodup_finRange n
  have hnone : r.failuresOf slots rest = [] := by
    refine failuresOf_eq_nil.2 fun t ht => ⟨_, hsilent t fun hmem => ?_⟩
    exact (List.nodup_append.1 hnd).2.2 t hmem t ht rfl
  rw [← hrest, failuresOf, List.filterMap_append]
  change r.failuresOf slots called ++ r.failuresOf slots rest = _
  rw [hnone, List.append_nil]

def statusOf (r : Router n) (slots : Fin n → Except E (Fin m → Option V)) (i : Fin m) :
    KeyStatus V :=
  match topmost slots (List.finRange n) i with
  | some (t, v) => .hit t v
  | none => if r.failuresOf slots (List.finRange n) = [] then .miss else .inconclusive

theorem statusOf_hit {i : Fin m} {tier : Nat} {v : V} :
    r.statusOf slots i = .hit tier v ↔
      ∃ t : Fin n, t.val = tier ∧ given slots t i = some v ∧ ∀ u < t, given slots u i = none := by
  rw [statusOf]
  cases htop : topmost slots (List.finRange n) i with
  | none =>
    have hnone := topmost_eq_none.1 htop
    constructor
    · intro h
      dsimp only at h
      split at h <;> cases h
    · rintro ⟨t, -, hv, -⟩
      rw [hnone t] at hv
      cases hv
  | some top =>
    obtain ⟨t, w⟩ := top
    constructor
    · intro h
      cases h
      exact ⟨t, rfl, topmost_eq_some.1 htop⟩
    · rintro ⟨u, rfl, hu⟩
      rw [topmost_eq_some.2 hu] at htop
      cases htop
      rfl

theorem statusOf_miss {i : Fin m} : r.statusOf slots i = .miss ↔
    ∀ t, ∃ values, slots t = .ok values ∧ values i = none := by
  have hgiven (t : Fin n) : (∃ values, slots t = .ok values ∧ values i = none) ↔
      given slots t i = none ∧ ∃ values, slots t = .ok values := by
    rw [given]
    cases slots t <;> simp [valueAt]
  rw [forall_congr' hgiven, forall_and, ← topmost_eq_none, statusOf]
  cases topmost slots (List.finRange n) i with
  | some top => simp
  | none =>
    by_cases hfail : r.failuresOf slots (List.finRange n) = []
    · simpa [hfail] using failuresOf_eq_nil.1 hfail
    · simpa [hfail] using mt failuresOf_eq_nil.2 hfail

theorem statusOf_inconclusive {i : Fin m} : r.statusOf slots i = .inconclusive ↔
    (∀ t, given slots t i = none) ∧ ∃ t, ∃ source, slots t = .error source := by
  have hfailed : (∃ t, ∃ source, slots t = .error source) ↔
      r.failuresOf slots (List.finRange n) ≠ [] := by
    rw [ne_eq, failuresOf_eq_nil, not_forall]
    refine exists_congr fun t => ?_
    cases slots t <;> simp
  rw [hfailed, ← topmost_eq_none, statusOf]
  cases topmost slots (List.finRange n) i with
  | some top => simp
  | none => by_cases hfail : r.failuresOf slots (List.finRange n) = [] <;> simp [hfail]

theorem Probed.statuses {keys : List K} {log : List (Event n K V E)}
    {result : Except (RouterError E)
      ((Fin keys.length → KeyStatus V) × List (Fin keys.length) × List (TierFailure E))}
    {slots : Fin n → Except E (Fin keys.length → Option V)} {called : List (Fin n)}
    (h : r.Probed keys (List.finRange n) (fun _ => .miss) (List.finRange keys.length) [] log result
      slots called)
    (hok : r.policy.read.onError = .failFast → ∀ t ∈ called, ∃ values, slots t = .ok values) :
    ∃ statuses unresolved, result = .ok (statuses, unresolved, r.failuresOf slots called) ∧
      (if (r.failuresOf slots called).isEmpty then statuses
        else fun i => if i ∈ unresolved then .inconclusive else statuses i) =
          r.statusOf slots := by
  have hfailures := failuresOf_called (r := r) h.order h.silent
  refine ⟨_, _, by rw [← hfailures]; exact h.report hok, ?_⟩
  rw [← hfailures]
  funext i
  rw [statusOf]
  cases htop : topmost slots (List.finRange n) i with
  | some top =>
    obtain ⟨t, v⟩ := top
    have hgiven := (topmost_eq_some.1 htop).1
    have hleft : ¬ ∀ u, given slots u i = none := fun hnone => by
      rw [hnone t] at hgiven
      cases hgiven
    by_cases hfail : r.failuresOf slots (List.finRange n) = [] <;> simp [hfail, htop, hleft]
  | none =>
    have hleft := topmost_eq_none.1 htop
    by_cases hfail : r.failuresOf slots (List.finRange n) = [] <;> simp [hfail, htop, hleft]

/-- Batched reads classify every key: what is asked of each tier, and the status of each
position, for every answer of every call. -/
theorem readMany_classifies (r : Router n) (keys : List K) {log : List (Event n K V E)}
    {result : Except (RouterError E) (ReadReport V E)} (h : (r.readMany keys).Trace log result)
    (hlen : ∀ t ks vs, ⟨(t, .getMany ks), .ok vs⟩ ∈ log → vs.length = ks.length) :
    ∃ slots called copies, r.ClassifiedRead keys log result slots called copies := by
  obtain ⟨probes, first, copies, rfl, hprobes, hrest⟩ := Program.trace_bind.1
    (show (r.readTiers keys (List.finRange n) (fun _ => .miss) (List.finRange keys.length) [] >>=
      _ : RouterM n K V E _).Trace log result from h)
  obtain ⟨slots, called, hp⟩ := trace_readTiers (List.pairwise_lt_finRange n)
    (List.nodup_finRange _) hprobes fun t ks vs hmem => hlen t ks vs (by simp [hmem])
  have hcalled (t : Fin n) : t ∈ called ↔ asked slots t ≠ [] ∧
      (r.policy.read.onError = .failFast → ∀ u < t, ∃ values, slots u = .ok values) := by
    rw [hp.called_iff t (List.mem_finRange t)]
    simp [asked]
  have hlog : first ++ copies =
      called.map (fun t => batchCall keys slots (asked slots t) t) ++ copies := by
    rw [hp.calls]
    rfl
  refine ⟨slots, called, copies, ?_⟩
  by_cases hstop : r.policy.read.onError = .failFast ∧
      ∃ t ∈ called, ∃ source, slots t = .error source
  · obtain ⟨hfast, t, ht, source, hfail⟩ := hstop
    obtain rfl := hp.failed t ht source hfail hfast
    obtain ⟨rfl, rfl⟩ := hrest
    refine ⟨hp.order, hlog, hcalled, hp.silent, by simp, fun error => ⟨?_, ?_⟩, fun _ _ => rfl,
      fun _ hw => (by cases hw), fun _ hw => (by cases hw), fun _ hw => (by cases hw),
      fun _ hw => (by cases hw), fun _ hw => (by cases hw)⟩
    · intro herror
      cases herror
      exact ⟨hfast, t, ht, source, hfail, rfl⟩
    · rintro ⟨-, u, hu, source', hfail', rfl⟩
      exact congrArg _ (Except.error.inj (hp.failed u hu source' hfail' hfast))
  · have hok : r.policy.read.onError = .failFast → ∀ t ∈ called,
        ∃ values, slots t = .ok values := by
      intro hfast t ht
      cases hout : slots t with
      | ok values => exact ⟨values, rfl⟩
      | error source => exact absurd ⟨hfast, t, ht, source, hout⟩ hstop
    obtain ⟨statuses, unresolved, rfl, hfinal⟩ := hp.statuses hok
    obtain ⟨_, first, rest, rfl, hcopies, rfl, rfl⟩ := Program.trace_bind.1
      (show (r.promoteBatch keys _ >>= _ : RouterM n K V E _).Trace copies result from hrest)
    rw [hfinal]
    have hsome (t : Fin n) (i : Fin keys.length) (v : V) (hv : given slots t i = some v) :
        t ∈ called := by
      by_contra ht
      rw [given, hp.silent t ht] at hv
      cases hv
    have hfailed (t : Fin n) (source : E) (hsource : slots t = .error source) : t ∈ called := by
      by_contra ht
      rw [hp.silent t ht] at hsource
      cases hsource
    have hat (i : Fin keys.length) : (List.ofFn (r.statusOf slots))[i.val]? =
        some (r.statusOf slots i) := by
      simp
    refine ⟨hp.order, hlog, hcalled, hp.silent, ?_, fun error => ⟨fun hw => (by cases hw), ?_⟩,
      fun _ hw => (by cases hw), fun _ hw => ?_, fun _ hw i tier v => ?_, fun _ hw i => ?_,
      fun _ hw i => ?_, fun _ hw => ?_⟩
    · rw [List.append_nil]
      exact ((copies_of_promoteBatch keys _).trace hcopies fun _ _ => trivial).1
    · rintro ⟨hfast, t, ht, source, hsource, -⟩
      exact absurd ⟨hfast, t, ht, source, hsource⟩ hstop
    all_goals cases hw
    · exact List.length_ofFn
    · rw [hat i, Option.some_inj, statusOf_hit]
      refine exists_congr fun t => ⟨fun h => ⟨hsome t i v h.2.1, h⟩, fun h => h.2⟩
    · rw [hat i, Option.some_inj, statusOf_miss]
      refine ⟨fun h => ⟨?_, h⟩, fun h => h.2⟩
      have hall : List.finRange n ⊆ called := by
        intro t _
        refine (hcalled t).2 ⟨List.ne_nil_of_mem (a := i) ?_, fun _ u _ => ?_⟩
        · refine List.mem_filter.2 ⟨List.mem_finRange i, decide_eq_true fun u _ _ => ?_⟩
          obtain ⟨values, hu, hi⟩ := h u
          simp [given, hu, valueAt, hi]
        · obtain ⟨values, hu, -⟩ := h u
          exact ⟨values, hu⟩
      refine hp.order.eq_of_length_le ?_
      exact (List.subperm_of_subset (List.nodup_finRange n) hall).length_le
    · rw [hat i, Option.some_inj, statusOf_inconclusive]
      refine and_congr_right fun _ => exists_congr fun t => ?_
      exact ⟨fun ⟨source, h⟩ => ⟨hfailed t source h, source, h⟩, fun h => h.2⟩
    · rfl

theorem readMany_classifies_repeats : ∃ slots called copies,
    (Router.uniform 2 "memory" Policy.default).ClassifiedRead (V := Nat) (E := String) [1, 2, 1]
      [⟨(0, .getMany [1, 2, 1]), .ok [some 5, none, some 5]⟩, ⟨(1, .getMany [2]), .error "down"⟩]
      (.ok ⟨[.hit 0 5, .inconclusive, .hit 0 5], [⟨1, "memory", "down"⟩]⟩) slots called copies := by
  have h : ((Router.uniform 2 "memory" Policy.default).readMany (V := Nat) (E := String)
      [1, 2, 1]).Trace
      [⟨(0, .getMany [1, 2, 1]), .ok [some 5, none, some 5]⟩, ⟨(1, .getMany [2]), .error "down"⟩]
      (.ok ⟨[.hit 0 5, .inconclusive, .hit 0 5], [⟨1, "memory", "down"⟩]⟩) :=
    ⟨.ok [some 5, none, some 5], _, rfl, .error "down", _, rfl, rfl, rfl⟩
  refine readMany_classifies _ _ h fun t ks vs hmem => ?_
  simp only [List.mem_cons, List.not_mem_nil, or_false] at hmem
  obtain hmem | hmem := hmem
  · cases hmem
    rfl
  · cases hmem

end Router
end Tierstore
