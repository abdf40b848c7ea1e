import Tierstore.Front

/-! What the client of an inclusive hierarchy sees, and what crosses to its bottom tier: two
maps, one of them in front of the other. -/
namespace Tierstore
open Overlay Effects

namespace TierCall
variable {K V : Type}

def sought : TierCall K V → List K
  | .get key => [key]
  | .exists_ key => [key]
  | .getMany keys => keys
  | _ => []

end TierCall

namespace RouterCall
variable {K V : Type}

def fetched : RouterCall K V → List K
  | .get key => [key]
  | .getMany keys => keys
  | .readMany keys => keys
  | .readOne key => [key]
  | _ => []

def dropped : RouterCall K V → List K
  | .delete key => [key]
  | .deleteMany keys => keys
  | .removeMany keys => keys
  | _ => []

end RouterCall

/-- The map of the bottom tier, and the part of it that the tiers above have as well. -/
structure Catalogue (K V : Type) where
  origin : K → Option V
  near : K → Option V
  agree : ∀ k v, near k = some v → origin k = some v

namespace Catalogue
variable {K V : Type} [DecidableEq K]

def write (m : Catalogue K V) (entries : List (K × V)) : Catalogue K V where
  origin := Overlay.write m.origin entries
  near := Overlay.write m.near entries
  agree := (Within.write ⟨m.agree, fun h : False => h.elim⟩ entries).1

def erase (m : Catalogue K V) (keys : List K) : Catalogue K V where
  origin := eraseAll m.origin keys
  near := eraseAll m.near keys
  agree := (Within.eraseAll ⟨m.agree, fun h : False => h.elim⟩ keys).1

def copy (m : Catalogue K V) (keys : List K) : Catalogue K V where
  origin := m.origin
  near := fun k => if keys.contains k then m.origin k else m.near k
  agree := by
    intro k v h
    split at h
    · exact h
    · exact m.agree k v h

def read (m : Catalogue K V) (promotes : Bool) (keys : List K) : Catalogue K V :=
  if promotes then m.copy keys else m

def step (promotes : Bool) (m : Catalogue K V) : RouterCall K V → Catalogue K V
  | .get key => m.read promotes [key]
  | .exists_ _ => m
  | .getMany keys => m.read promotes keys
  | .put key value => m.write [(key, value)]
  | .delete key => m.erase [key]
  | .putMany entries => m.write entries
  | .deleteMany keys => m.erase keys
  | .readMany keys => m.read promotes keys
  | .readOne key => m.read promotes [key]
  | .removeMany keys => m.erase keys

/-- The one call, if any, that the bottom tier gets to see. -/
def asks (m : Catalogue K V) : RouterCall K V → Option (TierCall K V)
  | .get key => if (m.near key).isNone then some (.get key) else none
  | .exists_ key => if (m.near key).isNone then some (.exists_ key) else none
  | .getMany keys => fetches m.near keys
  | .put key value => some (.put key value)
  | .delete key => some (.delete key)
  | .putMany entries => some (.putMany entries)
  | .deleteMany keys => some (.deleteMany keys)
  | .readMany keys => fetches m.near keys
  | .readOne key => fetches m.near [key]
  | .removeMany keys => some (.deleteMany keys)

/-- The calls that the bottom tier gets to see in a history. -/
def script (promotes : Bool) : Catalogue K V → List (RouterCall K V) → List (TierCall K V)
  | _, [] => []
  | m, c :: cs => (m.asks c).toList ++ script promotes (m.step promotes c) cs

/-- The answer of the bottom tier's map; a report tells besides whether it had to be asked. -/
def Answers {n : Nat} {E : Type} (m : Catalogue K V) (l : Layout n) :
    (c : RouterCall K V) → c.Output E → Prop
  | .get key, a => a = some (.ok (m.origin key))
  | .exists_ key, a => a = some (.ok (m.origin key).isSome)
  | .getMany keys, a => a = .ok (keys.map m.origin)
  | .put _ _, a => a = .ok []
  | .delete key, a => a = .ok (m.origin key).isSome
  | .putMany _, a => a = .ok []
  | .deleteMany keys, a => a = .ok (firstFlags (fun k => (m.origin k).isSome) keys)
  | .readMany keys, a => ∃ statuses, a = .ok { statuses, failures := [] } ∧
      List.Forall₂ (l.Told m.near m.origin) keys statuses
  | .readOne key, a => ∃ status, a = .ok { status, failures := [] } ∧
      l.Told m.near m.origin key status
  | .removeMany keys, a => a =
      { removed := firstFlags (fun k => (m.origin k).isSome) keys, failures := [] }

variable {m : Catalogue K V} {keys : List K} {es : List (K × V)}

omit [DecidableEq K] in
theorem atop_origin (m : Catalogue K V) : atop m.near m.origin = m.origin := by
  funext k
  cases h : m.near k with
  | none => exact atop_of_none h _
  | some v => rw [atop_of_some h, m.agree k v h]

/-- Entries of the bottom tier's map, among them all that it alone has of the keys. -/
theorem write_eq_copy (hes : ∀ e ∈ es, e.1 ∈ keys ∧ m.origin e.1 = some e.2)
    (hall : ∀ k v, k ∈ keys → m.near k = none → m.origin k = some v → (k, v) ∈ es) :
    Overlay.write m.near es = (m.copy keys).near := by
  funext k
  change Overlay.write m.near es k = if keys.contains k then m.origin k else m.near k
  cases hlatest : latest es k with
  | some v =>
    obtain ⟨hk, hv⟩ := hes (k, v) (latest_mem hlatest)
    rw [if_pos (List.contains_iff_mem.2 hk), hv]
    exact atop_of_some hlatest _
  | none =>
    rw [Overlay.write, atop_of_none hlatest]
    split
    · next hk =>
      cases hnear : m.near k with
      | some v => exact (m.agree k v hnear).symm
      | none =>
        cases hv : m.origin k with
        | none => rfl
        | some v =>
          have hmem := hall k v (List.contains_iff_mem.1 hk) hnear hv
          exact absurd (List.mem_map.2 ⟨_, hmem, rfl⟩) (latest_eq_none.1 hlatest)
    · rfl

/-! ### A key that the tiers above have -/
section Kept
variable {promotes : Bool} {c : RouterCall K V} {key : K}

theorem isSome_write (n : K → Option V) (h : key ∈ es.map Prod.fst) :
    (Overlay.write n es key).isSome = true := by
  cases hlatest : latest es key with
  | some v => rw [Overlay.write, atop_of_some hlatest, Option.isSome_some]
  | none => exact absurd h (latest_eq_none.1 hlatest)

theorem isSome_write_of_isSome {n : K → Option V} (h : (n key).isSome = true) :
    (Overlay.write n es key).isSome = true := by
  cases hlatest : latest es key with
  | some v => rw [Overlay.write, atop_of_some hlatest, Option.isSome_some]
  | none => rwa [Overlay.write, atop_of_none hlatest]

theorem read_near (hkey : key ∈ keys) : (m.read true keys).near key = m.origin key :=
  if_pos (List.contains_iff_mem.2 hkey)

theorem read_keeps (h : (m.near key).isSome = true) :
    ((m.read promotes keys).near key).isSome = true := by
  obtain ⟨v, hv⟩ := Option.isSome_iff_exists.1 h
  cases promotes with
  | false => exact h
  | true =>
    change (if keys.contains key then m.origin key else m.near key).isSome = true
    rw [m.agree key v hv, hv, ite_self, Option.isSome_some]

theorem erase_keeps (h : (m.near key).isSome = true) (hkey : key ∉ keys) :
    ((m.erase keys).near key).isSome = true := by
  change (eraseAll m.near keys key).isSome = true
  rwa [eraseAll, if_neg hkey]

/-- Writing a key, or reading it with promotion, brings it up. -/
theorem step_brings
    (hkey : key ∈ c.written.map Prod.fst ∨ promotes = true ∧ key ∈ c.fetched)
    (hfound : ((m.step promotes c).origin key).isSome = true) :
    ((m.step promotes c).near key).isSome = true := by
  have hread : ∀ keys, key ∈ ([] : List K) ∨ promotes = true ∧ key ∈ keys →
      ((m.read promotes keys).origin key).isSome = true →
      ((m.read promotes keys).near key).isSome = true := by
    intro keys hmem h
    obtain ⟨rfl, hkeys⟩ := hmem.resolve_left List.not_mem_nil
    rwa [read_near hkeys]
  have hnone : ¬ (key ∈ ([] : List K) ∨ promotes = true ∧ key ∈ ([] : List K)) := by simp
  cases c with
  | put k v => exact isSome_write _ (hkey.resolve_right fun h => by cases h.2)
  | putMany entries => exact isSome_write _ (hkey.resolve_right fun h => by cases h.2)
  | get k => exact hread [k] hkey hfound
  | readOne k => exact hread [k] hkey hfound
  | getMany ks => exact hread ks hkey hfound
  | readMany ks => exact hread ks hkey hfound
  | exists_ k => exact absurd hkey hnone
  | delete k => exact absurd hkey hnone
  | deleteMany ks => exact absurd hkey hnone
  | removeMany ks => exact absurd hkey hnone

/-- Only a deletion takes it away again. -/
theorem step_keeps (h : (m.near key).isSome = true) (hkey : key ∉ c.dropped) :
    ((m.step promotes c).near key).isSome = true := by
  cases c with
  | get k => exact read_keeps h
  | exists_ k => exact h
  | getMany ks => exact read_keeps h
  | put k v => exact isSome_write_of_isSome h
  | delete k => exact erase_keeps h hkey
  | putMany entries => exact isSome_write_of_isSome h
  | deleteMany ks => exact erase_keeps h hkey
  | readMany ks => exact read_keeps h
  | readOne k => exact read_keeps h
  | removeMany ks => exact erase_keeps h hkey

omit [DecidableEq K] in
theorem asks_quiet (h : (m.near key).isSome = true) {call : TierCall K V}
    (hcall : call ∈ m.asks c) : key ∉ call.sought := by
  have hfar : ∀ k, (m.near k).isNone = true → k ≠ key := by
    rintro k hk rfl
    rw [Option.isNone_iff_eq_none.1 hk] at h
    cases h
  have hsingle : ∀ k (probe : TierCall K V), probe.sought = [k] →
      call ∈ (if (m.near k).isNone then some probe else none) → key ∉ call.sought := by
    intro k probe hprobe hmem
    split at hmem
    · next hk =>
      obtain rfl := Option.some.inj hmem
      rw [hprobe]
      exact fun hkey => hfar k hk (List.mem_singleton.1 hkey).symm
    · cases hmem
  have hbatch : ∀ keys, call ∈ fetches m.near keys → key ∉ call.sought := by
    intro keys hmem
    rw [fetches] at hmem
    split at hmem
    · cases hmem
    · obtain rfl := Option.some.inj hmem
      exact fun hkey => hfar key (List.mem_filter.1 hkey).2 rfl
  have hnone : ∀ change : TierCall K V, change.sought = [] → call ∈ some change →
      key ∉ call.sought := by
    intro change hchange hmem
    obtain rfl := Option.some.inj hmem
    rw [hchange]
    exact List.not_mem_nil
  cases c with
  | get k => exact hsingle k (.get k) rfl hcall
  | exists_ k => exact hsingle k (.exists_ k) rfl hcall
  | getMany ks => exact hbatch ks hcall
  | readMany ks => exact hbatch ks hcall
  | readOne k => exact hbatch [k] hcall
  | put k v => exact hnone (.put k v) rfl hcall
  | putMany entries => exact hnone (.putMany entries) rfl hcall
  | delete k => exact hnone (.delete k) rfl hcall
  | deleteMany ks => exact hnone (.deleteMany ks) rfl hcall
  | removeMany ks => exact hnone (.deleteMany ks) rfl hcall

theorem script_quiet {cs : List (RouterCall K V)} (h : (m.near key).isSome = true)
    (hcs : ∀ c ∈ cs, key ∉ c.dropped) : ∀ call ∈ m.script promotes cs, key ∉ call.sought := by
  induction cs generalizing m with
  | nil => exact List.forall_mem_nil _
  | cons c cs ih =>
    intro call hcall
    obtain hcall | hcall := List.mem_append.1 hcall
    · exact asks_quiet h (Option.mem_toList.1 hcall)
    · exact ih (step_keeps h (hcs c List.mem_cons_self))
        (fun c' hc' => hcs c' (List.mem_cons_of_mem c hc')) call hcall

end Kept
end Catalogue

namespace Layout
variable {n : Nat} {l : Layout n} {K V : Type} {m : Catalogue K V} {key : K}
  {status : KeyStatus V}

/-- Either way the status tells what the bottom tier's map has. -/
theorem Told.cases (h : l.Told m.near m.origin key status) :
    (∃ t v, status = .hit t v ∧ m.origin key = some v) ∨
      (status = .miss ∧ m.origin key = none) := by
  rw [Told] at h
  cases hnear : m.near key with
  | some v =>
    rw [hnear] at h
    obtain ⟨t, -, rfl⟩ := h
    exact Or.inl ⟨t, v, rfl, m.agree key v hnear⟩
  | none =>
    rw [hnear] at h
    obtain rfl := h
    cases m.origin key with
    | some v => exact Or.inl ⟨l.origin, v, rfl, rfl⟩
    | none => exact Or.inr ⟨rfl, rfl⟩

theorem Told.value (h : l.Told m.near m.origin key status) : status.value = m.origin key := by
  obtain ⟨t, v, rfl, hv⟩ | ⟨rfl, hv⟩ := h.cases <;> exact hv.symm

theorem Told.isInconclusive (h : l.Told m.near m.origin key status) :
    status.isInconclusive = false := by
  obtain ⟨t, v, rfl, -⟩ | ⟨rfl, -⟩ := h.cases <;> rfl

theorem told_values {keys : List K} {statuses : List (KeyStatus V)}
    (h : List.Forall₂ (l.Told m.near m.origin) keys statuses) :
    statuses.map KeyStatus.value = keys.map m.origin ∧
      statuses.any KeyStatus.isInconclusive = false := by
  induction h with
  | nil => exact ⟨rfl, rfl⟩
  | cons hkey _ ih =>
    rw [List.map_cons, List.map_cons, List.any_cons, hkey.value, hkey.isInconclusive, ih.1, ih.2]
    exact ⟨rfl, rfl⟩

end Layout

/-! ## Whole calls -/
section Calls
variable {T K V E : Type} {n : Nat} [DecidableEq K] [Tier T K V E] [LawfulTier T]

/-- The stack has the two maps: one in its bottom tier, one above it. -/
structure Fronts (P : K → V → Prop) (U : T → Prop) (l : Layout n) (m : Catalogue K V)
    (s : Stack T n) : Prop where
  origin : s.held l.origin = m.origin
  near : s.view l.near = m.near
  vouches : s.Vouches P
  warm : U (s l.warm).tier
  bottom : U (s l.origin).tier

/-- The call is answered from the bottom tier's map, which is met at most once for it. -/
structure Faced (P : K → V → Prop) (U : T → Prop) (l : Layout n) (promotes : Bool)
    (m : Catalogue K V) (s : Stack T n) (c : RouterCall K V) (out : c.Output E × Stack T n) :
    Prop where
  answer : m.Answers l c out.1
  fronts : Fronts P U l (m.step promotes c) out.2
  asked : out.2 l.origin = (s l.origin).served (m.asks c)

section Fronts
variable {P : K → V → Prop} {U : T → Prop} {l : Layout n} {m : Catalogue K V} {s : Stack T n}

theorem Fronts.known (h : Fronts P U l m s) {k : K} {v : V} (hk : m.origin k = some v) : P k v :=
  h.vouches l.origin k v (h.origin ▸ hk)

theorem Fronts.shows (h : Fronts P U l m s) : s.shown = m.origin := by
  rw [Stack.shown, l.finRange_eq, Stack.view_append, h.near]
  have horigin : s.view [l.origin] = m.origin := by
    rw [Stack.view_cons, h.origin]
    exact atop_empty _
  rw [horigin, m.atop_origin]

theorem Fronts.undisturbed (hU : Keeping U) {s' : Stack T n} (h : Fronts P U l m s)
    (hund : Stack.Undisturbed s s') : Fronts P U l m s' where
  origin := by rw [hund.held, h.origin]
  near := by rw [hund.view, h.near]
  vouches := fun i => by rw [hund.held]; exact h.vouches i
  warm := hund.keeps U hU _ h.warm
  bottom := hund.keeps U hU _ h.bottom

/-- Some tier has the key if and only if the bottom one has. -/
theorem Fronts.any_held (h : Fronts P U l m s) (k : K) :
    (List.finRange n).any (fun t => (s.held t k).isSome) = (m.origin k).isSome := by
  cases hk : m.origin k with
  | some v =>
    refine List.any_eq_true.2 ⟨l.origin, List.mem_finRange _, ?_⟩
    rw [h.origin, hk]
    rfl
  | none =>
    refine List.any_eq_false.2 fun t ht => ?_
    have hshown : s.shown k = none := h.shows ▸ hk
    simp [stacked_eq_none.1 hshown t ht]

theorem view_erased {s' : Stack T n} {keys : List K}
    (herased : ∀ t, s'.held t = eraseAll (s.held t) keys) (tiers : List (Fin n)) :
    s'.view tiers = eraseAll (s.view tiers) keys := by
  induction tiers with
  | nil =>
    funext k
    simp [Stack.view, stacked, eraseAll]
  | cons t tiers ih => rw [Stack.view_cons, Stack.view_cons, herased, ih, eraseAll_atop]

theorem Fronts.erased (hU : Keeping U) {keys : List K} {α : Type} {p : RouterM n K V E α}
    (h : Fronts P U l m s)
    (herased : ∀ t, (Stack.run p s).2.held t = eraseAll (s.held t) keys) :
    Fronts P U l (m.erase keys) (Stack.run p s).2 where
  origin := by rw [herased, h.origin, Catalogue.erase]
  near := by rw [view_erased herased, h.near, Catalogue.erase]
  vouches t k v hv := by
    rw [herased] at hv
    exact h.vouches t k v (eraseAll_eq_some.1 hv).2
  warm := Stack.run_keeps hU p l.warm h.warm
  bottom := Stack.run_keeps hU p l.origin h.bottom

end Fronts

namespace Router
variable (r : Router n) {P : K → V → Prop} {U : T → Prop} {l : Layout n} {m : Catalogue K V}
  {s : Stack T n}

def promotes : Bool := decide (r.policy.read.promote ≠ .never)

omit [Tier T K V E] [LawfulTier T] in
theorem promotes_never (h : r.policy.read.promote = .never) (keys : List K) :
    m.read r.promotes keys = m := by
  simp [Catalogue.read, promotes, h]

omit [Tier T K V E] [LawfulTier T] in
theorem promotes_copy (h : r.policy.read.promote ≠ .never) (keys : List K) :
    m.read r.promotes keys = m.copy keys := by
  simp [Catalogue.read, promotes, h]

section Reading
variable (hw : ∀ i, r.writable i = true) (hd : r.policy.demoteDisplaced = true)
  (hacc : Accepting T P) (hU : Keeping U)
include hw hd hacc hU

omit hw hd hacc hU in
/-- What the tiers above have taken in has been read from the bottom tier's map. -/
theorem takesIn_front {es : List (K × V)} {keys : List K} {s' : Stack T n}
    (h : Fronts P U l m s) (htakes : TakesIn P U l es s s')
    (hnever : r.policy.read.promote = .never → es = [])
    (hes : ∀ e ∈ es, e.1 ∈ keys ∧ m.origin e.1 = some e.2)
    (hall : r.policy.read.promote ≠ .never → ∀ k v, k ∈ keys → m.near k = none →
      m.origin k = some v → (k, v) ∈ es) :
    Fronts P U l (m.read r.promotes keys) s' := by
  have hnear : s'.view l.near = (m.read r.promotes keys).near := by
    rw [htakes.near, h.near]
    by_cases hp : r.policy.read.promote = .never
    · rw [r.promotes_never hp, hnever hp, write_nil]
    · rw [r.promotes_copy hp, Catalogue.write_eq_copy hes (hall hp)]
  have horigin : (m.read r.promotes keys).origin = m.origin := by
    rw [Catalogue.read]
    split <;> rfl
  refine ⟨?_, hnear, htakes.vouches, htakes.warm, ?_⟩
  · rw [horigin, Stack.held_congr htakes.origin, h.origin]
  · rw [htakes.origin]
    exact h.bottom

/-- The batched read, by the statuses it reports. -/
theorem readMany_front (keys : List K) (h : Fronts P U l m s) :
    ∃ statuses, (Stack.run (r.readMany keys) s).1 = .ok { statuses, failures := [] } ∧
      List.Forall₂ (l.Told m.near m.origin) keys statuses ∧
      Fronts P U l (m.read r.promotes keys) (Stack.run (r.readMany keys) s).2 ∧
      (Stack.run (r.readMany keys) s).2 l.origin =
        (s l.origin).served (fetches m.near keys) := by
  obtain ⟨statuses, unresolved, s₁, hrun, hund, hasked, htold⟩ :=
    r.run_readAll (l := l) hacc keys s
  rw [h.near, h.origin] at htold
  rw [h.near] at hasked
  have h₁ := h.undisturbed hU hund
  have hvalue : ∀ i v, (statuses i).value = some v → m.origin (keys.get i) = some v :=
    fun i v hv => (htold i).value.symm.trans hv
  have htakes := r.promoteBatch_near hw hd hacc hU
    (fun i v hv => ⟨h.known (hvalue i v hv), hvalue i v hv⟩) h₁.vouches h₁.warm
    (by rw [h₁.near]; exact m.agree)
  rw [readMany, Stack.run_bind, hrun]
  simp only [List.isEmpty_nil, if_true, Stack.run_bind]
  refine ⟨_, rfl, ?_, ?_, ?_⟩
  · rw [List.forall₂_iff_get]
    refine ⟨by simp, fun i h₁ h₂ => ?_⟩
    simpa using htold ⟨i, h₁⟩
  · refine r.takesIn_front h₁ htakes (fun hp => if_pos hp) (fun e he => ?_)
      fun hp k v hk hnear hv => ?_
    · split at he
      · cases he
      · obtain ⟨i, hkey, hv⟩ := r.mem_copied he
        exact ⟨hkey ▸ List.get_mem keys i, hkey ▸ hvalue i e.2 hv⟩
    · rw [if_neg hp]
      exact r.mem_copied_of_told hp htold hk hnear hv
  · exact htakes.origin.trans hasked

/-- A hit of the single-key read is copied upwards. -/
theorem promote_front {key : K} {v : V} (h : Fronts P U l m s) (hv : m.origin key = some v)
    {t : Fin n} (ht : t ≠ l.origin → m.near key = some v) :
    Fronts P U l (m.read r.promotes [key]) (Stack.run ((r.hitTargets t).forM fun target =>
        (r.promoteOne target key (some v) : RouterM n K V E Unit)) s).2 ∧
      (Stack.run ((r.hitTargets t).forM fun target =>
        (r.promoteOne target key (some v) : RouterM n K V E Unit)) s).2 l.origin =
        s l.origin := by
  have htargets : ∀ target ∈ r.hitTargets t, target ≠ l.origin := by
    intro target htarget
    rw [hitTargets] at htarget
    split at htarget
    · cases htarget
    · next hzero => exact r.promoteTargets_ne_origin hzero htarget
  have htakes := r.forM_near hw hd hacc hU (puts_put hacc hU (h.known hv)) (m := m.origin)
    (by simpa using hv) htargets h.vouches h.warm (by rw [h.near]; exact m.agree)
  refine ⟨r.takesIn_front h htakes (fun hp => ?_) (fun e he => ?_) fun hp k u hk hnear hu => ?_,
    htakes.origin⟩
  · rw [hitTargets, promoteTargets, hp, ite_self]
    rfl
  · obtain ⟨-, -, he⟩ := List.mem_flatMap.1 he
    obtain rfl := List.mem_singleton.1 he
    exact ⟨List.mem_cons_self, hv⟩
  · obtain rfl := List.mem_singleton.1 hk
    obtain rfl : v = u := Option.some.inj (hv.symm.trans hu)
    have horigin : t = l.origin := by
      by_contra hne
      rw [ht hne] at hnear
      cases hnear
    have hne : r.hitTargets t ≠ [] := by
      rw [hitTargets, horigin, if_neg (origin_val_ne_zero l)]
      exact r.promoteTargets_ne_nil hp (origin_val_ne_zero l)
    obtain ⟨target, htarget⟩ := List.exists_mem_of_ne_nil _ hne
    exact List.mem_flatMap.2 ⟨target, htarget, List.mem_cons_self⟩

theorem get_front (key : K) (h : Fronts P U l m s) :
    Faced P U l r.promotes m s (.get key) (Stack.run (r.get key) s) := by
  obtain ⟨s₁, hund, hothers, hres⟩ := r.run_readDown hacc key l.near [l.origin] s
  have h₁ := h.undisturbed hU hund
  have hs₁ : s₁ l.origin = s l.origin := hothers l.origin l.origin_not_mem
  rw [h.near, ← l.finRange_eq] at hres
  rw [get_eq, Stack.run_map]
  obtain ⟨hnear, hrun⟩ | ⟨t, ht, v, hnear, hrun⟩ := hres
  · have hund₂ := Stack.get_undisturbed l.origin key s₁
    have hslot := Stack.exec_served l.origin (.get key) s₁
    have hans := Stack.exec_get hacc l.origin s₁ key
    rw [h₁.origin] at hans
    have h₂ := h₁.undisturbed hU hund₂
    rw [hs₁] at hslot
    rw [hrun, readDown]
    simp only [Stack.run_bind, Stack.run_getAt, hans]
    cases hv : m.origin key with
    | none =>
      refine ⟨by simp [Catalogue.Answers, hv, readDown, exhausted], ?_, ?_⟩
      · refine r.takesIn_front h₂ (.refl h₂.vouches h₂.warm) (fun _ => rfl)
          (List.forall_mem_nil _) fun _ k v hk _ hk' => ?_
        obtain rfl := List.mem_singleton.1 hk
        rw [hv] at hk'
        cases hk'
      · simpa [Catalogue.asks, hnear, readDown] using hslot
    | some v =>
      obtain ⟨hfronts, horigin⟩ :=
        r.promote_front hw hd hacc hU h₂ hv fun hne => absurd rfl hne
      refine ⟨by simp [Catalogue.Answers, hv], ?_, ?_⟩
      · simpa [Catalogue.step] using hfronts
      · simpa [Catalogue.asks, hnear, hslot] using horigin
  · have hv := m.agree key v hnear
    obtain ⟨hfronts, horigin⟩ := r.promote_front hw hd hacc hU h₁ hv fun _ => hnear
    rw [hrun]
    refine ⟨by simp [Catalogue.Answers, hv], hfronts, ?_⟩
    rw [horigin, hs₁]
    simp [Catalogue.asks, hnear, Slot.served]

omit hw hd in
theorem exists_front (key : K) (h : Fronts P U l m s) :
    Faced P U l r.promotes m s (.exists_ key) (Stack.run (r.exists_ key) s) := by
  obtain ⟨s₁, hund, hothers, hrun⟩ := r.run_existsDown hacc key l.near [l.origin] s
  have h₁ := h.undisturbed hU hund
  have hs₁ : s₁ l.origin = s l.origin := hothers l.origin l.origin_not_mem
  rw [h.near, ← l.finRange_eq] at hrun
  rw [exists_eq, Stack.run_map, hrun]
  cases hnear : m.near key with
  | some v =>
    have hv := m.agree key v hnear
    refine ⟨by simp [Catalogue.Answers, hv], h₁, ?_⟩
    simp [Catalogue.asks, hnear, Slot.served, hs₁]
  | none =>
    have hslot := Stack.exec_served l.origin (.exists_ key) s₁
    have hans := Stack.exec_exists hacc l.origin s₁ key
    rw [h₁.origin] at hans
    have h₂ := h₁.undisturbed hU (Stack.exists_undisturbed l.origin key s₁)
    rw [hs₁] at hslot
    simp only [Option.isSome_none, Bool.false_eq_true, if_false, existsDown, Stack.run_bind,
      Stack.run_existsAt, hans]
    cases hv : (m.origin key).isSome with
    | true => exact ⟨by simp [Catalogue.Answers, hv], h₂, by simp [Catalogue.asks, hnear, hslot]⟩
    | false =>
      exact ⟨by simp [Catalogue.Answers, hv, exhausted], h₂,
        by simp [Catalogue.asks, hnear, hslot]⟩

theorem getMany_front (keys : List K) (h : Fronts P U l m s) :
    Faced P U l r.promotes m s (.getMany keys) (Stack.run (r.getMany keys) s) := by
  obtain ⟨statuses, hans, htold, hfronts, hasked⟩ := r.readMany_front hw hd hacc hU keys h
  obtain ⟨hvalues, hconclusive⟩ := Layout.told_values htold
  rw [getMany, Stack.run_bind, hans]
  simp only [hconclusive, Bool.false_eq_true, if_false]
  exact ⟨congrArg Except.ok hvalues, hfronts, hasked⟩

theorem readOne_front (key : K) (h : Fronts P U l m s) :
    Faced P U l r.promotes m s (.readOne key) (Stack.run (r.readOne key) s) := by
  obtain ⟨statuses, hans, htold, hfronts, hasked⟩ := r.readMany_front hw hd hacc hU [key] h
  obtain ⟨status, rest, hstatus, hrest, rfl⟩ := List.forall₂_cons_left_iff.1 htold
  obtain rfl := List.forall₂_nil_left_iff.1 hrest
  rw [readOne, Stack.run_bind, hans]
  exact ⟨⟨status, rfl, hstatus⟩, hfronts, hasked⟩

end Reading

/-! ## Writes and deletions -/
section Writing
variable (hw : ∀ i, r.writable i = true) (hacc : Accepting T P) (hU : Keeping U)
include hw hacc hU

/-- A write-through of either kind, through the call that it makes of the bottom tier. -/
theorem write_front (hd : r.policy.demoteDisplaced = true)
    {w : Fin n → RouterM n K V E (Except E (Displaced K V))} {es : List (K × V)}
    (hputs : Puts T P U w es) (h : Fronts P U l m s) :
    (Stack.run (r.writeThrough w (List.finRange n).reverse []) s).1 = .ok [] ∧
      Fronts P U l (m.write es)
        (Stack.run (r.writeThrough w (List.finRange n).reverse []) s).2 ∧
      (Stack.run (r.writeThrough w (List.finRange n).reverse []) s).2 l.origin =
        (Stack.run (w l.origin) s).2 l.origin := by
  obtain ⟨s', hrun, hnear, horigin, hbottom, hs'⟩ :=
    r.writeThrough_front hw hd hacc hU hputs h.vouches h.warm h.bottom
  have hwarm := Stack.run_keeps hU (r.writeThrough w (List.finRange n).reverse []) l.warm h.warm
  have hkeep := Stack.run_keeps hU (r.writeThrough w (List.finRange n).reverse []) l.origin
    h.bottom
  rw [hrun] at hwarm hkeep ⊢
  rw [h.near] at hnear
  rw [h.origin] at horigin
  exact ⟨rfl, ⟨horigin, hnear, hs', hwarm, hkeep⟩, hbottom⟩

omit [DecidableEq K] [LawfulTier T] hacc hU in
theorem each_served (call : TierCall K V) (s : Stack T n) (t : Fin n) :
    s.each call (r.writables (List.finRange n)) t = (s t).served (some call) := by
  rw [r.writables_all hw, Stack.each_of_mem (List.mem_finRange t), Stack.exec_served]

theorem delete_front (key : K) (h : Fronts P U l m s) :
    Faced P U l r.promotes m s (.delete key) (Stack.run (r.delete key) s) := by
  have hans : ∀ t, (Tier.call (s t).tier (.delete key)).1 =
      .ok ((fun t => (s.held t key).isSome : Fin n → Bool) t) :=
    fun t => Stack.exec_delete hacc t s key
  have hslot : ∀ t, (Stack.run (r.delete key) s).2 t = (s t).served (some (.delete key)) :=
    fun t => (congrArg (fun out => out.2 t) (r.run_delete key s)).trans
      (r.each_served hw (.delete key) s t)
  have herased : ∀ t, (Stack.run (r.delete key) s).2.held t = eraseAll (s.held t) [key] := by
    intro t
    rw [Stack.held, hslot, eraseAll_singleton]
    exact LawfulTier.delete_ok (s t).tier key _ (hans t)
  refine ⟨?_, h.erased hU herased, hslot l.origin⟩
  · have hall := r.answers_all hw (.delete key) hans
    rw [run_delete, hall, deleted, r.refusals_all]
    simp only [List.isEmpty_nil, if_true, Catalogue.Answers, anyPresent, List.any_map, ← h.any_held]
    rfl

/-- The batched delete, in the form that reports. -/
theorem removeMany_front (keys : List K) (h : Fronts P U l m s) :
    Faced P U l r.promotes m s (.removeMany keys) (Stack.run (r.removeMany keys) s) := by
  have hans : ∀ t, (Tier.call (s t).tier (.deleteMany keys)).1 =
      .ok ((fun t => firstFlags (fun k => (s.held t k).isSome) keys : Fin n → List Bool) t) :=
    fun t => Stack.exec_deleteMany hacc t s keys
  have hslot : ∀ t, (Stack.run (r.removeMany keys) s).2 t =
      (s t).served (some (.deleteMany keys)) :=
    fun t => (congrArg (fun out => out.2 t) (r.run_removeMany keys s)).trans
      (r.each_served hw (.deleteMany keys) s t)
  have herased : ∀ t, (Stack.run (r.removeMany keys) s).2.held t = eraseAll (s.held t) keys := by
    intro t
    rw [Stack.held, hslot]
    exact LawfulTier.deleteMany_ok (s t).tier keys _ (hans t)
  refine ⟨?_, h.erased hU herased, hslot l.origin⟩
  · have hall := r.answers_all hw (.deleteMany keys) hans
    rw [run_removeMany, hall, deleteReport, r.refusals_all, ← firstFlags_false,
      orAnswers_firstFlags]
    simp only [Catalogue.Answers, Bool.false_or, h.any_held]

theorem deleteMany_front (keys : List K) (h : Fronts P U l m s) :
    Faced P U l r.promotes m s (.deleteMany keys) (Stack.run (r.deleteMany keys) s) := by
  obtain ⟨hanswer, hfronts, hasked⟩ := r.removeMany_front hw hacc hU keys h
  have hreport : (Stack.run (r.removeMany keys) s).1 =
      { removed := firstFlags (fun k => (m.origin k).isSome) keys, failures := [] } := hanswer
  rw [deleteMany, Stack.run_bind, hreport]
  exact ⟨rfl, hfronts, hasked⟩

end Writing

/-- One call on a hierarchy whose tiers above the bottom one have nothing else: the bottom
tier's map answers, and the bottom tier is asked only for what the others do not have. -/
theorem execute_front (hw : ∀ i, r.writable i = true)
    (hd : r.policy.demoteDisplaced = true) (hmode : r.policy.write = .writeThrough)
    (hacc : Accepting T P) (hU : Keeping U) (c : RouterCall K V) (hc : Vouched P c.written)
    (h : Fronts P U l m s) : Faced P U l r.promotes m s c (Stack.run (r.execute c) s) := by
  cases c with
  | get key => exact r.get_front hw hd hacc hU key h
  | exists_ key => exact r.exists_front hacc hU key h
  | getMany keys => exact r.getMany_front hw hd hacc hU keys h
  | put key value =>
    have hkv : P key value := hc (key, value) List.mem_cons_self
    obtain ⟨hok, hfronts, hasked⟩ :=
      r.write_front hw hacc hU hd (puts_put hacc hU hkv) h
    rw [execute, put_through hmode (hw l.origin)]
    exact ⟨hok, hfronts, hasked.trans (Stack.exec_served l.origin (.put key value) s)⟩
  | delete key => exact r.delete_front hw hacc hU key h
  | putMany entries =>
    obtain ⟨hok, hfronts, hasked⟩ :=
      r.write_front hw hacc hU hd (puts_putMany hacc hU hc) h
    rw [execute, putMany_through hmode (hw l.origin)]
    exact ⟨hok, hfronts, hasked.trans (Stack.exec_served l.origin (.putMany entries) s)⟩
  | deleteMany keys => exact r.deleteMany_front hw hacc hU keys h
  | readMany keys =>
    obtain ⟨statuses, hans, htold, hfronts, hasked⟩ := r.readMany_front hw hd hacc hU keys h
    exact ⟨⟨statuses, hans, htold⟩, hfronts, hasked⟩
  | readOne key => exact r.readOne_front hw hd hacc hU key h
  | removeMany keys => exact r.removeMany_front hw hacc hU keys h

/-! ## Histories -/

def serve (s : Stack T n) (c : RouterCall K V) : c.Output E × Stack T n :=
  Stack.run (r.execute c) s

section Histories
variable (hw : ∀ i, r.writable i = true) (hd : r.policy.demoteDisplaced = true)
  (hmode : r.policy.write = .writeThrough) (hacc : Accepting T P) (hU : Keeping U)
include hw hd hmode hacc hU

theorem after_front (cs : List (RouterCall K V)) (hcs : ∀ c ∈ cs, Vouched P c.written)
    (h : Fronts P U l m s) :
    Fronts P U l (cs.foldl (Catalogue.step r.promotes) m) (Runs.after r.serve s cs) ∧
      Runs.after r.serve s cs l.origin =
        (s l.origin).servedAll (m.script r.promotes cs) := by
  induction cs generalizing m s with
  | nil => exact ⟨h, rfl⟩
  | cons c cs ih =>
    obtain ⟨-, hfronts, hasked⟩ :=
      r.execute_front hw hd hmode hacc hU c (hcs c List.mem_cons_self) h
    obtain ⟨hrest, hcalls⟩ := ih (fun c' hc' => hcs c' (List.mem_cons_of_mem c hc')) hfronts
    refine ⟨hrest, ?_⟩
    rw [Runs.after_cons, serve, hcalls, Catalogue.script, Slot.servedAll, Slot.servedAll,
      List.foldl_append]
    refine congrArg (fun slot => List.foldl _ slot _) (hasked.trans ?_)
    cases m.asks c <;> rfl

/-- A client of an inclusive write-through hierarchy sees the map of the bottom tier in every
answer, and the bottom tier gets exactly the calls of the script: the writes, the deletions and
the reads of what no tier above it has. -/
theorem stands_before_origin (cs : List (RouterCall K V)) (hcs : ∀ c ∈ cs, Vouched P c.written)
    (h : Fronts P U l m s) :
    (∀ before c after, cs = before ++ c :: after →
      (before.foldl (Catalogue.step r.promotes) m).Answers l c
        (r.serve (Runs.after r.serve s before) c).1) ∧
    (Runs.after r.serve s cs).shown = (cs.foldl (Catalogue.step r.promotes) m).origin ∧
    Runs.after r.serve s cs l.origin =
      (s l.origin).servedAll (m.script r.promotes cs) := by
  obtain ⟨hfronts, hcalls⟩ := r.after_front hw hd hmode hacc hU cs hcs h
  refine ⟨?_, hfronts.shows, hcalls⟩
  rintro before c after rfl
  have hbefore := (r.after_front hw hd hmode hacc hU before
    (fun c' hc' => hcs c' (List.mem_append_left _ hc')) h).1
  exact (r.execute_front hw hd hmode hacc hU c (hcs c (by simp)) hbefore).answer

end Histories
end Router
end Calls

/-! ## What the bottom tier hears -/

/-- A tier that remembers the calls it gets, and is otherwise the tier inside. -/
structure Tapped (T K V : Type) where
  inner : T
  heard : List (TierCall K V)

namespace Tapped
variable {T K V E : Type} [Tier T K V E]

def pass (t : Tapped T K V) (call : TierCall K V) : Except E call.Output × Tapped T K V :=
  let out := Tier.call t.inner call
  (out.1, { inner := out.2, heard := t.heard ++ [call] })

instance : Tier (Tapped T K V) K V E where
  get t key := t.pass (.get key)
  exists_ t key := t.pass (.exists_ key)
  getMany t keys := t.pass (.getMany keys)
  put t key value := t.pass (.put key value)
  delete t key := t.pass (.delete key)
  putMany t entries := t.pass (.putMany entries)
  deleteMany t keys := t.pass (.deleteMany keys)

theorem call_eq (t : Tapped T K V) (call : TierCall K V) : Tier.call t call = t.pass call := by
  cases call <;> rfl

theorem heard_servedAll (slot : Slot (Tapped T K V)) (calls : List (TierCall K V)) :
    (slot.servedAll calls).tier.heard = slot.tier.heard ++ calls := by
  induction calls generalizing slot with
  | nil => exact (List.append_nil _).symm
  | cons call calls ih =>
    refine (ih (slot.served (some call))).trans ?_
    rw [Slot.served, call_eq, pass, List.append_assoc, List.singleton_append]

variable [DecidableEq K] [LawfulTier T] {P : K → V → Prop} {U : T → Prop}

instance : LawfulTier (Tapped T K V) where
  contents t := contents t.inner
  get_contents t := LawfulTier.get_contents t.inner
  get_ok t := LawfulTier.get_ok t.inner
  exists_contents t := LawfulTier.exists_contents t.inner
  exists_ok t := LawfulTier.exists_ok t.inner
  getMany_contents t := LawfulTier.getMany_contents t.inner
  getMany_ok t := LawfulTier.getMany_ok t.inner
  put_error t := LawfulTier.put_error t.inner
  put_ok t := LawfulTier.put_ok t.inner
  put_displaced t := LawfulTier.put_displaced t.inner
  delete_error t := LawfulTier.delete_error t.inner
  delete_ok t := LawfulTier.delete_ok t.inner
  putMany_ok t := LawfulTier.putMany_ok t.inner
  putMany_displaced t := LawfulTier.putMany_displaced t.inner
  putMany_contents t := LawfulTier.putMany_contents t.inner
  deleteMany_ok t := LawfulTier.deleteMany_ok t.inner
  deleteMany_error t := LawfulTier.deleteMany_error t.inner

theorem accepting (hacc : Accepting T P) : Accepting (Tapped T K V) P where
  accepts t call h := by
    rw [call_eq]
    exact hacc.accepts t.inner call h
  delete t := hacc.delete t.inner
  deleteMany t := hacc.deleteMany t.inner

omit [DecidableEq K] [LawfulTier T] in
theorem keeping (hU : Keeping U) : Keeping fun t : Tapped T K V => U t.inner where
  call t call h := by
    rw [call_eq]
    exact hU.call t.inner call h
  put t := hU.put t.inner
  putMany t := hU.putMany t.inner

end Tapped

/-- Once a key has been written, or read with promotion and found, the bottom tier hears no call
that asks for it before it is deleted, whatever the tiers above displace. -/
theorem Router.asked_once {T K V E : Type} {n : Nat} [DecidableEq K] [Tier T K V E]
    [LawfulTier T] (r : Router n) (hw : ∀ i, r.writable i = true)
    (hd : r.policy.demoteDisplaced = true) (hmode : r.policy.write = .writeThrough)
    {P : K → V → Prop} (hacc : Accepting T P) {U : T → Prop} (hU : Keeping U) {l : Layout n}
    {m : Catalogue K V} {s : Stack (Tapped T K V) n} (h : Fronts P (fun t => U t.inner) l m s)
    {before after : List (RouterCall K V)} {c : RouterCall K V}
    (hcs : ∀ c' ∈ before ++ c :: after, Vouched P c'.written) {key : K}
    (hkey : key ∈ c.written.map Prod.fst ∨ r.promotes = true ∧ key ∈ c.fetched)
    (hfound : ((Runs.after r.serve s (before ++ [c])).shown key).isSome = true)
    (hkept : ∀ c' ∈ after, key ∉ c'.dropped) :
    ∃ calls, (Runs.after r.serve s (before ++ c :: after) l.origin).tier.heard =
        (Runs.after r.serve s (before ++ [c]) l.origin).tier.heard ++ calls ∧
      ∀ call ∈ calls, key ∉ call.sought := by
  have hsplit : before ++ c :: after = (before ++ [c]) ++ after := by simp
  rw [hsplit] at hcs ⊢
  have hmid := (r.after_front hw hd hmode (Tapped.accepting hacc) (Tapped.keeping hU)
    (before ++ [c]) (fun c' hc' => hcs c' (List.mem_append_left _ hc')) h).1
  have hlater := (r.after_front hw hd hmode (Tapped.accepting hacc) (Tapped.keeping hU) after
    (fun c' hc' => hcs c' (List.mem_append_right _ hc')) hmid).2
  have hnear : ((List.foldl (Catalogue.step r.promotes) m (before ++ [c])).near key).isSome =
      true := by
    rw [hmid.shows] at hfound
    rw [List.foldl_append] at hfound ⊢
    exact Catalogue.step_brings hkey hfound
  rw [Runs.after_append, hlater, Tapped.heard_servedAll]
  exact ⟨_, rfl, Catalogue.script_quiet hnear hkept⟩

/-! ## Memory tiers -/
namespace MemoryTier
variable {K V : Type} [DecidableEq K]

theorem remove_flag (inner : Inner K V) (key : K) :
    (inner.remove key).1 = (inner.values key).isSome := by
  rw [Inner.remove, Inner.values]
  cases inner.map.lookup key <;> rfl

theorem removeBatch_flags (inner : Inner K V) (keys : List K) :
    (inner.removeBatch keys).1 = firstFlags (fun k => (inner.values k).isSome) keys := by
  induction keys generalizing inner with
  | nil => rfl
  | cons key rest ih =>
    have hleft : (fun k => ((inner.remove key).2.values k).isSome) =
        Function.update (fun k => (inner.values k).isSome) key false := by
      funext k
      rw [Inner.values_remove]
      by_cases hk : k = key <;> simp [erase, hk]
    rw [Inner.removeBatch, firstFlags, ih, hleft, remove_flag]

/-- A memory tier takes everything, in its map or in what it hands back. -/
theorem accepting : Accepting (MemoryTier K V) fun _ _ => True where
  accepts tier call _ := by
    cases h : (Tier.call tier call).1 with
    | ok a => exact ⟨a, rfl⟩
    | error e => exact e.elim
  delete tier key b h := by
    cases h
    exact remove_flag tier.inner key
  deleteMany tier keys bs h := by
    cases h
    exact removeBatch_flags tier.inner keys

end MemoryTier

theorem Router.stands_before_origin_memory :
    let r := Router.uniform 3 "memory"
      { Policy.default with
        read := { promote := .topOnly, onError := .fallThrough }, demoteDisplaced := true }
    let bottom := (Tier.putMany (MemoryTier.unbounded : MemoryTier Nat Nat) [(1, 10), (2, 20)]).2
    let s : Stack (MemoryTier Nat Nat) 3 := Stack.build fun i =>
      if i = 0 then .bounded 1 else if i = 1 then .unbounded else bottom
    (r.serve (Runs.after r.serve s [.readMany [1, 2, 3], .delete 2]) (.getMany [1, 2, 3])).1 =
        .ok [some 10, none, none] ∧
      Runs.after r.serve s [.readMany [1, 2, 3], .delete 2, .getMany [1, 2, 3]] 2 =
        (s 2).servedAll [.getMany [1, 2, 3], .delete 2, .getMany [2, 3]] := by
  intro r bottom s
  let l : Layout 3 := { hot := [0], warm := 1, origin := 2, split := rfl }
  let m : Catalogue Nat Nat :=
    { origin := s.held 2, near := empty, agree := fun _ _ h => by cases h }
  have hfronts : Fronts (fun _ _ => True) MemoryTier.Unbounded l m s := by
    refine ⟨rfl, ?_, fun _ _ _ _ => trivial, ⟨rfl, rfl⟩, ⟨rfl, rfl⟩⟩
    funext k
    simp [s, l, m, Layout.near, Stack.view, stacked, Stack.held, Stack.build, contents,
      MemoryTier.bounded, MemoryTier.unbounded]
  obtain ⟨hanswers, -, hcalls⟩ := r.stands_before_origin (fun _ => rfl) rfl rfl
    MemoryTier.accepting MemoryTier.keeping_unbounded
    [.readMany [1, 2, 3], .delete 2, .getMany [1, 2, 3]] (fun _ _ _ _ => trivial) hfronts
  have hscript : m.script r.promotes [.readMany [1, 2, 3], .delete 2, .getMany [1, 2, 3]] =
      [.getMany [1, 2, 3], .delete 2, .getMany [2, 3]] := rfl
  exact ⟨hanswers [.readMany [1, 2, 3], .delete 2] (.getMany [1, 2, 3]) [] rfl,
    hscript ▸ hcalls⟩

theorem Router.asked_once_memory :
    let r := Router.uniform 3 "memory" { Policy.default with demoteDisplaced := true }
    let s : Stack (Tapped (MemoryTier Nat Nat) Nat Nat) 3 := Stack.build fun i =>
      { inner := if i = 0 then .bounded 1 else .unbounded, heard := [] }
    ∃ calls, (Runs.after r.serve s [.put 1 10, .put 2 20, .readMany [1, 3]] 2).tier.heard =
        (Runs.after r.serve s [.put 1 10] 2).tier.heard ++ calls ∧
      ∀ call ∈ calls, 1 ∉ call.sought := by
  intro r s
  let l : Layout 3 := { hot := [0], warm := 1, origin := 2, split := rfl }
  let m : Catalogue Nat Nat :=
    { origin := s.held 2, near := empty, agree := fun _ _ h => by cases h }
  have hfronts : Fronts (fun _ _ => True) (fun t => t.inner.Unbounded) l m s := by
    refine ⟨rfl, ?_, fun _ _ _ _ => trivial, ⟨rfl, rfl⟩, ⟨rfl, rfl⟩⟩
    funext k
    simp [s, l, m, Layout.near, Stack.view, stacked, Stack.held, Stack.build, contents,
      MemoryTier.bounded, MemoryTier.unbounded]
  have hcs : ∀ c ∈ [] ++ RouterCall.put 1 10 :: [.put 2 20, .readMany [1, 3]],
      Vouched (fun _ _ => True) c.written := fun _ _ _ _ => trivial
  have hfound : ((Runs.after r.serve s ([] ++ [.put 1 10])).shown 1).isSome = true := by
    decide +kernel
  have hkept : ∀ c ∈ ([.put 2 20, .readMany [1, 3]] : List (RouterCall Nat Nat)),
      1 ∉ c.dropped := by decide
  have honce := r.asked_once (fun _ => rfl) rfl rfl MemoryTier.accepting
    MemoryTier.keeping_unbounded hfronts hcs (Or.inl List.mem_cons_self) hfound hkept
  simpa only [List.nil_append, l] using honce

end Tierstore
