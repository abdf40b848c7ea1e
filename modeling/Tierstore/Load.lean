import Tierstore.Coalesce
import Tierstore.Converge

/-! Read-through with an external loader, among the concurrent calls on one cache. The loader
is one atomic step, and answers what it was given to answer. -/
namespace Tierstore
open Overlay Effects

/-- A call on the cache, or a read-through of a key with what its loader comes to. -/
inductive LoadCall (K V L : Type) where
  | cache (c : CacheCall K V)
  | getOrLoad (key : K) (load : Except L V)

abbrev LoadCall.Output (E : Type) {K V L : Type} : LoadCall K V L → Type
  | .cache c => c.Output E
  | .getOrLoad _ _ => Except L V

inductive LoadQuery (n : Nat) (K V L : Type) where
  | cache (q : CacheQuery n K V)
  | load (key : K) (result : Except L V)

abbrev LoadAnswer (n : Nat) (K V E L : Type) : LoadQuery n K V L → Type
  | .cache q => CacheAnswer n K V E q
  | .load _ _ => Except L V

abbrev LoadM (n : Nat) (K V E L : Type) := Program (LoadQuery n K V L) (LoadAnswer n K V E L)

namespace TieredCache
variable {n : Nat} {T K V E L : Type}

abbrev LoadPool (n : Nat) (T K V E L : Type) {ι : Type} (calls : ι → LoadCall K V L) :=
  Pool ι (LoadQuery n K V L) (LoadAnswer n K V E L) (fun i => (calls i).Output E) (Shared T K n)

def liftCache {α : Type} (p : CacheM n K V E α) : LoadM n K V E L α :=
  p.embed LoadQuery.cache fun _ r => r

section Calls
variable (r : Router n) (singleFlight : Bool)

/-- The probe of `get_or_load`: a failure of the probe counts as a miss. -/
def probe (key : K) : LoadM n K V E L (Option V) := do
  match ← liftCache (lift (r.get key)) with
  | some (.ok (some value)) => pure (some value)
  | _ => pure none

def loadAndFill (key : K) (load : Except L V) : LoadM n K V E L (Except L V) := do
  let result ← Program.ask (LoadQuery.load key load)
  match result with
  | .ok value =>
    let _ ← liftCache (lift (put r key value))
    pure result
  | .error _ => pure result

def getOrLoad (key : K) (load : Except L V) : LoadM n K V E L (Except L V) := do
  match ← probe r key with
  | some value => pure (.ok value)
  | none =>
    if !singleFlight then loadAndFill r key load
    else do
      let _ ← liftCache (Program.ask (CacheQuery.acquire key))
      match ← probe r key with
      | some value =>
        let _ ← liftCache (Program.ask (CacheQuery.release key))
        pure (.ok value)
      | none =>
        let result ← loadAndFill r key load
        let _ ← liftCache (Program.ask (CacheQuery.release key))
        pure result

def performLoad : (c : LoadCall K V L) → LoadM n K V E L (c.Output E)
  | .cache c => liftCache (perform r singleFlight c)
  | .getOrLoad key load => getOrLoad r singleFlight key load

end Calls

def execLoad [DecidableEq K] [Tier T K V E] :
    (q : LoadQuery n K V L) → Shared T K n → Option (LoadAnswer n K V E L q × Shared T K n)
  | .cache q, s => exec q s
  | .load _ result, s => some (result, s)

def startLoads [Tier T K V E] {ι : Type} (r : Router n) (singleFlight : Bool)
    (calls : ι → LoadCall K V L) (s : Stack T n) : LoadPool n T K V E L calls :=
  .start { stack := s, gates := [] } fun i => performLoad r singleFlight (calls i)

def loads [DecidableEq K] {ι : Type} (key : K) (log : List (ι × LoadQuery n K V L)) :
    List (ι × V) :=
  log.filterMap fun e =>
    match e.2 with
    | .load k (.ok value) => if k = key then some (e.1, value) else none
    | _ => none

/-! ## What a call does to one key -/
section Follows
variable [DecidableEq K]

structure Memory (n : Nat) (V : Type) extends Progress n V where
  gate : Bool

/-- The queries of a call on `k`: it writes what it has, and loads what a whole probe under
the gate has missed. -/
def Keeps (k : K) (m : Memory n V) : LoadQuery n K V L → Prop
  | .cache (.tier (t, .get key)) => key = k ∧ m.Probes t
  | .cache (.tier (t, .getMany keys)) => keys = [k] ∧ m.Probes t
  | .cache (.tier (_, .put key v)) => key = k ∧ m.Has v
  | .cache (.tier (_, .putMany entries)) => ∀ e ∈ entries, e.1 = k ∧ m.hand = some e.2
  | .cache (.acquire key) => key = k
  | .cache (.release key) =>
    key = k ∧ m.gate = true ∧ ∀ v ts, m.filled = some (v, ts) → ∀ t, t ∈ ts
  | .load key _ => key = k ∧ m.gate = true ∧ m.depth = n ∧ m.filled = none
  | _ => False

def Elsewhere (k : K) : LoadQuery n K V L → Prop
  | .cache (.tier (_, .get key)) => key ≠ k
  | .cache (.tier (_, .getMany keys)) => k ∉ keys
  | .cache (.tier (_, .put key _)) => key ≠ k
  | .cache (.tier (_, .putMany entries)) => ∀ e ∈ entries, e.1 ≠ k
  | .cache (.tier (_, .delete key)) => key ≠ k
  | .cache (.acquire key) => key ≠ k
  | .cache (.release key) => key ≠ k
  | .load key _ => key ≠ k
  | _ => False

def probed (m : Memory n V) (t : Fin n) : Option V → Memory n V
  | some v => { m with hand := some v }
  | none => { m with depth := t + 1 }

def remember (k : K) (m : Memory n V) :
    (q : LoadQuery n K V L) → LoadAnswer n K V Infallible L q → Memory n V
  | .cache (.tier (t, .get key)), .ok found => if key = k then probed m t found else m
  | .cache (.tier (t, .getMany keys)), .ok [found] => if keys = [k] then probed m t found else m
  | .cache (.tier (t, .put key _)), _ =>
    if key = k then { m with toProgress := m.fill t } else m
  | .cache (.acquire key), _ => if key = k then { m with gate := true, depth := 0 } else m
  | .cache (.release key), _ => if key = k then { m with gate := false } else m
  | .load key _, .ok v => if key = k then { m with filled := some (v, []) } else m
  | _, _ => m

def LoadReply : (q : LoadQuery n K V L) → LoadAnswer n K V Infallible L q → Prop
  | .cache q, a => KeptReply q a
  | .load _ result, a => a = result

abbrev Loads {α : Type} (k : K) (post : Memory n V → α → Prop) (p : LoadM n K V Infallible L α)
    (m : Memory n V) : Prop :=
  p.Follows (Keeps k) LoadReply (remember k) post m

abbrev LoadsRouter (L : Type) {α : Type} (k : K) (post : Memory n V → α → Prop)
    (p : RouterM n K V Infallible α) (m : Memory n V) : Prop :=
  p.Follows (fun m q => Keeps (L := L) k m (.cache (.tier q)))
    (fun q a => LoadReply (L := L) (.cache (.tier q)) a)
    (fun m q a => remember (L := L) k m (.cache (.tier q)) a) post m

abbrev LoadsCache (L : Type) {α : Type} (k : K) (post : Memory n V → α → Prop)
    (p : CacheM n K V Infallible α) (m : Memory n V) : Prop :=
  p.Follows (fun m q => Keeps (L := L) k m (.cache q)) (fun q a => LoadReply (L := L) (.cache q) a)
    (fun m q a => remember (L := L) k m (.cache q) a) post m

theorem loadsCache_lift {α : Type} {k : K} {post : Memory n V → α → Prop}
    {p : RouterM n K V Infallible α} {m : Memory n V} (h : LoadsRouter L k post p m) :
    LoadsCache L k post (lift p) m := by
  refine Program.Follows.embed ?_ ?_ ?_ h
  · exact fun _ _ hq => hq
  · exact fun _ _ hr => hr
  · exact fun _ _ _ => rfl

theorem loads_liftCache {α : Type} {k : K} {post : Memory n V → α → Prop}
    {p : CacheM n K V Infallible α} {m : Memory n V} (h : LoadsCache L k post p m) :
    Loads (L := L) k post (liftCache p) m := by
  refine Program.Follows.embed ?_ ?_ ?_ h
  · exact fun _ _ hq => hq
  · exact fun _ _ hr => hr
  · exact fun _ _ _ => rfl

theorem loads_lift {α : Type} {k : K} {post : Memory n V → α → Prop}
    {p : RouterM n K V Infallible α} {m : Memory n V} (h : LoadsRouter L k post p m) :
    Loads (L := L) k post (liftCache (lift p)) m := loads_liftCache (loadsCache_lift h)

variable (r : Router n) (hw : ∀ i, r.writable i = true) (hp : r.policy = defaultPolicy)
  {k : K} {m : Memory n V}

structure Probed (m m' : Memory n V) (found : Option V) : Prop where
  gate : m'.gate = m.gate
  filled : m'.filled = none
  missed : found = none → m'.depth = n
  hit : ∀ v, found = some v → m'.hand = some v

include hw in
theorem promoteOne_loads {v : V} (hhand : m.hand = some v) (hfilled : m.filled = none)
    (target : Fin n) :
    LoadsRouter L k (fun m' _ => m' = m) (r.promoteOne target k (some v)) m := by
  have hfill : m.fill target = m.toProgress := Progress.fill_none hfilled target
  change LoadsRouter L k _ (r.promoteWith target (putAt target k v)) m
  rw [Router.promoteWith, if_pos (hw target)]
  refine ⟨⟨rfl, Or.inl hhand⟩, fun a ha => ?_⟩
  cases a with
  | error e => exact e.elim
  | ok d =>
    obtain rfl : d = [] := ha
    have hsame : remember (L := L) (K := K) k m (.cache (.tier (target, .put k v)))
        (.ok []) = m := by
      simp only [remember, if_true, hfill]
    have hquiet : (r.policy.demoteDisplaced && !([] : List (K × V)).isEmpty) = false := by simp
    change LoadsRouter L k _ (if (r.policy.demoteDisplaced && !([] : List (K × V)).isEmpty)
      = true then _ else pure ()) _
    rw [hquiet]
    exact hsame

include hw in
theorem promoteAll_loads {v : V} (hhand : m.hand = some v) (hfilled : m.filled = none)
    (targets : List (Fin n)) :
    LoadsRouter L k (fun m' _ => m' = m)
      (targets.forM fun target => r.promoteOne target k (some v)) m := by
  induction targets with
  | nil => rfl
  | cons target rest ih =>
    change LoadsRouter L k _ (r.promoteOne target k (some v) >>= fun _ =>
      rest.forM fun target => r.promoteOne target k (some v)) _
    refine (promoteOne_loads r hw hhand hfilled target).bind ?_
    rintro _ _ rfl
    exact ih

variable (hn : 0 < n)

include hw hn in
/-- The probe below the tiers `above`, which have been missed. -/
theorem readDown_loads (above l : List (Fin n)) (hsplit : List.finRange n = above ++ l)
    (hdepth : above = [] ∨ m.depth = above.length) (hfilled : m.filled = none) :
    LoadsRouter L k (fun m' a => ∃ found, a = .ok found ∧ Probed m m' found)
      (r.readDown k l []) m := by
  induction l generalizing above m with
  | nil =>
    have hlen : above.length = n := by
      have hlength := congrArg List.length hsplit
      simpa using hlength.symm
    refine ⟨none, rfl, rfl, hfilled, fun _ => ?_, fun v hv => by cases hv⟩
    obtain rfl | hdepth := hdepth
    · exact absurd hlen (by simpa using hn.ne)
    · rw [hdepth, hlen]
  | cons t below ih =>
    have ht := val_of_split hsplit
    have hprobes : m.Probes t := by
      obtain rfl | hdepth := hdepth
      · exact Or.inl ht
      · exact Or.inr (hdepth.trans ht.symm)
    refine ⟨⟨rfl, hprobes⟩, fun a ha => ?_⟩
    cases a with
    | error e => exact e.elim
    | ok found =>
      have hremember : remember (L := L) k m (.cache (.tier (t, .get k))) (.ok found) =
          probed m t found := by simp [remember]
      cases found with
      | some v =>
        change LoadsRouter L k _ ((r.hitTargets t).forM
          (fun target => r.promoteOne target k (some v)) >>= fun _ =>
            pure (Except.ok (some v))) (remember (L := L) k m (.cache (.tier (t, .get k)))
              (Except.ok (some v)))
        rw [hremember]
        refine (promoteAll_loads r hw (m := probed m t (some v)) rfl hfilled _).bind ?_
        rintro _ _ rfl
        refine ⟨some v, rfl, rfl, hfilled, (by rintro ⟨⟩), ?_⟩
        rintro _ ⟨⟩
        rfl
      | none =>
        change LoadsRouter L k _ (r.readDown k below [])
          (remember (L := L) k m (.cache (.tier (t, .get k))) (Except.ok none))
        rw [hremember]
        have hbelow := ih (above ++ [t]) (m := probed m t none) (by simp [hsplit])
          (Or.inr (by simp [probed, ht])) hfilled
        exact hbelow.mono fun m' a ⟨found, hfound, hprobed⟩ =>
          ⟨found, hfound, hprobed.gate, hprobed.filled, hprobed.missed, hprobed.hit⟩

include hw hn in
theorem get_loads (hfilled : m.filled = none) :
    Loads (L := L) k (fun m' found => Probed m m' found) (probe r k) m := by
  have hget : LoadsRouter L k (fun m' a => ∃ found, a = some (.ok found) ∧ Probed m m' found)
      (r.get k) m := by
    rw [Router.get_eq]
    exact (readDown_loads r hw hn [] _ rfl (Or.inl rfl) hfilled).bind
      fun m' a ⟨found, hfound, hprobed⟩ => ⟨found, by rw [hfound], hprobed⟩
  refine (loads_lift hget).bind ?_
  rintro m' _ ⟨found, rfl, hprobed⟩
  cases found with
  | some v => exact hprobed
  | none => exact hprobed

/-! ### Lookups -/

include hw in
theorem promoteInto_loads {entries : List (K × V)}
    (hentries : ∀ e ∈ entries, e.1 = k ∧ m.hand = some e.2) (target : Fin n) :
    LoadsRouter L k (fun m' _ => m' = m) (r.promoteInto target entries) m := by
  rw [Router.promoteInto, Router.promoteWith, if_pos (hw target)]
  refine ⟨hentries, fun a ha => ?_⟩
  cases a with
  | error e => exact e.elim
  | ok d =>
    obtain rfl : d = [] := ha
    have hquiet : (r.policy.demoteDisplaced && !([] : List (K × V)).isEmpty) = false := by simp
    change LoadsRouter L k _ (if (r.policy.demoteDisplaced && !([] : List (K × V)).isEmpty)
      = true then _ else pure ()) _
    rw [hquiet]
    rfl

include hw in
theorem promoteAllInto_loads {entries : List (K × V)}
    (hentries : ∀ e ∈ entries, e.1 = k ∧ m.hand = some e.2) (targets : List (Fin n)) :
    LoadsRouter L k (fun m' _ => m' = m)
      (targets.forM fun target => r.promoteInto target entries) m := by
  induction targets with
  | nil => rfl
  | cons target rest ih =>
    change LoadsRouter L k _ (r.promoteInto target entries >>= fun _ =>
      rest.forM fun target => r.promoteInto target entries) _
    refine (promoteInto_loads r hw hentries target).bind ?_
    rintro _ _ rfl
    exact ih

include hw in
theorem promoteTiers_loads {statuses : Fin [k].length → KeyStatus V}
    (hhand : ∀ i v, (statuses i).value = some v → m.hand = some v) (tiers : List (Fin n)) :
    LoadsRouter L k (fun m' _ => m' = m) (r.promoteTiers [k] statuses tiers) m := by
  induction tiers with
  | nil => rfl
  | cons t rest ih =>
    rw [Router.promoteTiers]
    dsimp only
    split
    · exact ih
    · have hvouched : Vouched (fun x v => x = k ∧ m.hand = some v)
          (Router.hitEntries [k] statuses t) :=
        Router.hitEntries_vouched (fun i v hv => ⟨by simp, hhand i v hv⟩) t
      refine (promoteAllInto_loads r hw hvouched _).bind ?_
      rintro _ _ rfl
      exact ih

/-- The probes of a lookup below the tiers `above`, which have been missed. -/
theorem readTiers_loads (above tiers : List (Fin n)) (hsplit : List.finRange n = above ++ tiers)
    (hdepth : above = [] ∨ m.depth = above.length) (hfilled : m.filled = none)
    (statuses : Fin [k].length → KeyStatus V) (hmiss : ∀ i, (statuses i).value = none) :
    LoadsRouter L k
      (fun m' a => m'.gate = m.gate ∧ m'.filled = none ∧ ∃ statuses left,
        a = .ok (statuses, left, []) ∧ ∀ i v, (statuses i).value = some v → m'.hand = some v)
      (r.readTiers [k] tiers statuses (List.finRange [k].length) []) m := by
  induction tiers generalizing above m with
  | nil =>
    refine ⟨rfl, hfilled, statuses, _, rfl, fun i v hv => ?_⟩
    rw [hmiss i] at hv
    cases hv
  | cons t below ih =>
    have ht := val_of_split hsplit
    have hprobes : m.Probes t := by
      obtain rfl | hdepth := hdepth
      · exact Or.inl ht
      · exact Or.inr (hdepth.trans ht.symm)
    refine ⟨⟨rfl, hprobes⟩, fun a ha => ?_⟩
    cases a with
    | error e => exact e.elim
    | ok found =>
      obtain ⟨answer, rfl⟩ := List.length_eq_one_iff.1 ha
      have hremember : remember (L := L) k m (.cache (.tier (t, .getMany [k]))) (.ok [answer]) =
          probed m t answer := by simp [remember]
      cases answer with
      | none =>
        change LoadsRouter L k _
          (r.readTiers [k] below statuses (List.finRange [k].length) [])
          (remember (L := L) k m (.cache (.tier (t, .getMany [k]))) (Except.ok [none]))
        rw [hremember]
        exact ih (above ++ [t]) (m := probed m t none) (by simp [hsplit])
          (Or.inr (by simp [probed, ht])) hfilled
      | some v =>
        have hdone : ∀ tiers : List (Fin n), r.readTiers (E := Infallible) [k] tiers
            (Function.update statuses 0 (.hit t v)) [] [] =
              .done (.ok (Function.update statuses 0 (.hit t v), [], [])) := by
          intro tiers
          cases tiers <;> rfl
        change LoadsRouter L k _ (r.readTiers [k] below
          (Function.update statuses 0 (.hit t v)) [] [])
          (remember (L := L) k m (.cache (.tier (t, .getMany [k]))) (Except.ok [some v]))
        rw [hremember, hdone]
        refine ⟨rfl, hfilled, _, _, rfl, fun i w hi => ?_⟩
        rw [Fin.fin_one_eq_zero i, Function.update_self] at hi
        exact hi

include hw in
theorem readOne_loads (hfilled : m.filled = none) :
    LoadsRouter L k (fun m' _ => m'.gate = m.gate ∧ m'.filled = none) (r.readOne k) m := by
  have hmany : LoadsRouter L k (fun m' _ => m'.gate = m.gate ∧ m'.filled = none)
      (r.readMany [k]) m := by
    refine (readTiers_loads r [] (List.finRange n) rfl (Or.inl rfl) hfilled (fun _ => .miss)
      fun _ => rfl).bind ?_
    rintro m' _ ⟨hgate, hfilled', statuses, left, rfl, hhand⟩
    have hpromote : LoadsRouter L k (fun m'' _ => m'' = m') (r.promoteBatch [k] statuses) m' := by
      rw [Router.promoteBatch]
      split
      · rfl
      · exact promoteTiers_loads r hw hhand _
    refine hpromote.bind ?_
    rintro _ _ rfl
    exact ⟨hgate, hfilled'⟩
  refine hmany.bind fun m' a hm' => ?_
  cases a with
  | error e => exact hm'
  | ok report => exact hm'

/-! ### Fills -/

structure Filled (rest : List (Fin n)) (m m' : Memory n V) : Prop where
  gate : m'.gate = m.gate
  filled : ∀ v ts, m.filled = some (v, ts) → ∃ ts', m'.filled = some (v, ts') ∧
    (∀ t ∈ ts, t ∈ ts') ∧ ∀ t ∈ rest, t ∈ ts'

include hw in
theorem writeThrough_loads {v : V} (rest : List (Fin n)) (hv : m.Has v) :
    LoadsRouter L k (fun m' _ => Filled rest m m')
      (r.writeThrough (fun tier => putAt tier k v) rest []) m := by
  induction rest generalizing m with
  | nil => exact ⟨rfl, fun v ts hts => ⟨ts, hts, fun _ h => h, by simp⟩⟩
  | cons t rest ih =>
    rw [Router.writeThrough]
    simp only [hw t, Bool.not_true, Bool.false_eq_true, if_false]
    refine ⟨⟨rfl, hv⟩, fun a ha => ?_⟩
    cases a with
    | error e => exact e.elim
    | ok d =>
      obtain rfl : d = [] := ha
      have hremember : remember (L := L) (K := K) k m (.cache (.tier (t, .put k v))) (.ok []) =
          { m with toProgress := m.fill t } := by simp [remember]
      have hv' : (m.fill t).Has v := by
        obtain hhand | ⟨ts, hts⟩ := hv
        · exact Or.inl hhand
        · exact Or.inr ⟨t :: ts, by simp [Progress.fill, hts]⟩
      change LoadsRouter L k _ (r.writeThrough (fun tier => putAt tier k v) rest [])
        (remember (L := L) (K := K) k m (.cache (.tier (t, .put k v))) (Except.ok []))
      rw [hremember]
      refine (ih (m := { m with toProgress := m.fill t }) hv').mono fun m' _ hm' => ?_
      refine ⟨hm'.gate, fun w ts hts => ?_⟩
      obtain ⟨ts', hts', hsub, hrest⟩ := hm'.filled w (t :: ts) (by simp [Progress.fill, hts])
      refine ⟨ts', hts', fun j hj => hsub j (List.mem_cons_of_mem t hj), fun j hj => ?_⟩
      obtain rfl | hj := List.mem_cons.1 hj
      · exact hsub j (by simp)
      · exact hrest j hj

include hw hp in
theorem put_loads {v : V} (hv : m.Has v) :
    LoadsRouter L k (fun m' _ => Filled (List.finRange n).reverse m m') (put r k v) m := by
  have hmode : r.policy.write = .writeThrough := by rw [hp]; rfl
  rw [put, Router.put, hmode]
  dsimp only
  split
  · next hnone =>
    rw [Router.finRange_of_not_any hw hnone]
    exact ⟨rfl, fun v ts hts => ⟨ts, hts, fun _ h => h, by simp⟩⟩
  · exact writeThrough_loads r hw _ hv

/-! ### The calls -/

include hw hp in
theorem loadAndFill_loads (load : Except L V) (hgate : m.gate = true) (hdepth : m.depth = n)
    (hfilled : m.filled = none) :
    Loads k (fun m' a => a = load ∧ m'.gate = true ∧
        (∀ v, a = .ok v → ∃ ts, m'.filled = some (v, ts)) ∧
        ∀ v ts, m'.filled = some (v, ts) → ∀ t, t ∈ ts) (loadAndFill r k load) m := by
  cases load with
  | error e =>
    refine ⟨⟨rfl, hgate, hdepth, hfilled⟩, fun a ha => ?_⟩
    obtain rfl : a = .error e := ha
    refine ⟨rfl, hgate, (by rintro v ⟨⟩), fun v ts hts => ?_⟩
    rw [show remember k m (.load k (.error e : Except L V)) (.error e) = m from rfl, hfilled] at hts
    cases hts
  | ok v =>
    refine ⟨⟨rfl, hgate, hdepth, hfilled⟩, fun a ha => ?_⟩
    obtain rfl : a = .ok v := ha
    have hremember : remember k m (.load k (.ok v : Except L V)) (.ok v) =
        { m with filled := some (v, []) } := by simp [remember]
    have hput := loads_lift (L := L) (put_loads (V := V) (k := k)
      (m := { m with filled := some (v, []) }) r hw hp (Or.inr ⟨[], rfl⟩))
    change Loads k _ (liftCache (lift (put r k v)) >>= fun _ => pure (Except.ok v))
      (remember k m (.load k (.ok v : Except L V)) (.ok v))
    rw [hremember]
    refine hput.bind fun m' _ hm' => ?_
    obtain ⟨ts, hts, -, hall⟩ := hm'.filled v [] rfl
    refine ⟨rfl, hm'.gate.trans hgate, ?_, fun w ts' hts' t => ?_⟩
    · rintro w ⟨⟩
      exact ⟨ts, hts⟩
    · rw [hts] at hts'
      cases hts'
      exact hall t (by simp)

def Settles (load : Except L V) (m : Memory n V) (a : Except L V) : Prop :=
  (∀ v, a = .ok v → m.Has v) ∧ ∀ e, a = .error e → load = .error e

include hw hp hn in
theorem getOrLoad_loads (load : Except L V) (hfilled : m.filled = none) :
    Loads k (Settles load) (getOrLoad r true k load) m := by
  refine (get_loads r hw hn hfilled).bind fun m₁ found h₁ => ?_
  cases found with
  | some v =>
    refine ⟨?_, by rintro e ⟨⟩⟩
    rintro w ⟨⟩
    exact Or.inl (h₁.hit v rfl)
  | none =>
    have hremember : remember (L := L) (K := K) k m₁ (.cache (.acquire k)) () =
        { m₁ with gate := true, depth := 0 } := by simp [remember]
    refine ⟨rfl, fun a _ => ?_⟩
    change Loads k (Settles load) (probe r k >>= _)
      (remember (L := L) (K := K) k m₁ (.cache (.acquire k)) ())
    rw [hremember]
    refine (get_loads r hw hn (m := { m₁ with gate := true, depth := 0 }) h₁.filled).bind
      fun m₂ found h₂ => ?_
    cases found with
    | some v =>
      refine ⟨⟨rfl, h₂.gate, fun w ts hts => ?_⟩, fun a _ => ⟨?_, by rintro e ⟨⟩⟩⟩
      · rw [h₂.filled] at hts
        cases hts
      · rintro w ⟨⟩
        exact Or.inl (by simpa [remember] using h₂.hit v rfl)
    | none =>
      refine (loadAndFill_loads r hw hp load h₂.gate (h₂.missed rfl) h₂.filled).bind
        fun m₃ a h₃ => ?_
      obtain ⟨rfl, hgate, hfill, hfull⟩ := h₃
      refine ⟨⟨rfl, hgate, hfull⟩, fun _ _ => ⟨fun v hv => ?_, fun e he => he⟩⟩
      obtain ⟨ts, hts⟩ := hfill v hv
      exact Or.inr ⟨ts, by simpa [remember] using hts⟩

/-! ### Calls on any key -/

abbrev Goes {α : Type} (k : K) (post : Memory n V → α → Prop) (p : LoadM n K V Infallible L α)
    (m : Memory n V) : Prop :=
  p.Follows (fun m q => Keeps k m q ∨ Elsewhere k q) LoadReply (remember k) post m

def Memory.start : Memory n V := { Progress.start with gate := false }

omit [DecidableEq K] in
theorem elsewhere_of_keeps {key : K} (h : key ≠ k) {q : LoadQuery n K V L} (hq : Keeps key m q) :
    Elsewhere k q := by
  cases q with
  | load x result =>
    obtain rfl : x = key := hq.1
    exact h
  | cache q =>
    cases q with
    | acquire x =>
      obtain rfl : x = key := hq
      exact h
    | release x =>
      obtain rfl : x = key := hq.1
      exact h
    | tier q =>
      obtain ⟨t, c⟩ := q
      cases c with
      | get x =>
        obtain rfl : x = key := hq.1
        exact h
      | getMany keys =>
        obtain rfl : keys = [key] := hq.1
        exact fun hmem => h (List.mem_singleton.1 hmem).symm
      | put x v =>
        obtain rfl : x = key := hq.1
        exact h
      | putMany entries =>
        intro e he
        rw [(hq e he).1]
        exact h
      | exists_ x => exact hq.elim
      | delete x => exact hq.elim
      | deleteMany keys => exact hq.elim

theorem remember_elsewhere {q : LoadQuery n K V L} (hq : Elsewhere k q)
    (a : LoadAnswer n K V Infallible L q) : remember k m q a = m := by
  cases q with
  | load key result =>
    have hne : key ≠ k := hq
    cases a with
    | ok v => simp [remember, hne]
    | error e => rfl
  | cache q =>
    cases q with
    | acquire key =>
      have hne : key ≠ k := hq
      simp [remember, hne]
    | release key =>
      have hne : key ≠ k := hq
      simp [remember, hne]
    | tier q =>
      obtain ⟨t, c⟩ := q
      cases a with
      | error e => exact e.elim
      | ok out =>
        cases c with
        | get key =>
          have hne : key ≠ k := hq
          simp [remember, hne]
        | getMany keys =>
          have hne : keys ≠ [k] := by
            rintro rfl
            exact hq (by simp)
          unfold remember
          split <;> simp_all
        | put key v =>
          have hne : key ≠ k := hq
          simp [remember, hne]
        | putMany entries => rfl
        | exists_ key => rfl
        | delete key => rfl
        | deleteMany keys => rfl

theorem goes_of_elsewhere {α : Type} {p : LoadM n K V Infallible L α}
    (h : p.Safe (Elsewhere k) LoadReply fun _ => True) (m : Memory n V) :
    Goes k (fun _ _ => True) p m :=
  Program.Safe.follows h (fun _ _ hq => Or.inr hq) m

theorem goes_of_loads {α : Type} {post : Memory n V → α → Prop}
    {p : LoadM n K V Infallible L α} (h : Loads k post p m) : Goes k post p m :=
  Program.Follows.weaken h fun _ _ hq => Or.inl hq

theorem goes_of_ne {α : Type} {key : K} {m' : Memory n V} {post : Memory n V → α → Prop}
    {p : LoadM n K V Infallible L α} (hne : key ≠ k) (h : Loads key post p m') (m : Memory n V) :
    Goes k (fun _ _ => True) p m :=
  goes_of_elsewhere (Program.Follows.safe h fun _ _ hq => elsewhere_of_keeps hne hq) m

include hw in
theorem get_loadsCache (hfilled : m.filled = none) :
    LoadsCache L k (fun _ _ => True) (perform r true (.get k)) m := by
  have hremember : remember (L := L) (K := K) k m (.cache (.acquire k)) () =
      { m with gate := true, depth := 0 } := by simp [remember]
  have hlookup : LoadsCache L k (fun _ _ => True) (lookupGated r true k) m := by
    refine ⟨rfl, fun a _ => ?_⟩
    change LoadsCache L k _ (lift (lookup r k) >>= _)
      (remember (L := L) (K := K) k m (.cache (.acquire k)) ())
    rw [hremember]
    refine (loadsCache_lift (readOne_loads (m := { m with gate := true, depth := 0 }) r hw
      hfilled)).bind fun m' a hm' => ⟨⟨rfl, hm'.1, fun v ts hts => ?_⟩, fun _ _ => trivial⟩
    rw [hm'.2] at hts
    cases hts
  exact hlookup.bind fun _ _ _ => trivial

def Fine (k : K) : (c : LoadCall K V L) → Memory n V → c.Output Infallible → Prop
  | .getOrLoad key load, m, a => key = k → Settles load m a
  | .cache _, _, _ => True

include hw hp hn in
/-- The calls that neither write nor delete `k` of their own. -/
theorem performLoad_goes (c : LoadCall K V L)
    (hwrite : ∀ v, c ≠ .cache (.put k v)) (hdelete : c ≠ .cache (.invalidate k)) :
    Goes k (Fine k c) (performLoad r true c) Memory.start := by
  have hfree : (Memory.start : Memory n V).filled = none := rfl
  cases c with
  | getOrLoad key load =>
    by_cases hkey : key = k
    · subst hkey
      exact (goes_of_loads (getOrLoad_loads r hw hp hn load hfree)).mono fun m a hm _ => hm
    · exact (goes_of_ne hkey (getOrLoad_loads r hw hp hn load hfree) _).mono
        fun m a _ heq => absurd heq hkey
  | cache c =>
    cases c with
    | get key =>
      have hget := loads_liftCache (L := L) (get_loadsCache (k := key) (V := V) r hw hfree)
      by_cases hkey : key = k
      · subst hkey
        exact (goes_of_loads hget).mono fun _ _ _ => trivial
      · exact (goes_of_ne hkey hget _).mono fun _ _ _ => trivial
    | put key v =>
      have hkey : key ≠ k := by
        rintro rfl
        exact hwrite v rfl
      have hput := loads_lift (L := L) (put_loads (k := key) (v := v)
        (m := { Memory.start with hand := some v }) r hw hp (Or.inl rfl))
      exact (goes_of_ne hkey hput _).mono fun _ _ _ => trivial
    | invalidate key =>
      have hkey : key ≠ k := by
        rintro rfl
        exact hdelete rfl
      have hcache : (perform r true (.invalidate key) : CacheM n K V Infallible _).Safe
          (fun q => ∃ t, q = .tier (t, .delete key)) (fun _ _ => True) fun _ => True := by
        refine Program.Safe.embed ?_ (fun _ _ _ => trivial)
          (Router.deleteTiers_only r key (List.finRange n) false [])
        rintro _ ⟨t, rfl⟩
        exact ⟨t, rfl⟩
      refine (goes_of_elsewhere (Program.Safe.embed ?_ (fun _ _ _ => trivial) hcache) _).mono
        fun _ _ _ => trivial
      rintro _ ⟨t, rfl⟩
      exact hkey

end Follows
end TieredCache
end Tierstore
