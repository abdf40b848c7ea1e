import Mathlib.Logic.Function.Basic

/-! What coalesced loads of one key come to: the copies of the key in the tiers, one gate, and
calls that probe the tiers downwards, load under the gate what a whole probe has missed, and
fill every tier before they give the gate back. -/
namespace Tierstore

/-- How far a call is: the tiers its probe has missed, the value it was answered, and the value
it has loaded with the tiers filled so far. -/
structure Progress (n : Nat) (V : Type) where
  depth : Nat
  hand : Option V
  filled : Option (V × List (Fin n))

structure Column (ι : Type) (n : Nat) (V : Type) where
  copies : Fin n → Option V
  gate : Option ι
  calls : ι → Progress n V
  loaded : List (ι × V)

namespace Progress
variable {n : Nat} {V : Type}

def start : Progress n V := { depth := 0, hand := none, filled := none }

def Probes (p : Progress n V) (t : Fin n) : Prop := t.val = 0 ∨ p.depth = t

def Has (p : Progress n V) (v : V) : Prop := p.hand = some v ∨ ∃ ts, p.filled = some (v, ts)

def fill (p : Progress n V) (t : Fin n) : Progress n V :=
  { p with filled := p.filled.map fun f => (f.1, t :: f.2) }

theorem fill_none {p : Progress n V} (h : p.filled = none) (t : Fin n) : p.fill t = p := by
  obtain ⟨depth, hand, filled⟩ := p
  obtain rfl : filled = none := h
  rfl

end Progress

namespace Column
variable {ι V : Type} {n : Nat} [DecidableEq ι]

def sets (c : Column ι n V) (i : ι) (p : Progress n V) : ι → Progress n V :=
  Function.update c.calls i p

inductive Step (c : Column ι n V) : Column ι n V → Prop where
  | hit (i : ι) (t : Fin n) (v : V) : (c.calls i).Probes t → c.copies t = some v →
      Step c { c with calls := c.sets i { c.calls i with hand := some v } }
  | miss (i : ι) (t : Fin n) : (c.calls i).Probes t → c.copies t = none →
      Step c { c with calls := c.sets i { c.calls i with depth := t + 1 } }
  | promote (i : ι) (t : Fin n) (v : V) : (c.calls i).hand = some v →
      Step c { c with copies := Function.update c.copies t (some v) }
  | write (i : ι) (t : Fin n) (v : V) : (c.calls i).Has v →
      Step c { c with copies := Function.update c.copies t (some v),
                      calls := c.sets i ((c.calls i).fill t) }
  | enter (i : ι) : c.gate = none →
      Step c { c with gate := some i, calls := c.sets i { c.calls i with depth := 0 } }
  | leave (i : ι) : c.gate = some i → (∀ v ts, (c.calls i).filled = some (v, ts) → ∀ t, t ∈ ts) →
      Step c { c with gate := none }
  | load (i : ι) (v : V) : c.gate = some i → (c.calls i).depth = n → (c.calls i).filled = none →
      Step c { c with calls := c.sets i { c.calls i with filled := some (v, []) },
                      loaded := (i, v) :: c.loaded }

/-! ## A key some tier has a copy of -/

/-- The topmost copy stays where it was, so nobody probes below it. -/
structure Served (top : Fin n) (v : V) (old : V → Prop) (c : Column ι n V) : Prop where
  served : c.copies top = some v
  above : ∀ t < top, ∀ x, c.copies t = some x → x = v
  old : ∀ t x, c.copies t = some x → old x
  depth : ∀ i, (c.calls i).depth ≤ top
  hand : ∀ i x, (c.calls i).hand = some x → x = v
  filled : ∀ i, (c.calls i).filled = none
  loaded : c.loaded = []

section Served
variable {top : Fin n} {v : V} {old : V → Prop} {c c' : Column ι n V}

omit [DecidableEq ι] in
/-- The value a call has is the one served. -/
theorem Served.has (h : c.Served top v old) {i : ι} {x : V} (hx : (c.calls i).Has x) : x = v := by
  obtain hhand | ⟨ts, hfilled⟩ := hx
  · exact h.hand i x hhand
  · rw [h.filled i] at hfilled
    cases hfilled

/-- A call goes on. -/
theorem Served.sets (h : c.Served top v old) (i : ι) {p : Progress n V} (hdepth : p.depth ≤ top)
    (hhand : ∀ x, p.hand = some x → x = v) (hfilled : p.filled = none) (gate : Option ι) :
    Served top v old { c with gate, calls := c.sets i p } := by
  refine ⟨h.served, h.above, h.old, fun j => ?_, fun j x hx => ?_, fun j => ?_, h.loaded⟩ <;>
    by_cases hj : j = i
  · simpa [Column.sets, hj] using hdepth
  · simpa [Column.sets, hj] using h.depth j
  · exact hhand x (by simpa [Column.sets, hj] using hx)
  · exact h.hand j x (by simpa [Column.sets, hj] using hx)
  · simpa [Column.sets, hj] using hfilled
  · simpa [Column.sets, hj] using h.filled j

omit [DecidableEq ι] in
theorem Served.copy (h : c.Served top v old) (t : Fin n) :
    Served top v old { c with copies := Function.update c.copies t (some v) } := by
  have hold : ∀ j x, Function.update c.copies t (some v) j = some x →
      x = v ∨ c.copies j = some x := by
    intro j x hx
    by_cases hj : j = t
    · subst hj
      exact Or.inl (Option.some.inj (by simpa using hx)).symm
    · exact Or.inr (by simpa [hj] using hx)
  refine ⟨?_, fun j hj x hx => ?_, fun j x hx => ?_, h.depth, h.hand, h.filled, h.loaded⟩
  · by_cases ht : top = t
    · simp [ht]
    · simpa [ht] using h.served
  · exact (hold j x hx).elim id (h.above j hj x)
  · obtain rfl | hx := hold j x hx
    · exact h.old top x h.served
    · exact h.old j x hx

theorem Served.step (h : c.Served top v old) (hstep : Step c c') : c'.Served top v old := by
  -- a probe that reaches a tier has not passed the topmost copy
  have hprobe : ∀ {i t}, (c.calls i).Probes t → t ≠ top → t < top := by
    intro i t ht hne
    have hval := Fin.val_ne_of_ne hne
    obtain hzero | hdepth := ht
    · exact Fin.lt_def.2 (by omega)
    · have hle := h.depth i
      exact Fin.lt_def.2 (by omega)
  cases hstep with
  | hit i t x ht hx =>
    refine h.sets i (p := { c.calls i with hand := some x }) (h.depth i) (fun y hy => ?_)
      (h.filled i) c.gate
    obtain rfl := Option.some.inj hy
    by_cases htop : t = top
    · subst htop
      exact Option.some.inj (hx.symm.trans h.served)
    · exact h.above t (hprobe ht htop) x hx
  | miss i t ht hnone =>
    refine h.sets i (p := { c.calls i with depth := t + 1 }) ?_ (h.hand i) (h.filled i) c.gate
    have hne : t ≠ top := by
      rintro rfl
      rw [h.served] at hnone
      cases hnone
    exact Fin.lt_def.1 (hprobe ht hne)
  | promote i t x hx =>
    obtain rfl := h.hand i x hx
    exact h.copy t
  | write i t x hx =>
    obtain rfl := h.has hx
    refine (h.copy t).sets i (p := (c.calls i).fill t) (h.depth i) (h.hand i) ?_ c.gate
    simp [Progress.fill, h.filled i]
  | enter i hfree =>
    exact h.sets i (p := { c.calls i with depth := 0 }) (Nat.zero_le _) (h.hand i)
      (h.filled i) (some i)
  | leave i hi hall => exact ⟨h.served, h.above, h.old, h.depth, h.hand, h.filled, h.loaded⟩
  | load i x hi hdepth hnone =>
    have hle := h.depth i
    have hlt := top.isLt
    omega

end Served

/-! ## A key no tier has a copy of -/

structure Unloaded (c : Column ι n V) : Prop where
  copies : ∀ t, c.copies t = none
  hand : ∀ i, (c.calls i).hand = none
  filled : ∀ i, (c.calls i).filled = none
  loaded : c.loaded = []

/-- The call `w` has loaded `v`. It has the gate until every tier is filled, and whoever takes
the gate after it has missed no tier since. -/
structure Loaded (w : ι) (v : V) (c : Column ι n V) : Prop where
  loaded : c.loaded = [(w, v)]
  copies : ∀ t x, c.copies t = some x → x = v
  hand : ∀ i x, (c.calls i).hand = some x → x = v
  others : ∀ i, i ≠ w → (c.calls i).filled = none
  filled : ∃ ts, (c.calls w).filled = some (v, ts) ∧ (∀ t ∈ ts, c.copies t = some v) ∧
    (c.gate = some w ∨ ∀ t, t ∈ ts)
  gated : ∀ i, i ≠ w → c.gate = some i → (c.calls i).depth = 0

section Loaded
variable {w : ι} {v : V} {c c' : Column ι n V}

omit [DecidableEq ι] in
theorem Loaded.has (h : c.Loaded w v) {i : ι} {x : V} (hx : (c.calls i).Has x) : x = v := by
  obtain hhand | ⟨ts, hfilled⟩ := hx
  · exact h.hand i x hhand
  · by_cases hi : i = w
    · subst hi
      obtain ⟨ts', hts, -⟩ := h.filled
      rw [hts] at hfilled
      cases hfilled
      rfl
    · rw [h.others i hi] at hfilled
      cases hfilled

omit [DecidableEq ι] in
theorem Loaded.copy (h : c.Loaded w v) (t : Fin n) :
    Loaded w v { c with copies := Function.update c.copies t (some v) } := by
  obtain ⟨ts, hts, hcopies, hgate⟩ := h.filled
  refine ⟨h.loaded, fun j x hx => ?_, h.hand, h.others, ⟨ts, hts, fun j hj => ?_, hgate⟩,
      h.gated⟩ <;>
    by_cases hjt : j = t
  · exact (Option.some.inj (by simpa [hjt] using hx)).symm
  · exact h.copies j x (by simpa [hjt] using hx)
  · simp [hjt]
  · simpa [hjt] using hcopies j hj

/-- A call goes on without a fill, and with a probe that has missed nothing if it has the gate
and is not the one that loaded. -/
theorem Loaded.sets (h : c.Loaded w v) (i : ι) {p : Progress n V}
    (hhand : ∀ x, p.hand = some x → x = v) (hfilled : p.filled = (c.calls i).filled)
    (hdepth : i ≠ w → c.gate = some i → p.depth = 0) :
    Loaded w v { c with calls := c.sets i p } := by
  have hsame : ∀ j, (c.sets i p j).filled = (c.calls j).filled := by
    intro j
    by_cases hj : j = i
    · subst hj
      simpa [Column.sets] using hfilled
    · simp [Column.sets, hj]
  refine ⟨h.loaded, h.copies, fun j x hx => ?_, fun j hj => ?_, ?_, fun j hj hg => ?_⟩
  · by_cases hji : j = i
    · exact hhand x (by simpa [Column.sets, hji] using hx)
    · exact h.hand j x (by simpa [Column.sets, hji] using hx)
  · rw [hsame]
    exact h.others j hj
  · rw [hsame]
    exact h.filled
  · by_cases hji : j = i
    · subst hji
      simpa [Column.sets] using hdepth hj hg
    · simpa [Column.sets, hji] using h.gated j hj hg

omit [DecidableEq ι] in
/-- Once the gate has left the call that loaded, no tier is without the value. -/
theorem Loaded.full (h : c.Loaded w v) (hgate : c.gate ≠ some w) (t : Fin n) :
    c.copies t = some v := by
  obtain ⟨ts, -, hcopies, hw | hall⟩ := h.filled
  · exact absurd hw hgate
  · exact hcopies t (hall t)

theorem Loaded.step (hn : 0 < n) (h : c.Loaded w v) (hstep : Step c c') : c'.Loaded w v := by
  cases hstep with
  | hit i t x ht hx =>
    refine h.sets i (p := { c.calls i with hand := some x }) (fun y hy => ?_) rfl (h.gated i)
    obtain rfl := Option.some.inj hy
    exact h.copies t x hx
  | miss i t ht hnone =>
    refine h.sets i (p := { c.calls i with depth := t + 1 }) (h.hand i) rfl fun hi hg => ?_
    rw [h.full (by rw [hg]; simpa using hi) t] at hnone
    cases hnone
  | promote i t x hx =>
    obtain rfl := h.hand i x hx
    exact h.copy t
  | write i t x hx =>
    obtain rfl := h.has hx
    have hcopied := h.copy t
    by_cases hi : i = w
    · subst hi
      obtain ⟨ts, hts, hcopies, hgate⟩ := hcopied.filled
      have hfill : ((c.calls i).fill t).filled = some (x, t :: ts) := by
        simp [Progress.fill, show (c.calls i).filled = some (x, ts) from hts]
      refine ⟨h.loaded, hcopied.copies, fun j y hy => ?_, fun j hj => ?_, ?_, fun j hj hg => ?_⟩
      · by_cases hji : j = i
        · exact h.hand i y (by simpa [Column.sets, hji, Progress.fill] using hy)
        · exact h.hand j y (by simpa [Column.sets, hji] using hy)
      · simpa [Column.sets, hj] using h.others j hj
      · refine ⟨t :: ts, by simpa [Column.sets] using hfill, fun j hj => ?_, ?_⟩
        · obtain rfl | hj := List.mem_cons.1 hj
          · simp
          · exact hcopies j hj
        · exact hgate.imp id fun hall j => List.mem_cons_of_mem t (hall j)
      · simpa [Column.sets, hj] using h.gated j hj hg
    · exact hcopied.sets i (h.hand i) (by simp [Progress.fill, h.others i hi]) (h.gated i)
  | enter i hfree =>
    obtain ⟨ts, hts, hcopies, hgate⟩ := h.filled
    have hall : ∀ t, t ∈ ts := hgate.resolve_left (by simp [hfree])
    have hset := h.sets i (p := { c.calls i with depth := 0 }) (h.hand i) rfl fun _ _ => rfl
    obtain ⟨ts', hts', hcopies', -⟩ := hset.filled
    refine ⟨h.loaded, h.copies, hset.hand, hset.others, ⟨ts', hts', hcopies', Or.inr ?_⟩, ?_⟩
    · have hsame : (c.sets i { c.calls i with depth := 0 } w).filled = (c.calls w).filled := by
        by_cases hw : w = i <;> simp [Column.sets, hw]
      rw [show (c.sets i { c.calls i with depth := 0 } w).filled = some (v, ts') from hts',
        hts] at hsame
      cases hsame
      exact hall
    · rintro j hj ⟨⟩
      simp [Column.sets]
  | leave i hi hall =>
    obtain ⟨ts, hts, hcopies, hgate⟩ := h.filled
    refine ⟨h.loaded, h.copies, h.hand, h.others, ⟨ts, hts, hcopies, Or.inr ?_⟩, ?_⟩
    · obtain hw | hfull := hgate
      · obtain rfl := Option.some.inj (hi.symm.trans hw)
        exact hall v ts hts
      · exact hfull
    · rintro j hj ⟨⟩
  | load i x hi hdepth hnone =>
    -- the loader has its fill, and anybody else under the gate has missed no tier
    by_cases hiw : i = w
    · subst hiw
      obtain ⟨ts, hts, -⟩ := h.filled
      rw [hnone] at hts
      cases hts
    · have hzero := h.gated i hiw hi
      omega

omit [DecidableEq ι] in
theorem Unloaded.not_has (h : c.Unloaded) {i : ι} {x : V} : ¬ (c.calls i).Has x := by
  rintro (hhand | ⟨ts, hfilled⟩)
  · rw [h.hand i] at hhand
    cases hhand
  · rw [h.filled i] at hfilled
    cases hfilled

theorem Unloaded.step (h : c.Unloaded) (hstep : Step c c') :
    c'.Unloaded ∨ ∃ w v, c'.Loaded w v := by
  have hsets : ∀ i p, p.hand = none → p.filled = none → ∀ gate,
      Unloaded { c with gate, calls := c.sets i p } := by
    intro i p hhand hfilled gate
    refine ⟨h.copies, fun j => ?_, fun j => ?_, h.loaded⟩ <;> by_cases hj : j = i
    · simpa [Column.sets, hj] using hhand
    · simpa [Column.sets, hj] using h.hand j
    · simpa [Column.sets, hj] using hfilled
    · simpa [Column.sets, hj] using h.filled j
  cases hstep with
  | hit i t x ht hx =>
    rw [h.copies t] at hx
    cases hx
  | miss i t ht hnone =>
    exact Or.inl (hsets i { c.calls i with depth := t + 1 } (h.hand i) (h.filled i) c.gate)
  | promote i t x hx =>
    rw [h.hand i] at hx
    cases hx
  | write i t x hx => exact (h.not_has hx).elim
  | enter i hfree =>
    exact Or.inl (hsets i { c.calls i with depth := 0 } (h.hand i) (h.filled i) (some i))
  | leave i hi hall => exact Or.inl ⟨h.copies, h.hand, h.filled, h.loaded⟩
  | load i v hi hdepth hnone =>
    refine Or.inr ⟨i, v, by simp [h.loaded], fun t x hx => ?_, fun j x hx => ?_, fun j hj => ?_,
      ⟨[], by simp [Column.sets], by simp, Or.inl hi⟩, fun j hj hg => ?_⟩
    · rw [h.copies t] at hx
      cases hx
    · have hnone : (c.sets i { c.calls i with filled := some (v, []) } j).hand = none := by
        by_cases hji : j = i
        · simpa [Column.sets, hji] using h.hand i
        · simpa [Column.sets, hji] using h.hand j
      rw [hnone] at hx
      cases hx
    · simpa [Column.sets, hj] using h.filled j
    · exact absurd (Option.some.inj (hg.symm.trans hi)) hj

end Loaded

/-- Nothing has been loaded yet, or one value has. -/
def Fresh (c : Column ι n V) : Prop := c.Unloaded ∨ ∃ w v, c.Loaded w v

theorem Fresh.step (hn : 0 < n) {c c' : Column ι n V} (h : c.Fresh) (hstep : Step c c') :
    c'.Fresh := by
  obtain h | ⟨w, v, h⟩ := h
  · exact h.step hstep
  · exact Or.inr ⟨w, v, h.step hn hstep⟩

end Column
end Tierstore
