import Mathlib.Algebra.BigOperators.Pi
import Mathlib.Algebra.BigOperators.Group.Finset.Basic
import Tierstore.Lib.Interleave

/-! What answered queries cost. Every thread runs up a bill; the bills of all threads add up to
what the shared state has metered, whatever the interleaving. -/
namespace Effects
open Finset

section Meter
variable {Q : Type} {R : Q → Type} {M α β : Type} [AddCommMonoid M]

/-- However it is answered, as long as it is as promised: the program started with the bill `m`
ends with a result and a bill that obey `law`. -/
def Program.Bills (ans : (q : Q) → R q → Prop) (cost : (q : Q) → R q → M) (law : M → α → Prop)
    (p : Program Q R α) (m : M) : Prop :=
  p.Follows (fun _ _ => True) ans (fun m q r => m + cost q r) law m

/-- The same from an empty bill, whatever was on it before. -/
def Program.Costs (ans : (q : Q) → R q → Prop) (cost : (q : Q) → R q → M) (law : M → α → Prop)
    (p : Program Q R α) : Prop :=
  ∀ m, p.Bills ans cost (fun total a => ∃ own, total = m + own ∧ law own a) m

variable {ans : (q : Q) → R q → Prop} {cost : (q : Q) → R q → M}

theorem Program.Costs.done {law : M → α → Prop} {a : α} (h : law 0 a) :
    (Program.done a : Program Q R α).Costs ans cost law :=
  fun m => ⟨0, (add_zero m).symm, h⟩

theorem Program.Costs.call {q : Q} {next : R q → Program Q R α} {law : M → α → Prop}
    (h : ∀ r, ans q r → (next r).Costs ans cost fun own a => law (cost q r + own) a) :
    (Program.call q next).Costs ans cost law := by
  refine fun m => ⟨trivial, fun r hr => ?_⟩
  refine (h r hr (m + cost q r)).mono ?_
  rintro total a ⟨own, rfl, hown⟩
  exact ⟨cost q r + own, add_assoc m (cost q r) own, hown⟩

theorem Program.Costs.mono {law law' : M → α → Prop} {p : Program Q R α} (h : p.Costs ans cost law)
    (himp : ∀ own a, law own a → law' own a) : p.Costs ans cost law' := by
  refine fun m => (h m).mono ?_
  rintro total a ⟨own, htotal, hown⟩
  exact ⟨own, htotal, himp own a hown⟩

/-- Bills add up along a program. -/
theorem Program.Costs.bind {mid : M → α → Prop} {law : M → β → Prop} {p : Program Q R α}
    {f : α → Program Q R β} (h : p.Costs ans cost mid)
    (hf : ∀ first a, mid first a → (f a).Costs ans cost fun own b => law (first + own) b) :
    (p >>= f).Costs ans cost law := by
  refine fun m => (h m).bind ?_
  rintro total a ⟨first, rfl, hfirst⟩
  refine (hf first a hfirst (m + first)).mono ?_
  rintro total b ⟨own, rfl, hown⟩
  exact ⟨first + own, add_assoc m first own, hown⟩

/-- A program that asks nothing with a price costs nothing. -/
theorem Program.Safe.costs {ok : Q → Prop} {post : α → Prop} {p : Program Q R α}
    (h : p.Safe ok (fun _ _ => True) post) (hfree : ∀ q, ok q → ∀ r, cost q r = 0) :
    p.Costs ans cost fun own a => own = 0 ∧ post a := by
  induction p with
  | done a => exact .done ⟨rfl, h⟩
  | call q next ih =>
    refine .call fun r _ => (ih r (h.2 r trivial)).mono ?_
    rintro own a ⟨rfl, ha⟩
    rw [hfree q h.1 r, add_zero]
    exact ⟨rfl, ha⟩

end Meter

namespace Pool
variable {ι Q : Type} {R : Q → Type} {α : ι → Type} {σ M : Type} [AddCommMonoid M] [Fintype ι]
  [DecidableEq ι] {h : (q : Q) → σ → Option (R q × σ)} {ans : (q : Q) → R q → Prop}
  {cost : (q : Q) → R q → M} {law : (i : ι) → M → α i → Prop}

theorem sum_update_add (bill : ι → M) (i : ι) (extra : M) :
    ∑ j, Function.update bill i (bill i + extra) j = ∑ j, bill j + extra := by
  rw [Finset.sum_update_of_mem (mem_univ i), ← Finset.add_sum_erase univ bill (mem_univ i),
    Finset.sdiff_singleton_eq_erase, add_assoc, add_assoc, add_comm extra]

def Meters (h : (q : Q) → σ → Option (R q × σ)) (ans : (q : Q) → R q → Prop)
    (cost : (q : Q) → R q → M) (metered : σ → M → Prop) : Prop :=
  ∀ q s m r s', metered s m → h q s = some (r, s') → ans q r ∧ metered s' (m + cost q r)

/-- In every interleaving the meter shows the sum of the threads' bills, and every thread ends
with a bill that obeys its law. -/
theorem metered_run {metered : σ → M → Prop} (hmeters : Meters h ans cost metered)
    {threads : (i : ι) → Program Q R (α i)} (hthreads : ∀ i, (threads i).Costs ans cost (law i))
    {s : σ} (hs : metered s 0) (schedule : List ι) :
    let c := run h (start s threads) schedule
    ∃ bill : ι → M, metered c.shared (∑ i, bill i) ∧
      ∀ i, (c.threads i).Bills ans cost (law i) (bill i) := by
  refine run_keeps h (fun c : Pool ι Q R α σ => ∃ bill : ι → M,
    metered c.shared (∑ i, bill i) ∧ ∀ i, (c.threads i).Bills ans cost (law i) (bill i)) ?_ ?_
    schedule
  · rintro c i ⟨bill, hmetered, hbills⟩
    obtain hsame | ⟨q, next, r, s, hthread, hans, heq⟩ := step_cases h c i
    · rw [hsame]
      exact ⟨bill, hmetered, hbills⟩
    · obtain ⟨hr, hnext⟩ := hmeters q _ _ r s hmetered hans
      rw [heq]
      refine ⟨Function.update bill i (bill i + cost q r), ?_, fun j => ?_⟩
      · rw [sum_update_add]
        exact hnext
      · exact follows_step hbills hthread hr j
  · refine ⟨0, by simpa [start] using hs, fun i => ?_⟩
    refine (hthreads i 0).mono ?_
    rintro total a ⟨own, rfl, hown⟩
    rwa [zero_add]

/-- Once every thread has returned: bills that obey the laws and add up to what is metered. -/
theorem metered_done {metered : σ → M → Prop} (hmeters : Meters h ans cost metered)
    {threads : (i : ι) → Program Q R (α i)} (hthreads : ∀ i, (threads i).Costs ans cost (law i))
    {s : σ} (hs : metered s 0) {schedule : List ι} {results : (i : ι) → α i}
    (hdone : ∀ i, (run h (start s threads) schedule).threads i = .done (results i)) :
    ∃ bill : ι → M, metered (run h (start s threads) schedule).shared (∑ i, bill i) ∧
      ∀ i, law i (bill i) (results i) := by
  obtain ⟨bill, hmetered, hbills⟩ := metered_run hmeters hthreads hs schedule
  refine ⟨bill, hmetered, fun i => ?_⟩
  have hi := hbills i
  rwa [hdone i] at hi

end Pool
end Effects
