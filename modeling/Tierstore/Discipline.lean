import Tierstore.Service

/-! Which tiers an operation writes to: the writable ones only, whatever the tiers answer. -/
namespace Tierstore
open Effects

def TierCall.isWrite {K V : Type} : TierCall K V → Bool
  | .get _ => false
  | .exists_ _ => false
  | .getMany _ => false
  | .put _ _ => true
  | .delete _ => true
  | .putMany _ => true
  | .deleteMany _ => true

namespace Router
variable {n : Nat} {K V E : Type} (r : Router n)

def Permits (q : Query n K V) : Prop := q.2.isWrite = true → r.writable q.1 = true

def Fills (q : Query n K V) : Prop := q.2.isWrite = true ∧ r.writable q.1 = true

abbrev Asks {α : Type} (ok : Query n K V → Prop) (p : RouterM n K V E α) : Prop :=
  p.Safe ok (fun _ _ => True) fun _ => True

variable {r}

theorem permits_read {q : Query n K V} (h : q.2.isWrite = false) : r.Permits q := by
  intro hq
  rw [h] at hq
  cases hq

theorem Asks.andThen {α β : Type} {ok : Query n K V → Prop} {p : RouterM n K V E α}
    {f : α → RouterM n K V E β} (h : Asks ok p) (hf : ∀ a, Asks ok (f a)) : Asks ok (p >>= f) :=
  h.bind fun a _ => hf a

theorem Asks.permitted {α : Type} {p : RouterM n K V E α} (h : Asks r.Fills p) :
    Asks r.Permits p :=
  h.weaken fun _ hq _ => hq.2

theorem asks_forM {ι : Type} {ok : Query n K V → Prop} {l : List ι}
    {f : ι → RouterM n K V E Unit} (h : ∀ i, Asks ok (f i)) : Asks ok (l.forM f) := by
  induction l with
  | nil => trivial
  | cons i l ih => exact (h i).andThen fun _ => ih

variable (r)

/-! ## Copies and demotions -/

theorem demoteInto_fills {target : Fin n} (hw : r.writable target = true)
    (current next : Displaced K V) :
    Asks r.Fills (demoteInto target current next : RouterM n K V E _) := by
  induction current generalizing next with
  | nil => trivial
  | cons e rest ih =>
    refine ⟨⟨rfl, hw⟩, fun a _ => ?_⟩
    cases a with
    | ok displaced => exact ih _
    | error source => exact ih _

theorem demoteDown_fills (below : List (Fin n)) (current : Displaced K V) :
    Asks r.Fills (r.demoteDown below current : RouterM n K V E _) := by
  induction below generalizing current with
  | nil => trivial
  | cons target below ih =>
    rw [demoteDown]
    split
    · trivial
    · split
      · exact ih current
      · next hw =>
        have hwritable : r.writable target = true := by simpa using hw
        exact (r.demoteInto_fills hwritable current []).andThen fun next => ih next

theorem promoteWith_fills {tier : Fin n} {write : RouterM n K V E (Except E (Displaced K V))}
    (hwrite : r.writable tier = true → Asks r.Fills write) :
    Asks r.Fills (r.promoteWith tier write) := by
  rw [promoteWith]
  split
  · next hw =>
    refine (hwrite hw).andThen fun a => ?_
    cases a with
    | error source => trivial
    | ok displaced =>
      dsimp only
      split
      · exact (r.demoteDown_fills _ displaced).andThen fun _ => trivial
      · trivial
  · trivial

theorem putAt_fills {tier : Fin n} (hw : r.writable tier = true) (key : K) (value : V) :
    Asks r.Fills (putAt tier key value : RouterM n K V E _) := ⟨⟨rfl, hw⟩, fun _ _ => trivial⟩

theorem putManyAt_fills {tier : Fin n} (hw : r.writable tier = true) (entries : List (K × V)) :
    Asks r.Fills (putManyAt tier entries : RouterM n K V E _) := ⟨⟨rfl, hw⟩, fun _ _ => trivial⟩

theorem promoteOne_fills (tier : Fin n) (key : K) (hit : Option V) :
    Asks r.Fills (r.promoteOne tier key hit : RouterM n K V E _) := by
  cases hit with
  | none => trivial
  | some value => exact r.promoteWith_fills fun hw => r.putAt_fills hw key value

theorem promoteBatch_fills (keys : List K) (statuses : Fin keys.length → KeyStatus V) :
    Asks r.Fills (r.promoteBatch keys statuses : RouterM n K V E _) := by
  have hloop : ∀ tiers : List (Fin n),
      Asks r.Fills (r.promoteTiers keys statuses tiers : RouterM n K V E _) := by
    intro tiers
    induction tiers with
    | nil => trivial
    | cons tier rest ih =>
      rw [promoteTiers]
      dsimp only
      split
      · exact ih
      · refine (asks_forM fun target => ?_).andThen fun _ => ih
        exact r.promoteWith_fills fun hw => r.putManyAt_fills hw _
  rw [promoteBatch]
  split
  · trivial
  · exact hloop _

/-! ## Writes and deletes -/

theorem writeThrough_fills {write : Fin n → RouterM n K V E (Except E (Displaced K V))}
    (hwrite : ∀ tier, r.writable tier = true → Asks r.Fills (write tier)) (tiers : List (Fin n))
    (evicted : Displaced K V) : Asks r.Fills (r.writeThrough write tiers evicted) := by
  induction tiers generalizing evicted with
  | nil => trivial
  | cons tier above ih =>
    rw [writeThrough]
    split
    · exact ih evicted
    · next hw =>
      refine (hwrite tier (by simpa using hw)).andThen fun a => ?_
      cases a with
      | ok displaced =>
        dsimp only
        split
        · exact ih evicted
        · split
          · exact (r.demoteDown_fills _ displaced).andThen fun out => ih _
          · exact ih _
      | error source =>
        dsimp only
        cases r.policy.onWriteError with
        | failFast => trivial
        | bestEffort => exact ih evicted

theorem invalidate_fills {α : Type} {remove : Fin n → RouterM n K V E (Except E α)}
    (hremove : ∀ tier, r.writable tier = true → Asks r.Fills (remove tier))
    (tiers : List (Fin n)) (failures : List (TierFailure E)) :
    Asks r.Fills (r.invalidate remove tiers failures) := by
  induction tiers generalizing failures with
  | nil => trivial
  | cons tier below ih =>
    rw [invalidate]
    split
    · exact ih failures
    · next hw =>
      refine (hremove tier (by simpa using hw)).andThen fun a => ?_
      cases a with
      | ok a => exact ih failures
      | error source => exact ih _

theorem writeAround_fills {α : Type} {write : Fin n → RouterM n K V E (Except E (Displaced K V))}
    {remove : Fin n → RouterM n K V E (Except E α)}
    (hwrite : ∀ tier, r.writable tier = true → Asks r.Fills (write tier))
    (hremove : ∀ tier, r.writable tier = true → Asks r.Fills (remove tier)) :
    Asks r.Fills (r.writeAround write remove) := by
  rw [writeAround]
  split
  · trivial
  · next bottom hbottom =>
    refine (hwrite bottom (List.find?_some hbottom)).andThen fun a => ?_
    cases a with
    | error source => trivial
    | ok displaced =>
      refine (r.invalidate_fills hremove _ []).andThen fun failures => ?_
      split <;> trivial

theorem put_fills (key : K) (value : V) : Asks r.Fills (r.put key value : RouterM n K V E _) := by
  have hwrite : ∀ tier, r.writable tier = true →
      Asks r.Fills (putAt tier key value : RouterM n K V E _) :=
    fun tier hw => r.putAt_fills hw key value
  rw [put]
  cases r.policy.write with
  | writeThrough =>
    dsimp only
    split
    · trivial
    · exact r.writeThrough_fills hwrite _ []
  | writeAround =>
    exact r.writeAround_fills hwrite fun tier hw => ⟨⟨rfl, hw⟩, fun _ _ => trivial⟩

theorem putMany_fills (entries : List (K × V)) :
    Asks r.Fills (r.putMany entries : RouterM n K V E _) := by
  have hwrite : ∀ tier, r.writable tier = true →
      Asks r.Fills (putManyAt tier entries : RouterM n K V E _) :=
    fun tier hw => r.putManyAt_fills hw entries
  rw [putMany]
  cases r.policy.write with
  | writeThrough =>
    dsimp only
    split
    · trivial
    · exact r.writeThrough_fills hwrite _ []
  | writeAround =>
    exact r.writeAround_fills hwrite fun tier hw => ⟨⟨rfl, hw⟩, fun _ _ => trivial⟩

theorem delete_fills (key : K) : Asks r.Fills (r.delete key : RouterM n K V E _) := by
  have hloop : ∀ (tiers : List (Fin n)) (existed : Bool) (failures : List (TierFailure E)),
      Asks r.Fills (r.deleteTiers (V := V) key tiers existed failures) := by
    intro tiers
    induction tiers with
    | nil =>
      intro existed failures
      rw [deleteTiers]
      split <;> trivial
    | cons tier below ih =>
      intro existed failures
      rw [deleteTiers]
      split
      · exact ih existed failures
      · next hw =>
        refine ⟨⟨rfl, by simpa using hw⟩, fun a _ => ?_⟩
        cases a with
        | ok present => exact ih _ failures
        | error source => exact ih existed _
  exact hloop _ _ _

theorem removeMany_fills (keys : List K) :
    Asks r.Fills (r.removeMany keys : RouterM n K V E _) := by
  have hloop : ∀ (tiers : List (Fin n)) (removed : List Bool) (failures : List (TierFailure E)),
      Asks r.Fills (r.removeTiers (V := V) keys tiers removed failures) := by
    intro tiers
    induction tiers with
    | nil => exact fun _ _ => trivial
    | cons tier below ih =>
      intro removed failures
      rw [removeTiers]
      split
      · exact ih removed failures
      · next hw =>
        refine ⟨⟨rfl, by simpa using hw⟩, fun a _ => ?_⟩
        cases a with
        | ok flags => exact ih _ failures
        | error source => exact ih removed _
  exact hloop _ _ _

/-! ## Every operation -/

theorem get_permits (key : K) : Asks r.Permits (r.get key : RouterM n K V E _) := by
  have hloop : ∀ (tiers : List (Fin n)) (failures : List (TierFailure E)),
      Asks r.Permits (r.readDown (V := V) key tiers failures) := by
    intro tiers
    induction tiers with
    | nil => exact fun _ => trivial
    | cons tier below ih =>
      intro failures
      refine ⟨permits_read rfl, fun a _ => ?_⟩
      cases a with
      | ok found =>
        cases found with
        | some value =>
          refine (asks_forM fun target => ?_).andThen fun _ => trivial
          exact (r.promoteOne_fills target key (some value)).permitted
        | none => exact ih failures
      | error source =>
        dsimp only
        cases r.policy.read.onError with
        | failFast => trivial
        | fallThrough => exact ih _
  rw [get_eq, map_eq_pure_bind]
  exact (hloop _ []).andThen fun _ => trivial

theorem exists_permits (key : K) : Asks r.Permits (r.exists_ (V := V) key : RouterM n K V E _) := by
  have hloop : ∀ (tiers : List (Fin n)) (failures : List (TierFailure E)),
      Asks r.Permits (r.existsDown (V := V) key tiers failures) := by
    intro tiers
    induction tiers with
    | nil => exact fun _ => trivial
    | cons tier below ih =>
      intro failures
      refine ⟨permits_read rfl, fun a _ => ?_⟩
      cases a with
      | ok found =>
        cases found with
        | true => trivial
        | false => exact ih failures
      | error source =>
        dsimp only
        cases r.policy.read.onError with
        | failFast => trivial
        | fallThrough => exact ih _
  rw [exists_eq, map_eq_pure_bind]
  exact (hloop _ []).andThen fun _ => trivial

theorem readMany_permits (keys : List K) :
    Asks r.Permits (r.readMany keys : RouterM n K V E _) := by
  have hloop : ∀ (tiers : List (Fin n)) (statuses : Fin keys.length → KeyStatus V)
      (unresolved : List (Fin keys.length)) (failures : List (TierFailure E)),
      Asks r.Permits (r.readTiers keys tiers statuses unresolved failures) := by
    intro tiers
    induction tiers with
    | nil => exact fun _ _ _ => trivial
    | cons tier below ih =>
      intro statuses unresolved failures
      rw [readTiers]
      split
      · trivial
      · refine ⟨permits_read rfl, fun a _ => ?_⟩
        cases a with
        | ok found => exact ih _ _ failures
        | error source =>
          dsimp only
          cases r.policy.read.onError with
          | failFast => trivial
          | fallThrough => exact ih statuses unresolved _
  refine (hloop _ _ _ []).andThen fun a => ?_
  cases a with
  | error error => trivial
  | ok out => exact (r.promoteBatch_fills keys _).permitted.andThen fun _ => trivial

theorem execute_permits (c : RouterCall K V) :
    Asks r.Permits (r.execute c : RouterM n K V E _) := by
  cases c with
  | get key => exact r.get_permits key
  | exists_ key => exact r.exists_permits key
  | getMany keys =>
    refine (r.readMany_permits keys).andThen fun a => ?_
    cases a with
    | error error => trivial
    | ok report =>
      dsimp only
      split <;> trivial
  | put key value => exact (r.put_fills key value).permitted
  | delete key => exact (r.delete_fills key).permitted
  | putMany entries => exact (r.putMany_fills entries).permitted
  | deleteMany keys =>
    refine (r.removeMany_fills keys).permitted.andThen fun report => ?_
    split <;> trivial
  | readMany keys => exact r.readMany_permits keys
  | readOne key =>
    refine (r.readMany_permits [key]).andThen fun a => ?_
    cases a <;> trivial
  | removeMany keys => exact (r.removeMany_fills keys).permitted

end Router
end Tierstore
