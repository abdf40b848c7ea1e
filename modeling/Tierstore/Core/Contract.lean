import Tierstore.Core.Tier

/-! The contract of the tier traits, over the key-value map a tier holds. Any call may
fail; a failed `put` or `delete` leaves the map as it was, a failed batch may have been
carried out in part. -/
namespace Tierstore
open Overlay

class LawfulTier (T : Type) {K V E : outParam Type} [DecidableEq K] [Tier T K V E] where
  contents : T → K → Option V
  get_contents (t : T) (k : K) : contents (Tier.get t k).2 = contents t
  get_ok (t : T) (k : K) (a : Option V) : (Tier.get t k).1 = .ok a → a = contents t k
  exists_contents (t : T) (k : K) : contents (Tier.exists_ t k).2 = contents t
  exists_ok (t : T) (k : K) (b : Bool) :
    (Tier.exists_ t k).1 = .ok b → b = (contents t k).isSome
  getMany_contents (t : T) (ks : List K) : contents (Tier.getMany t ks).2 = contents t
  getMany_ok (t : T) (ks : List K) (vs : List (Option V)) :
    (Tier.getMany t ks).1 = .ok vs → vs = ks.map (contents t)
  put_error (t : T) (k : K) (v : V) (e : E) :
    (Tier.put t k v).1 = .error e → contents (Tier.put t k v).2 = contents t
  /-- Nothing is lost by a put: what leaves the map is displaced. -/
  put_ok (t : T) (k : K) (v : V) (displaced : Displaced K V) :
    (Tier.put t k v).1 = .ok displaced →
      atop (contents (Tier.put t k v).2) (latest displaced) = write (contents t) [(k, v)]
  /-- An entry is displaced out of the map that already holds the new one. -/
  put_displaced (t : T) (k : K) (v : V) (displaced : Displaced K V) :
    (Tier.put t k v).1 = .ok displaced →
      ∀ e ∈ displaced, write (contents t) [(k, v)] e.1 = some e.2
  delete_error (t : T) (k : K) (e : E) :
    (Tier.delete t k).1 = .error e → contents (Tier.delete t k).2 = contents t
  delete_ok (t : T) (k : K) (b : Bool) :
    (Tier.delete t k).1 = .ok b → contents (Tier.delete t k).2 = erase (contents t) k
  putMany_ok (t : T) (es : List (K × V)) (displaced : Displaced K V) :
    (Tier.putMany t es).1 = .ok displaced →
      atop (contents (Tier.putMany t es).2) (latest displaced) = write (contents t) es
  putMany_displaced (t : T) (es : List (K × V)) (displaced : Displaced K V) :
    (Tier.putMany t es).1 = .ok displaced →
      ∀ e ∈ displaced, e ∈ es ∨ contents t e.1 = some e.2
  putMany_contents (t : T) (es : List (K × V)) (k : K) (v : V) :
    contents (Tier.putMany t es).2 k = some v → (k, v) ∈ es ∨ contents t k = some v
  deleteMany_ok (t : T) (ks : List K) (bs : List Bool) :
    (Tier.deleteMany t ks).1 = .ok bs →
      contents (Tier.deleteMany t ks).2 = eraseAll (contents t) ks
  deleteMany_error (t : T) (ks : List K) (e : E) (k : K) :
    (Tier.deleteMany t ks).1 = .error e →
      contents (Tier.deleteMany t ks).2 k = contents t k ∨
        k ∈ ks ∧ contents (Tier.deleteMany t ks).2 k = none

export LawfulTier (contents)

/-- `U` holds of tiers that never displace an entry, whatever is asked of them. -/
structure Keeping {T K V E : Type} [Tier T K V E] (U : T → Prop) : Prop where
  call (t : T) (c : TierCall K V) : U t → U (Tier.call t c).2
  put (t : T) (k : K) (v : V) (displaced : Displaced K V) :
    U t → (Tier.put t k v).1 = .ok displaced → displaced = []
  putMany (t : T) (es : List (K × V)) (displaced : Displaced K V) :
    U t → (Tier.putMany t es).1 = .ok displaced → displaced = []

section Defaults
variable {T K V E : Type}

theorem map_ok {ε α β : Type} {f : α → β} {r : Except ε α} {b : β} (h : r.map f = .ok b) :
    ∃ a, r = .ok a ∧ f a = b := by
  cases r with
  | error e => cases h
  | ok a => exact ⟨a, rfl, Except.ok.inj h⟩

section Read
variable {get : T → K → Except E (Option V) × T} {held : T → K → Option V}

theorem getManyDefault_held (h : ∀ t k, held (get t k).2 = held t) (t : T) (ks : List K) :
    held (getManyDefault get t ks).2 = held t := by
  induction ks generalizing t with
  | nil => rfl
  | cons k rest ih =>
    have hk := h t k
    rw [getManyDefault]
    split
    · next e t' heq => rw [heq] at hk; exact hk
    · next a t' heq => rw [heq] at hk; exact (ih t').trans hk

theorem getManyDefault_ok (h : ∀ t k, held (get t k).2 = held t)
    (hok : ∀ t k a, (get t k).1 = .ok a → a = held t k) (t : T) (ks : List K)
    (vs : List (Option V)) (hvs : (getManyDefault get t ks).1 = .ok vs) :
    vs = ks.map (held t) := by
  induction ks generalizing t vs with
  | nil => exact (Except.ok.inj hvs).symm
  | cons k rest ih =>
    have hk := h t k
    have ha := hok t k
    rw [getManyDefault] at hvs
    split at hvs
    · cases hvs
    · next a t' heq =>
      rw [heq] at hk ha
      obtain ⟨values, hrest, rfl⟩ := map_ok hvs
      rw [List.map_cons, ih t' values hrest, ← ha a rfl, hk]

end Read

section Write
variable [DecidableEq K] {put : T → K → V → Except E (Displaced K V) × T}
  {held : T → K → Option V}

/-- What a single put guarantees carries over to the looping batch. -/
theorem putManyDefault_ok
    (hok : ∀ t k v d, (put t k v).1 = .ok d →
      atop (held (put t k v).2) (latest d) = write (held t) [(k, v)])
    (t : T) (es : List (K × V)) (d : Displaced K V)
    (hd : (putManyDefault put t es).1 = .ok d) :
    atop (held (putManyDefault put t es).2) (latest d) = write (held t) es := by
  induction es generalizing t d with
  | nil =>
    have hnil : d = [] := (Except.ok.inj hd).symm
    subst d
    simp [putManyDefault]
  | cons e rest ih =>
    obtain ⟨k, v⟩ := e
    have hk := hok t k v
    rw [putManyDefault] at hd ⊢
    generalize put t k v = r at hd hk ⊢
    obtain ⟨e | d₁, t₁⟩ := r
    · cases hd
    · obtain ⟨more, hrest, rfl⟩ := map_ok hd
      have h₁ : atop (held t₁) (latest d₁) = write (held t) [(k, v)] := hk d₁ rfl
      have h₂ := ih t₁ more hrest
      calc atop (held (putManyDefault put t₁ rest).2) (latest (d₁ ++ more))
          = atop (write (held t₁) rest) (latest d₁) := by
            rw [latest_append, ← atop_assoc, h₂]
        _ = write (atop (held t₁) (latest d₁)) rest := (write_atop _ _ _).symm
        _ = write (held t) ((k, v) :: rest) := by rw [h₁, ← write_cons]

omit [DecidableEq K] in
theorem putManyDefault_contents
    (hput : ∀ t k v x w, held (put t k v).2 x = some w → (x, w) = (k, v) ∨ held t x = some w)
    (t : T) (es : List (K × V)) (x : K) (w : V)
    (hx : held (putManyDefault put t es).2 x = some w) :
    (x, w) ∈ es ∨ held t x = some w := by
  induction es generalizing t with
  | nil => exact Or.inr hx
  | cons e rest ih =>
    obtain ⟨k, v⟩ := e
    have hk := hput t k v x w
    rw [putManyDefault] at hx
    generalize put t k v = r at hx hk
    have hstep : held r.2 x = some w → (x, w) ∈ (k, v) :: rest ∨ held t x = some w := by
      intro h
      obtain heq | hheld := hk h
      · exact Or.inl (by simp [heq])
      · exact Or.inr hheld
    obtain ⟨e | d₁, t₁⟩ := r
    · exact hstep hx
    · obtain hmem | hheld := ih t₁ hx
      · exact Or.inl (List.mem_cons_of_mem _ hmem)
      · exact hstep hheld

omit [DecidableEq K] in
theorem putManyDefault_displaced
    (hput : ∀ t k v x w, held (put t k v).2 x = some w → (x, w) = (k, v) ∨ held t x = some w)
    (hd : ∀ t k v d, (put t k v).1 = .ok d → ∀ e ∈ d, e = (k, v) ∨ held t e.1 = some e.2)
    (t : T) (es : List (K × V)) (d : Displaced K V)
    (hok : (putManyDefault put t es).1 = .ok d) :
    ∀ e ∈ d, e ∈ es ∨ held t e.1 = some e.2 := by
  induction es generalizing t d with
  | nil =>
    have hnil : d = [] := (Except.ok.inj hok).symm
    subst d
    simp
  | cons e rest ih =>
    obtain ⟨k, v⟩ := e
    have hk := hd t k v
    have hc := hput t k v
    rw [putManyDefault] at hok
    generalize put t k v = r at hok hk hc
    obtain ⟨e | d₁, t₁⟩ := r
    · cases hok
    · obtain ⟨more, hrest, rfl⟩ := map_ok hok
      intro e he
      obtain h₁ | h₂ := List.mem_append.1 he
      · obtain heq | hheld := hk d₁ rfl e h₁
        · exact Or.inl (by simp [heq])
        · exact Or.inr hheld
      · obtain hmem | hheld := ih t₁ more hrest e h₂
        · exact Or.inl (List.mem_cons_of_mem _ hmem)
        · obtain heq | hold := hc e.1 e.2 hheld
          · exact Or.inl (by simp [← heq])
          · exact Or.inr hold

end Write

section Delete
variable [DecidableEq K] {delete : T → K → Except E Bool × T} {held : T → K → Option V}

theorem deleteManyDefault_ok
    (hok : ∀ t k b, (delete t k).1 = .ok b → held (delete t k).2 = erase (held t) k)
    (t : T) (ks : List K) (bs : List Bool)
    (hbs : (deleteManyDefault delete t ks).1 = .ok bs) :
    held (deleteManyDefault delete t ks).2 = eraseAll (held t) ks := by
  induction ks generalizing t bs with
  | nil =>
    funext x
    simp [deleteManyDefault, eraseAll]
  | cons k rest ih =>
    have hk := hok t k
    rw [deleteManyDefault] at hbs ⊢
    generalize delete t k = r at hbs hk ⊢
    obtain ⟨e | b, t₁⟩ := r
    · cases hbs
    · obtain ⟨removed, hrest, rfl⟩ := map_ok hbs
      have h₁ : held t₁ = erase (held t) k := hk b rfl
      have h₂ := ih t₁ removed hrest
      calc held (deleteManyDefault delete t₁ rest).2
          = eraseAll (eraseAll (held t) [k]) rest := by rw [h₂, h₁, eraseAll_singleton]
        _ = eraseAll (held t) (k :: rest) := (eraseAll_append _ _ _).symm

omit [DecidableEq K] in
theorem deleteManyDefault_keeps
    (hdel : ∀ t k x, held (delete t k).2 x = held t x ∨ x = k ∧ held (delete t k).2 x = none)
    (t : T) (ks : List K) (x : K) :
    held (deleteManyDefault delete t ks).2 x = held t x ∨
      x ∈ ks ∧ held (deleteManyDefault delete t ks).2 x = none := by
  induction ks generalizing t with
  | nil => exact Or.inl rfl
  | cons k rest ih =>
    have hk := hdel t k x
    rw [deleteManyDefault]
    generalize delete t k = r at hk ⊢
    obtain ⟨e | b, t₁⟩ := r
    · rcases hk with hk | ⟨rfl, hk⟩
      · exact Or.inl hk
      · exact Or.inr ⟨by simp, hk⟩
    · rcases ih t₁ with hr | ⟨hmem, hr⟩
      · rcases hk with hk | ⟨rfl, hk⟩
        · exact Or.inl (hr.trans hk)
        · exact Or.inr ⟨by simp, hr.trans hk⟩
      · exact Or.inr ⟨List.mem_cons_of_mem _ hmem, hr⟩

end Delete
end Defaults
end Tierstore
