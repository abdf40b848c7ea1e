import Tierstore.Memory
import Tierstore.Report

/-! Typed keys and values over a byte tier: a one-way key mapping and a value codec that
embeds the original key. -/
namespace Tierstore
open Overlay

inductive CodecError (E : Type) where
  | backend (error : E)
  | codec (error : BoxError)
  deriving DecidableEq, Repr

structure CodecTier (T IK IV K V : Type) where
  inner : T
  toKey : K → IK
  encode : K → V → Except BoxError IV
  decode : IV → Except BoxError (K × V)

namespace CodecTier
variable {T IK IV K V E : Type}

/-- One answer of the inner tier, decoded; the embedded key is not looked at. -/
def decodeFound (decode : IV → Except BoxError (K × V)) :
    Option IV → Except (CodecError E) (Option V)
  | none => .ok none
  | some encoded =>
    match decode encoded with
    | .ok (_, value) => .ok (some value)
    | .error e => .error (.codec e)

def decodeAll (decode : IV → Except BoxError (K × V)) :
    List (Option IV) → Except (CodecError E) (List (Option V))
  | [] => .ok []
  | encoded :: rest =>
    match decodeFound decode encoded with
    | .error e => .error e
    | .ok value => (decodeAll decode rest).map (value :: ·)

/-- The whole batch is encoded before the inner tier sees any of it. -/
def encodeAll (toKey : K → IK) (encode : K → V → Except BoxError IV) :
    List (K × V) → Except BoxError (List (IK × IV))
  | [] => .ok []
  | (key, value) :: rest =>
    match encode key value with
    | .error e => .error e
    | .ok encoded => (encodeAll toKey encode rest).map ((toKey key, encoded) :: ·)

/-- Displaced entries come back typed; one that does not decode is dropped. -/
def climbOut (decode : IV → Except BoxError (K × V)) (displaced : Displaced IK IV) :
    Displaced K V :=
  displaced.filterMap fun entry => (decode entry.2).toOption

instance [Tier T IK IV E] : Tier (CodecTier T IK IV K V) K V (CodecError E) where
  get t key :=
    let out := Tier.get t.inner (t.toKey key)
    (match out.1 with
      | .error e => .error (.backend e)
      | .ok found => decodeFound t.decode found, { t with inner := out.2 })
  exists_ t key :=
    let out := Tier.exists_ t.inner (t.toKey key)
    (out.1.mapError .backend, { t with inner := out.2 })
  getMany t keys :=
    let out := Tier.getMany t.inner (keys.map t.toKey)
    (match out.1 with
      | .error e => .error (.backend e)
      | .ok found => decodeAll t.decode found, { t with inner := out.2 })
  put t key value :=
    match t.encode key value with
    | .error e => (.error (.codec e), t)
    | .ok encoded =>
      let out := Tier.put t.inner (t.toKey key) encoded
      ((out.1.mapError .backend).map (climbOut t.decode), { t with inner := out.2 })
  delete t key :=
    let out := Tier.delete t.inner (t.toKey key)
    (out.1.mapError .backend, { t with inner := out.2 })
  putMany t entries :=
    match encodeAll t.toKey t.encode entries with
    | .error e => (.error (.codec e), t)
    | .ok encoded =>
      let out := Tier.putMany t.inner encoded
      ((out.1.mapError .backend).map (climbOut t.decode), { t with inner := out.2 })
  deleteMany t keys :=
    let out := Tier.deleteMany t.inner (keys.map t.toKey)
    (out.1.mapError .backend, { t with inner := out.2 })

/-! ## Histories -/

def puts : TierCall K V → List (K × V)
  | .put key value => [(key, value)]
  | .putMany entries => entries
  | _ => []

def serve [Tier T IK IV E] (t : CodecTier T IK IV K V) (c : TierCall K V) :
    CodecTier T IK IV K V := (Tier.call t c).2

theorem encodeAll_mem {toKey : K → IK} {encode : K → V → Except BoxError IV}
    {entries : List (K × V)} {encoded : List (IK × IV)}
    (h : encodeAll toKey encode entries = .ok encoded) {e : IK × IV} (he : e ∈ encoded) :
    ∃ key value, (key, value) ∈ entries ∧ toKey key = e.1 ∧ encode key value = .ok e.2 := by
  induction entries generalizing encoded with
  | nil =>
    cases h
    cases he
  | cons entry rest ih =>
    obtain ⟨key, value⟩ := entry
    rw [encodeAll] at h
    cases henc : encode key value with
    | error err => simp [henc] at h
    | ok iv =>
      rw [henc] at h
      obtain ⟨more, hrest, rfl⟩ := map_ok h
      obtain rfl | hmem := List.mem_cons.1 he
      · exact ⟨key, value, by simp, rfl, henc⟩
      · obtain ⟨k, v, hkv, hk, hv⟩ := ih hrest hmem
        exact ⟨k, v, List.mem_cons_of_mem _ hkv, hk, hv⟩

variable [Tier T IK IV E]

/-- No call changes the mapping or the codec. -/
theorem serve_codec (t : CodecTier T IK IV K V) (c : TierCall K V) :
    (serve t c).toKey = t.toKey ∧ (serve t c).encode = t.encode ∧
      (serve t c).decode = t.decode := by
  cases c with
  | get k => exact ⟨rfl, rfl, rfl⟩
  | exists_ k => exact ⟨rfl, rfl, rfl⟩
  | getMany ks => exact ⟨rfl, rfl, rfl⟩
  | delete k => exact ⟨rfl, rfl, rfl⟩
  | deleteMany ks => exact ⟨rfl, rfl, rfl⟩
  | put k v =>
    simp only [serve, Tier.call, Tier.put]
    cases t.encode k v <;> exact ⟨rfl, rfl, rfl⟩
  | putMany es =>
    simp only [serve, Tier.call, Tier.putMany]
    cases encodeAll t.toKey t.encode es <;> exact ⟨rfl, rfl, rfl⟩

theorem history_codec (calls : List (TierCall K V)) (t : CodecTier T IK IV K V) :
    (calls.foldl serve t).toKey = t.toKey ∧ (calls.foldl serve t).encode = t.encode ∧
      (calls.foldl serve t).decode = t.decode := by
  induction calls generalizing t with
  | nil => exact ⟨rfl, rfl, rfl⟩
  | cons c calls ih =>
    obtain ⟨h₁, h₂, h₃⟩ := serve_codec t c
    obtain ⟨g₁, g₂, g₃⟩ := ih (serve t c)
    exact ⟨g₁.trans h₁, g₂.trans h₂, g₃.trans h₃⟩

variable [DecidableEq IK] [LawfulTier T]

/-- Everything the inner tier holds is the encoding of an entry put, under its key's image. -/
def Traced (put : List (K × V)) (t : CodecTier T IK IV K V) : Prop :=
  ∀ ik iv, contents t.inner ik = some iv →
    ∃ key value, (key, value) ∈ put ∧ t.toKey key = ik ∧ t.encode key value = .ok iv

theorem Traced.mono {put put' : List (K × V)} {t t' : CodecTier T IK IV K V}
    (h : Traced put t) (hput : ∀ e ∈ put, e ∈ put') (hkey : t'.toKey = t.toKey)
    (henc : t'.encode = t.encode)
    (hheld : ∀ ik iv, contents t'.inner ik = some iv → contents t.inner ik = some iv) :
    Traced put' t' := by
  intro ik iv hiv
  obtain ⟨key, value, hmem, hk, hv⟩ := h ik iv (hheld ik iv hiv)
  exact ⟨key, value, hput _ hmem, by rw [hkey, hk], by rw [henc, hv]⟩

theorem serve_traced {put : List (K × V)} {t : CodecTier T IK IV K V} (h : Traced put t)
    (c : TierCall K V) : Traced (put ++ puts c) (serve t c) := by
  obtain ⟨hkey, henc, -⟩ := serve_codec t c
  have hold : ∀ e ∈ put, e ∈ put ++ puts c := fun e he => List.mem_append_left _ he
  have hsame : contents (serve t c).inner = contents t.inner →
      Traced (put ++ puts c) (serve t c) :=
    fun heq => h.mono hold hkey henc fun ik iv hiv => by rwa [heq] at hiv
  cases c with
  | get k => exact hsame (LawfulTier.get_contents t.inner (t.toKey k))
  | exists_ k => exact hsame (LawfulTier.exists_contents t.inner (t.toKey k))
  | getMany ks => exact hsame (LawfulTier.getMany_contents t.inner (ks.map t.toKey))
  | delete k =>
    have hok := LawfulTier.delete_ok t.inner (t.toKey k)
    have herr := LawfulTier.delete_error t.inner (t.toKey k)
    refine h.mono hold hkey henc fun ik iv hiv => ?_
    change contents (Tier.delete t.inner (t.toKey k)).2 ik = some iv at hiv
    cases hres : (Tier.delete t.inner (t.toKey k)).1 with
    | error e => rwa [herr e hres] at hiv
    | ok b =>
      rw [hok b hres, ← eraseAll_singleton] at hiv
      exact (eraseAll_eq_some.1 hiv).2
  | deleteMany ks =>
    have hok := LawfulTier.deleteMany_ok t.inner (ks.map t.toKey)
    have herr := LawfulTier.deleteMany_error t.inner (ks.map t.toKey)
    refine h.mono hold hkey henc fun ik iv hiv => ?_
    change contents (Tier.deleteMany t.inner (ks.map t.toKey)).2 ik = some iv at hiv
    cases hres : (Tier.deleteMany t.inner (ks.map t.toKey)).1 with
    | error e =>
      obtain hkeep | ⟨-, hnone⟩ := herr e ik hres
      · rwa [hkeep] at hiv
      · rw [hnone] at hiv
        cases hiv
    | ok bs =>
      rw [hok bs hres] at hiv
      exact (eraseAll_eq_some.1 hiv).2
  | put k v =>
    cases hv : t.encode k v with
    | error e =>
      refine hsame ?_
      simp only [serve, Tier.call, Tier.put, hv]
    | ok encoded =>
      have hserve : (serve t (.put k v)).inner = (Tier.put t.inner (t.toKey k) encoded).2 := by
        simp only [serve, Tier.call, Tier.put, hv]
      have hok := LawfulTier.put_ok t.inner (t.toKey k) encoded
      have herr := LawfulTier.put_error t.inner (t.toKey k) encoded
      cases hres : (Tier.put t.inner (t.toKey k) encoded).1 with
      | error e => exact hsame (by rw [hserve, herr e hres])
      | ok d =>
        intro ik iv hiv
        rw [hserve] at hiv
        have hwrite : write (contents t.inner) [(t.toKey k, encoded)] ik = some iv := by
          rw [← hok d hres]
          exact atop_of_some hiv _
        obtain hnew | hheld := write_singleton_cases hwrite
        · simp only [Prod.mk.injEq] at hnew
          obtain ⟨rfl, rfl⟩ := hnew
          exact ⟨k, v, by simp [puts], by rw [hkey], by rw [henc, hv]⟩
        · obtain ⟨key, value, hmem, hk, he⟩ := h ik iv hheld
          exact ⟨key, value, hold _ hmem, by rw [hkey, hk], by rw [henc, he]⟩
  | putMany es =>
    cases hes : encodeAll t.toKey t.encode es with
    | error e =>
      refine hsame ?_
      simp only [serve, Tier.call, Tier.putMany, hes]
    | ok encoded =>
      have hserve : (serve t (.putMany es)).inner = (Tier.putMany t.inner encoded).2 := by
        simp only [serve, Tier.call, Tier.putMany, hes]
      intro ik iv hiv
      rw [hserve] at hiv
      obtain hmem | hheld := LawfulTier.putMany_contents t.inner encoded ik iv hiv
      · obtain ⟨key, value, hkv, hk, he⟩ := encodeAll_mem hes hmem
        exact ⟨key, value, List.mem_append_right _ hkv, by rw [hkey, hk], by rw [henc, he]⟩
      · obtain ⟨key, value, hkv, hk, he⟩ := h ik iv hheld
        exact ⟨key, value, hold _ hkv, by rw [hkey, hk], by rw [henc, he]⟩

theorem history_traced (calls : List (TierCall K V)) {put : List (K × V)}
    {t : CodecTier T IK IV K V} (h : Traced put t) :
    Traced (put ++ calls.flatMap puts) (calls.foldl serve t) := by
  induction calls generalizing put t with
  | nil => simpa using h
  | cons c calls ih =>
    have hrest := ih (serve_traced h c)
    rwa [List.append_assoc] at hrest

theorem history_traced_of_empty (calls : List (TierCall K V)) {t : CodecTier T IK IV K V}
    (hempty : contents t.inner = empty) :
    Traced (calls.flatMap puts) (calls.foldl serve t) := by
  have h : Traced [] t := by
    intro ik iv hiv
    rw [hempty] at hiv
    cases hiv
  simpa using history_traced calls h

/-! ## Answers -/

structure AnswersOwn (put : List (K × V)) (t : CodecTier T IK IV K V) : Prop where
  get : ∀ k v, (Tier.get t k).1 = .ok (some v) → (k, v) ∈ put
  getMany : ∀ ks vs, (Tier.getMany t ks).1 = .ok vs → ∀ k v, (k, some v) ∈ ks.zip vs →
    (k, v) ∈ put

/-- No two keys share an image if one of them can be stored. -/
def Apart (t : CodecTier T IK IV K V) : Prop :=
  ∀ k k' v enc, t.encode k' v = .ok enc → t.toKey k = t.toKey k' → k = k'

omit [DecidableEq IK] [Tier T IK IV E] [LawfulTier T] in
theorem decodeFound_some {decode : IV → Except BoxError (K × V)} {found : Option IV} {v : V}
    (h : decodeFound (E := E) decode found = .ok (some v)) :
    ∃ iv key, found = some iv ∧ decode iv = .ok (key, v) := by
  cases found with
  | none => cases h
  | some iv =>
    rw [decodeFound] at h
    cases hdec : decode iv with
    | error e => simp [hdec] at h
    | ok entry =>
      obtain ⟨key, value⟩ := entry
      simp only [hdec, Except.ok.injEq, Option.some.injEq] at h
      exact ⟨iv, key, rfl, by rw [hdec, h]⟩

omit [DecidableEq IK] [Tier T IK IV E] [LawfulTier T] in
theorem decodeAll_slot {decode : IV → Except BoxError (K × V)} {held : K → Option IV}
    {ks : List K} {vs : List (Option V)}
    (h : decodeAll (E := E) decode (ks.map held) = .ok vs) {k : K} {v : V}
    (hmem : (k, some v) ∈ ks.zip vs) :
    decodeFound (E := E) decode (held k) = .ok (some v) := by
  induction ks generalizing vs with
  | nil => cases hmem
  | cons key rest ih =>
    rw [List.map_cons, decodeAll] at h
    cases hkey : decodeFound (E := E) decode (held key) with
    | error e => simp [hkey] at h
    | ok value =>
      rw [hkey] at h
      obtain ⟨values, hrest, rfl⟩ := map_ok h
      obtain heq | hlater := List.mem_cons.1 hmem
      · obtain ⟨rfl, rfl⟩ := Prod.mk.inj heq
        exact hkey
      · exact ih hrest hlater

/-- What the inner tier holds under a key's image was put under that key. -/
theorem Traced.own {put : List (K × V)} {t : CodecTier T IK IV K V} (h : Traced put t)
    (hdec : ∀ k v enc, t.encode k v = .ok enc → t.decode enc = .ok (k, v)) (hapart : t.Apart)
    {k : K} {v : V}
    (hread : decodeFound (E := E) t.decode (contents t.inner (t.toKey k)) = .ok (some v)) :
    (k, v) ∈ put := by
  obtain ⟨iv, key, hiv, hval⟩ := decodeFound_some hread
  obtain ⟨k', v', hmem, himage, henc⟩ := h _ iv hiv
  have hsame : (k', v') = (key, v) := by
    rw [hdec k' v' iv henc] at hval
    exact Except.ok.inj hval
  have hkey : k = k' := hapart k k' v' iv henc himage.symm
  have hv : v' = v := (Prod.mk.inj hsame).2
  rwa [hkey, ← hv]

theorem Traced.answersOwn {put : List (K × V)} {t : CodecTier T IK IV K V} (h : Traced put t)
    (hdec : ∀ k v enc, t.encode k v = .ok enc → t.decode enc = .ok (k, v))
    (hapart : t.Apart) : AnswersOwn put t := by
  refine ⟨fun k v hget => ?_, fun ks vs hmany k v hmem => ?_⟩
  · have hok := LawfulTier.get_ok t.inner (t.toKey k)
    simp only [Tier.get] at hget
    cases hres : (Tier.get t.inner (t.toKey k)).1 with
    | error e => simp [hres] at hget
    | ok found =>
      rw [hres] at hget
      rw [hok found hres] at hget
      exact h.own hdec hapart hget
  · have hok := LawfulTier.getMany_ok t.inner (ks.map t.toKey)
    simp only [Tier.getMany] at hmany
    cases hres : (Tier.getMany t.inner (ks.map t.toKey)).1 with
    | error e => simp [hres] at hmany
    | ok found =>
      rw [hres] at hmany
      rw [hok found hres, List.map_map] at hmany
      exact h.own hdec hapart (decodeAll_slot hmany hmem)

/-- A put that is encoded is read back by every key with the same image. -/
theorem get_after_put {T : Type} [Tier T IK IV Infallible] [LawfulTier T] {U : T → Prop}
    (hU : Keeping U) {t : CodecTier T IK IV K V} (ht : U t.inner)
    (hdec : ∀ k v enc, t.encode k v = .ok enc → t.decode enc = .ok (k, v)) {k k' : K} {v : V}
    {enc : IV} (henc : t.encode k' v = .ok enc) (himage : t.toKey k = t.toKey k') :
    (Tier.get (serve t (.put k' v)) k).1 = .ok (some v) := by
  have hserve : serve t (.put k' v)
      = { t with inner := (Tier.put t.inner (t.toKey k') enc).2 } := by
    simp only [serve, Tier.call, Tier.put, henc]
  cases hres : (Tier.put t.inner (t.toKey k') enc).1 with
  | error e => cases e
  | ok displaced =>
    have hnone : displaced = [] := hU.put t.inner _ enc displaced ht hres
    have hheld : contents (Tier.put t.inner (t.toKey k') enc).2 (t.toKey k) = some enc := by
      have hput := congrFun (LawfulTier.put_ok t.inner _ enc displaced hres) (t.toKey k)
      rw [hnone, himage, write_singleton, if_pos rfl] at hput
      rw [himage]
      simpa using hput
    rw [hserve]
    simp only [Tier.get]
    cases hget : (Tier.get (Tier.put t.inner (t.toKey k') enc).2 (t.toKey k)).1 with
    | error e => cases e
    | ok found =>
      have hfound := LawfulTier.get_ok _ _ found hget
      rw [hheld] at hfound
      simp only [hfound, decodeFound, hdec k' v enc henc]

/-- Over an inner tier that behaves as a map, every history's reads answer for their own
keys exactly when the key mapping keeps the storable keys apart. -/
theorem codec_answers_own {T : Type} [Tier T IK IV Infallible] [LawfulTier T] {U : T → Prop}
    (hU : Keeping U) (t : CodecTier T IK IV K V) (ht : U t.inner)
    (hempty : contents t.inner = empty)
    (hdec : ∀ k v enc, t.encode k v = .ok enc → t.decode enc = .ok (k, v)) :
    (∀ calls : List (TierCall K V), AnswersOwn (calls.flatMap puts) (calls.foldl serve t)) ↔
      t.Apart := by
  constructor
  · intro hown k k' v enc henc himage
    have hread := (hown [.put k' v]).get k v (get_after_put hU ht hdec henc himage)
    have hpair : (k, v) = (k', v) := by simpa [puts] using hread
    exact (Prod.mk.inj hpair).1
  · intro hapart calls
    obtain ⟨hkey, henc, hde⟩ := history_codec calls t
    refine (history_traced_of_empty calls hempty).answersOwn ?_ ?_
    · rwa [henc, hde]
    · unfold Apart
      rwa [hkey, henc]

def pairCodec (toKey : Nat → Nat) :
    CodecTier (MemoryTier Nat (Nat × Nat)) Nat (Nat × Nat) Nat Nat :=
  { inner := .unbounded, toKey, encode := fun k v => .ok (k, v), decode := .ok }

theorem codec_answers_own_shifted :
    (Tier.get ([.put 1 10, .put 2 20, .delete 2].foldl serve (pairCodec (· + 100))) 2).1
      ≠ .ok (some 10) := by
  intro h
  have hown := (codec_answers_own MemoryTier.keeping_unbounded (pairCodec (· + 100)) ⟨rfl, rfl⟩ rfl
    (fun k v enc henc => by rw [← Except.ok.inj henc]; rfl)).2
    (fun k k' v enc _ himage => Nat.add_right_cancel himage)
  have hmem := (hown [.put 1 10, .put 2 20, .delete 2]).get 2 10 h
  simp [puts] at hmem

/-- Two keys with one image: a read of the second answers with the value of the first. -/
theorem codec_answers_other_key :
    (Tier.get (serve (pairCodec fun _ => 0) (.put 1 10)) 2).1 = .ok (some 10) ∧
      (2, 10) ∉ puts (K := Nat) (V := Nat) (.put 1 10) := by
  decide +kernel

end CodecTier
end Tierstore
