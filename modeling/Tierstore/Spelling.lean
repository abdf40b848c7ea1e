import Tierstore.Disk.Tier
import Tierstore.Lib.MapSum
import Tierstore.Mmap.Synced

/-! Which file names decode to keys. The decoder takes capital digits and a plus sign that the
encoder never writes, so one key may have several files. -/
namespace Tierstore.Mmap

/-! ## Windows of two bytes -/

/-- `name.get(i..i + n)`, from the front on: the first `n` bytes, if they end with a character. -/
def takeBytes : Nat → List Char → Option (List Char × List Char)
  | 0, rest => some ([], rest)
  | _ + 1, [] => none
  | n + 1, c :: rest =>
    if c.utf8Size ≤ n + 1 then
      (takeBytes (n + 1 - c.utf8Size) rest).map fun out => (c :: out.1, out.2)
    else none

/-- The digits of `u8::from_str_radix`; they fit in a byte. -/
def readDigits (digits : List Char) : Option UInt8 :=
  (digits.foldlM (fun value c => (toDigit c).map (16 * value + ·)) 0).bind fun value =>
    if value < 256 then some (UInt8.ofNat value) else none

def strRadix : List Char → Option UInt8
  | [] | ['+'] | ['-'] => none
  | '+' :: digits => readDigits digits
  | digits => readDigits digits

def readWindows : Nat → List Char → Option (List UInt8)
  | 0, _ => some []
  | n + 1, rest =>
    (takeBytes 2 rest).bind fun out =>
      (strRadix out.1).bind fun byte => (readWindows n out.2).map (byte :: ·)

def byteLen (name : FileName) : Nat := (name.map Char.utf8Size).sum

def hexDecodeBytes (name : FileName) : Option (List UInt8) :=
  if byteLen name % 2 ≠ 0 then none else readWindows (byteLen name / 2) name

theorem toDigit_eq_none {c : Char} (h : c.utf8Size ≠ 1) : toDigit c = none := by
  have hwide {top : Char} (htop : top.val ≤ 127) : ¬ c ≤ top := fun hle =>
    h (Char.utf8Size_eq_one_iff.2 (UInt32.le_trans hle htop))
  rw [toDigit, if_neg fun hc => hwide (by decide) hc.2, if_neg fun hc => hwide (by decide) hc.2,
    if_neg fun hc => hwide (by decide) hc.2]

theorem toDigit_lt {c : Char} {digit : Nat} (h : toDigit c = some digit) : digit < 16 := by
  have htop {top : Char} (hle : c ≤ top) : c.toNat ≤ top.toNat := UInt32.le_iff_toNat_le.1 hle
  unfold toDigit at h
  split at h
  next hc =>
    cases h
    have hle : c.toNat ≤ 57 := htop hc.2
    omega
  next =>
    split at h
    next hc =>
      cases h
      have hle : c.toNat ≤ 102 := htop hc.2
      omega
    next =>
      split at h
      next hc =>
        cases h
        have hle : c.toNat ≤ 70 := htop hc.2
        omega
      next => cases h

theorem readDigits_single (c : Char) : readDigits [c] = (toDigit c).map UInt8.ofNat := by
  cases hdigit : toDigit c with
  | none => simp [readDigits, hdigit]
  | some digit =>
    have hlt := toDigit_lt hdigit
    have hfits : digit < 256 := by omega
    simp [readDigits, hdigit, hfits]

theorem readDigits_pair (high low : Char) : readDigits [high, low] =
    (toDigit high).bind fun h => (toDigit low).map fun l => UInt8.ofNat (16 * h + l) := by
  cases hhigh : toDigit high with
  | none => simp [readDigits, hhigh]
  | some h =>
    cases hlow : toDigit low with
    | none => simp [readDigits, hhigh, hlow]
    | some l =>
      have hh := toDigit_lt hhigh
      have hl := toDigit_lt hlow
      have hfits : 16 * h + l < 256 := by omega
      simp [readDigits, hhigh, hlow, hfits]

theorem strRadix_pair (high low : Char) : strRadix [high, low] = fromStrRadix high low := by
  by_cases hplus : high = '+'
  · subst hplus
    exact readDigits_single low
  · have hdigits : strRadix [high, low] = readDigits [high, low] := by
      unfold strRadix
      split <;> simp_all
    rw [hdigits, readDigits_pair, fromStrRadix, if_neg hplus]

/-- A window of one wide character is no number. -/
theorem strRadix_wide {c : Char} (h : c.utf8Size ≠ 1) : strRadix [c] = none := by
  unfold strRadix
  split
  · rfl
  · rfl
  · rfl
  next heq =>
    cases heq
    exact absurd rfl h
  next => rw [readDigits_single, toDigit_eq_none h, Option.map_none]

theorem fromStrRadix_wide {high low : Char} (h : high.utf8Size ≠ 1 ∨ low.utf8Size ≠ 1) :
    fromStrRadix high low = none := by
  unfold fromStrRadix
  obtain hhigh | hlow := h
  · rw [if_neg fun hplus => hhigh (by rw [hplus]; rfl), toDigit_eq_none hhigh, Option.bind_none]
  · rw [toDigit_eq_none hlow]
    simp

theorem readWindows_wide {c : Char} (h : c.utf8Size ≠ 1) (n : Nat) (rest : List Char) :
    readWindows (n + 1) (c :: rest) = none := by
  rw [readWindows]
  by_cases htwo : c.utf8Size = 2
  · have htake : takeBytes 2 (c :: rest) = some ([c], rest) := by simp [takeBytes, htwo]
    rw [htake, Option.bind_some, strRadix_wide h]
    rfl
  · have hmany : ¬ c.utf8Size ≤ 2 := by
      have hpos := c.utf8Size_pos
      omega
    have htake : takeBytes 2 (c :: rest) = none := by simp [takeBytes, hmany]
    rw [htake]
    rfl

theorem readWindows_pair {high : Char} (h : high.utf8Size = 1) (n : Nat) (low : Char)
    (rest : List Char) :
    readWindows (n + 1) (high :: low :: rest) =
      (fromStrRadix high low).bind fun byte => (readWindows n rest).map (byte :: ·) := by
  rw [readWindows]
  by_cases hlow : low.utf8Size = 1
  · have htake : takeBytes 2 (high :: low :: rest) = some ([high, low], rest) := by
      simp [takeBytes, h, hlow]
    rw [htake, Option.bind_some, strRadix_pair]
  · have hmany : ¬ low.utf8Size ≤ 1 := by
      have hpos := low.utf8Size_pos
      omega
    have htake : takeBytes 2 (high :: low :: rest) = none := by simp [takeBytes, h, hmany]
    rw [htake, fromStrRadix_wide (.inr hlow)]
    rfl

theorem byteLen_cons (c : Char) (rest : FileName) :
    byteLen (c :: rest) = c.utf8Size + byteLen rest := rfl

/-- Two characters at a time read the same as two bytes at a time. -/
theorem hexDecodeBytes_eq (name : FileName) : hexDecodeBytes name = hexDecode name := by
  have hfirst {c : Char} (h : c.utf8Size ≠ 1) (rest : FileName) :
      hexDecodeBytes (c :: rest) = none := by
    have hpos := c.utf8Size_pos
    obtain ⟨n, hn⟩ : ∃ n, byteLen (c :: rest) / 2 = n + 1 :=
      ⟨byteLen (c :: rest) / 2 - 1, by rw [byteLen_cons]; omega⟩
    rw [hexDecodeBytes, hn, readWindows_wide h, ite_self]
  induction name using hexDecode.induct with
  | case1 => rfl
  | case2 c =>
    by_cases hc : c.utf8Size = 1
    · have hodd : byteLen [c] % 2 ≠ 0 := by
        rw [byteLen_cons, hc]
        decide
      rw [hexDecodeBytes, if_pos hodd]
      rfl
    · rw [hfirst hc]
      rfl
  | case3 high low rest ih =>
    rw [hexDecode]
    by_cases hhigh : high.utf8Size = 1
    · by_cases hlow : low.utf8Size = 1
      · have hlen : byteLen (high :: low :: rest) = byteLen rest + 2 := by
          rw [byteLen_cons, byteLen_cons, hhigh, hlow]
          omega
        rw [← ih, hexDecodeBytes, hexDecodeBytes, hlen, Nat.add_mod_right,
          Nat.add_div_right _ (by decide), readWindows_pair hhigh]
        by_cases hodd : byteLen rest % 2 ≠ 0
        · rw [if_pos hodd, if_pos hodd]
          cases fromStrRadix high low <;> rfl
        · rw [if_neg hodd, if_neg hodd]
      · obtain ⟨n, hn⟩ : ∃ n, byteLen (high :: low :: rest) / 2 = n + 1 := by
          refine ⟨byteLen (high :: low :: rest) / 2 - 1, ?_⟩
          have hpos := low.utf8Size_pos
          rw [byteLen_cons, byteLen_cons, hhigh]
          omega
        rw [hexDecodeBytes, hn, readWindows_pair hhigh, fromStrRadix_wide (.inr hlow)]
        exact ite_self _
    · rw [hfirst hhigh, fromStrRadix_wide (.inl hhigh)]
      rfl

/-! ## The accepted names -/

def IsLowerHex (c : Char) : Prop := '0' ≤ c ∧ c ≤ '9' ∨ 'a' ≤ c ∧ c ≤ 'f'

def Plain (name : FileName) : Prop := ∀ c ∈ name, IsLowerHex c

instance (c : Char) : Decidable (IsLowerHex c) := inferInstanceAs (Decidable (_ ∨ _))

instance (name : FileName) : Decidable (Plain name) := inferInstanceAs (Decidable (∀ c ∈ name, _))

/-- Pairs of hex digits of either case; the first of a pair may be a plus sign. -/
def Spelled : FileName → Prop
  | [] => True
  | [_] => False
  | high :: low :: rest =>
    (high = '+' ∨ IsLowerHex high ∨ 'A' ≤ high ∧ high ≤ 'F') ∧
      (IsLowerHex low ∨ 'A' ≤ low ∧ low ≤ 'F') ∧ Spelled rest

theorem toDigit_isSome {c : Char} :
    (toDigit c).isSome ↔ IsLowerHex c ∨ 'A' ≤ c ∧ c ≤ 'F' := by
  unfold toDigit IsLowerHex
  split
  next h => simp [h]
  next h =>
    split
    next h' => simp [h']
    next h' => simp [h, h']

/-- The decoder takes the spelled names, and no others. -/
theorem hexDecode_isSome (name : FileName) : (hexDecode name).isSome ↔ Spelled name := by
  induction name using hexDecode.induct with
  | case1 => simp [hexDecode, Spelled]
  | case2 c => simp [hexDecode, Spelled]
  | case3 high low rest ih =>
    have hpair : (fromStrRadix high low).isSome ↔
        (high = '+' ∨ (toDigit high).isSome) ∧ (toDigit low).isSome := by
      unfold fromStrRadix
      by_cases hplus : high = '+'
      · simp [hplus]
      · cases toDigit high <;> simp [hplus]
    rw [Spelled, ← ih, ← toDigit_isSome, ← toDigit_isSome, ← and_assoc, ← hpair, hexDecode]
    cases fromStrRadix high low <;> simp

theorem isLowerHex_digitChar : ∀ digit < 16, IsLowerHex (Nat.digitChar digit) := by decide

/-- A small digit is the one that is written for its value. -/
theorem digitChar_toDigit {c : Char} {digit : Nat} (hlower : IsLowerHex c)
    (h : toDigit c = some digit) : Nat.digitChar digit = c := by
  have hchar : ∀ d < 16, (Nat.digitChar d).toNat = if d < 10 then d + 48 else d + 87 := by decide
  have hbound {low top : Char} (hc : low ≤ c ∧ c ≤ top) :
      low.toNat ≤ c.toNat ∧ c.toNat ≤ top.toNat :=
    ⟨UInt32.le_iff_toNat_le.1 hc.1, UInt32.le_iff_toNat_le.1 hc.2⟩
  refine Char.toNat_inj.1 ((hchar digit (toDigit_lt h)).trans ?_)
  unfold toDigit at h
  split at h
  next hc =>
    obtain ⟨hlow, htop⟩ : 48 ≤ c.toNat ∧ c.toNat ≤ 57 := hbound hc
    cases h
    rw [if_pos (by omega)]
    omega
  next hc =>
    have hletter := hlower.resolve_left hc
    obtain ⟨hlow, htop⟩ : 97 ≤ c.toNat ∧ c.toNat ≤ 102 := hbound hletter
    rw [if_pos hletter] at h
    cases h
    rw [if_neg (by omega)]
    omega

theorem hexByte_plain (byte : UInt8) : ∀ c ∈ hexByte byte, IsLowerHex c := by
  have hlt := byte.toNat_lt
  intro c hc
  simp only [hexByte, List.mem_cons, List.not_mem_nil, or_false] at hc
  obtain rfl | rfl := hc
  · exact isLowerHex_digitChar _ (by omega)
  · exact isLowerHex_digitChar _ (by omega)

theorem hexEncode_plain (bytes : List UInt8) : Plain (hexEncode bytes) := by
  intro c hc
  obtain ⟨byte, -, hdigit⟩ := List.mem_flatMap.1 hc
  exact hexByte_plain byte c hdigit

theorem hexByte_fromStrRadix {high low : Char} {byte : UInt8} (hhigh : IsLowerHex high)
    (hlow : IsLowerHex low) (h : fromStrRadix high low = some byte) :
    hexByte byte = [high, low] := by
  have hplus : high ≠ '+' := by
    rintro rfl
    revert hhigh
    decide
  rw [fromStrRadix, if_neg hplus] at h
  obtain ⟨h₁, hdigit₁, hrest⟩ := Option.bind_eq_some_iff.1 h
  obtain ⟨h₂, hdigit₂, rfl⟩ := Option.map_eq_some_iff.1 hrest
  have hlt₁ := toDigit_lt hdigit₁
  have hlt₂ := toDigit_lt hdigit₂
  have hvalue : (UInt8.ofNat (16 * h₁ + h₂)).toNat = 16 * h₁ + h₂ := by
    rw [UInt8.toNat_ofNat']
    exact Nat.mod_eq_of_lt (by omega)
  have hdiv : (16 * h₁ + h₂) / 16 = h₁ := by omega
  have hmod : (16 * h₁ + h₂) % 16 = h₂ := by omega
  rw [hexByte, hvalue, hdiv, hmod, digitChar_toDigit hhigh hdigit₁, digitChar_toDigit hlow hdigit₂]

/-- A name that decodes is what the encoder makes of its bytes exactly if it has small digits
only. -/
theorem hexEncode_of_hexDecode {name : FileName} {bytes : List UInt8}
    (h : hexDecode name = some bytes) : hexEncode bytes = name ↔ Plain name := by
  refine ⟨fun heq => heq ▸ hexEncode_plain bytes, fun hplain => ?_⟩
  induction name using hexDecode.induct generalizing bytes with
  | case1 =>
    cases h
    rfl
  | case2 c => cases h
  | case3 high low rest ih =>
    rw [hexDecode] at h
    obtain ⟨byte, hbyte, hrest⟩ := Option.bind_eq_some_iff.1 h
    obtain ⟨more, hmore, rfl⟩ := Option.map_eq_some_iff.1 hrest
    have hpair := hexByte_fromStrRadix (hplain high (by simp)) (hplain low (by simp)) hbyte
    have htail := ih hmore fun c hc => hplain c (by simp [hc])
    rw [hexEncode, List.flatMap_cons, hpair, ← hexEncode, htail]
    rfl

/-- Decoding is exact on a name unless the name is spelled with capital digits or a plus sign. -/
theorem decodes_exactly_iff (name : FileName) :
    (∀ bytes, hexDecode name = some bytes → hexEncode bytes = name) ↔
      (Spelled name → Plain name) := by
  rw [← hexDecode_isSome]
  cases hname : hexDecode name with
  | none => simp
  | some bytes =>
    rw [← hexEncode_of_hexDecode hname]
    simp

/-! ## The files of a root -/

structure Found where
  entries : List DirEntry
  nodup : (entries.map DirEntry.name).Nodup
  named : ∀ entry ∈ entries, entry.name ≠ []

/-- The file of each key that is decoded from these names is the one of its own name alone. -/
theorem single_file_iff {N K : Type} [DecidableEq K] {decode : N → Option K} {encode : K → N}
    {names : List N} (hnd : names.Nodup) :
    (∀ key ∈ names.filterMap decode,
        names.filter (fun name => decode name = some key) = [encode key]) ↔
      ∀ name ∈ names, ∀ key, decode name = some key → encode key = name := by
  constructor
  · intro hsingle name hname key hkey
    have hmem : name ∈ names.filter fun name => decode name = some key :=
      List.mem_filter.2 ⟨hname, decide_eq_true hkey⟩
    rw [hsingle key (List.mem_filterMap.2 ⟨name, hname, hkey⟩)] at hmem
    exact (List.mem_singleton.1 hmem).symm
  · intro hexact key hkey
    obtain ⟨name, hname, hdecode⟩ := List.mem_filterMap.1 hkey
    have hall : ∀ other ∈ names.filter fun name => decode name = some key,
        other = encode key := by
      intro other hother
      obtain ⟨hin, hsame⟩ := List.mem_filter.1 hother
      exact (hexact other hin key (of_decide_eq_true hsame)).symm
    have hmem : name ∈ names.filter fun name => decode name = some key :=
      List.mem_filter.2 ⟨hname, decide_eq_true hdecode⟩
    have hrep := List.eq_replicate_of_mem hall
    have hone := hnd.filter fun name => decide (decode name = some key)
    rw [hrep, List.nodup_replicate] at hone
    have hpos := List.length_pos_of_mem hmem
    rw [hrep, show (names.filter fun name => decode name = some key).length = 1 by omega]
    rfl

theorem nodup_decoded {N K : Type} {decode : N → Option K} {encode : K → N} {names : List N}
    (hnd : names.Nodup)
    (hexact : ∀ name ∈ names, ∀ key, decode name = some key → encode key = name) :
    (names.filterMap decode).Nodup := by
  rw [List.Nodup, List.pairwise_filterMap]
  refine hnd.imp_of_mem fun {name other} hname hother hne => ?_
  rintro key hkey key' hkey' rfl
  exact hne ((hexact name hname key hkey).symm.trans (hexact other hother key hkey'))

def PlainNames (found : Found) : Prop :=
  ∀ entry ∈ found.entries, (keyOf entry.name).isSome → Plain entry.name

def entryBytes (found : Found) : Nat :=
  ((found.entries.filter fun entry => (keyOf entry.name).isSome).map DirEntry.len).sum

/-- Each key that `list` shows or `scan` accounts for has one file, the one of its path, and the
total is the sum of the sizes. -/
structure Accounts (found : Found) : Prop where
  single : ∀ key, key ∈ Fs.keysOf found.entries ∨
      key ∈ (Inner.scan (Fs.found found.entries)).sizes →
    (found.entries.filter fun entry => keyOf entry.name = some key).map DirEntry.name =
      [entryName key]
  total : (Inner.scan (Fs.found found.entries)).total =
    MapSum.total id (Inner.scan (Fs.found found.entries)).sizes

namespace Inner
variable {K : Type} [DecidableEq K]

theorem scan_total (found : List (K × Nat)) :
    (scan found).total = min (found.map Prod.snd).sum usizeMax := by
  induction found using List.reverseRecOn with
  | nil => rfl
  | append_singleton found entry ih =>
    rw [scan_concat, scanEntry, insertTicket_total, List.map_append, List.sum_append,
      List.map_singleton, List.sum_singleton]
    change saturatingAdd (scan found).total entry.2 = _
    rw [ih, saturatingAdd]
    omega

theorem mem_scan_sizes (found : List (K × Nat)) (key : K) :
    key ∈ (scan found).sizes ↔ key ∈ found.map Prod.fst := by
  induction found using List.reverseRecOn with
  | nil => simp [scan, new]
  | append_singleton found entry ih =>
    rw [scan_concat, scanEntry, insertTicket_sizes, AList.mem_insert, ih]
    simp [or_comm]

/-- The sizes add up to the lengths, if no key was found twice. -/
theorem scan_sizes_total {found : List (K × Nat)} (hnd : (found.map Prod.fst).Nodup) :
    MapSum.total id (scan found).sizes = (found.map Prod.snd).sum := by
  induction found using List.reverseRecOn with
  | nil => rfl
  | append_singleton found entry ih =>
    rw [List.map_append, List.nodup_append] at hnd
    obtain ⟨hnd, -, hnew⟩ := hnd
    have hnone : (scan found).sizes.lookup entry.1 = none := by
      rw [AList.lookup_eq_none, mem_scan_sizes]
      exact fun hmem => hnew _ hmem _ (by simp) rfl
    rw [scan_concat, scanEntry, insertTicket_sizes, MapSum.total_insert,
      MapSum.total_erase_none _ hnone, ih hnd, List.map_append, List.sum_append,
      List.map_singleton, List.sum_singleton]
    exact Nat.add_comm _ _

end Inner

theorem toUTF8_of_fromUTF8 {bytes : List UInt8} {text : String}
    (h : String.fromUTF8? ⟨bytes.toArray⟩ = some text) : text.toUTF8.data.toList = bytes := by
  unfold String.fromUTF8? at h
  split at h
  · cases h
    rfl
  · cases h

/-- A key is written as the name it was decoded from exactly if that is in small digits. -/
theorem entryName_of_keyOf {name : FileName} {key : Key} (h : keyOf name = some key) :
    entryName key = name ↔ Plain name := by
  obtain ⟨bytes, hdecode, hrest⟩ := Option.bind_eq_some_iff.1 h
  obtain ⟨text, htext, hkey⟩ := Option.bind_eq_some_iff.1 hrest
  have hname : key.1 = text := by
    split at hkey
    · cases hkey
      rfl
    · cases hkey
  rw [entryName, hname, toUTF8_of_fromUTF8 htext, hexEncode_of_hexDecode hdecode]

theorem keys_found (entries : List DirEntry) :
    ((Fs.found entries).map Prod.fst).Perm (entries.filterMap fun entry => keyOf entry.name) := by
  have hperm := (System.found_perm entries).map Prod.fst
  rw [List.map_filterMap] at hperm
  simpa [Function.comp_def] using hperm

theorem bytes_found (found : Found) :
    ((Fs.found found.entries).map Prod.snd).sum = entryBytes found := by
  have hperm := ((System.found_perm found.entries).map Prod.snd).sum_eq
  rw [hperm, entryBytes]
  induction found.entries with
  | nil => rfl
  | cons entry rest ih =>
    cases hkey : keyOf entry.name with
    | none => simpa [hkey] using ih
    | some key => simpa [hkey] using ih

/-- The mmap tier, over every directory. -/
theorem accounts_iff (found : Found) :
    Accounts found ↔ PlainNames found ∧ entryBytes found ≤ usizeMax := by
  have hdecoded : (found.entries.map DirEntry.name).filterMap keyOf =
      found.entries.filterMap fun entry => keyOf entry.name := List.filterMap_map
  have hfiles (key : Key) : (found.entries.filter fun entry => keyOf entry.name = some key).map
      DirEntry.name =
        (found.entries.map DirEntry.name).filter fun name => keyOf name = some key := by
    rw [List.filter_map]
    rfl
  have hkeys (key : Key) : (key ∈ Fs.keysOf found.entries ∨
      key ∈ (Inner.scan (Fs.found found.entries)).sizes) ↔
        key ∈ (found.entries.map DirEntry.name).filterMap keyOf := by
    rw [Inner.mem_scan_sizes, (keys_found found.entries).mem_iff, Fs.keysOf,
      List.mem_insertionSort, or_self, hdecoded]
  have hplain : (∀ name ∈ found.entries.map DirEntry.name, ∀ key, keyOf name = some key →
      entryName key = name) ↔ PlainNames found := by
    rw [List.forall_mem_map]
    refine forall₂_congr fun entry _ => ?_
    cases hkey : keyOf entry.name with
    | none => simp
    | some key => simp [entryName_of_keyOf hkey]
  have hsum (hnames : PlainNames found) : (Inner.scan (Fs.found found.entries)).total =
      MapSum.total id (Inner.scan (Fs.found found.entries)).sizes ↔
        entryBytes found ≤ usizeMax := by
    have hnd := nodup_decoded found.nodup (hplain.2 hnames)
    rw [hdecoded, ← (keys_found found.entries).nodup_iff] at hnd
    rw [Inner.scan_total, Inner.scan_sizes_total hnd, bytes_found]
    exact min_eq_left_iff
  constructor
  · intro h
    have hnames := hplain.1 ((single_file_iff found.nodup).1 fun key hkey =>
      (hfiles key).symm.trans (h.single key ((hkeys key).2 hkey)))
    exact ⟨hnames, (hsum hnames).1 h.total⟩
  · rintro ⟨hnames, hroom⟩
    refine ⟨fun key hkey => ?_, (hsum hnames).2 hroom⟩
    rw [hfiles]
    exact (single_file_iff found.nodup).2 (hplain.2 hnames) key ((hkeys key).1 hkey)

end Tierstore.Mmap

namespace Tierstore.Disk
open Mmap

/-- Each key that `list` shows has one file under the root, the one of its path. -/
def Lists (root : Path) (names : List FileName) : Prop :=
  ∀ key ∈ (names.filterMap keyOf).insertionSort fun a b => a ≤ b,
    (names.filter fun name => keyOf name = some key).map (fun name => root ++ [.normal name]) =
      [pathFor root key]

theorem hexName_of_keyOf {name : FileName} {key : String} (h : keyOf name = some key) :
    hexName key = name ↔ Plain name := by
  obtain ⟨bytes, hdecode, htext⟩ := Option.bind_eq_some_iff.1 h
  rw [hexName, toUTF8_of_fromUTF8 htext, hexEncode_of_hexDecode hdecode]

theorem ne_empty_of_keyOf {name : FileName} {key : String} (hname : name ≠ [])
    (h : keyOf name = some key) : key ≠ "" := by
  rintro rfl
  obtain ⟨bytes, hdecode, htext⟩ := Option.bind_eq_some_iff.1 h
  have hbytes : bytes = [] := (toUTF8_of_fromUTF8 htext).symm
  subst hbytes
  match name, hname, hdecode with
  | high :: low :: rest, _, hdecode =>
    rw [hexDecode] at hdecode
    obtain ⟨byte, -, hrest⟩ := Option.bind_eq_some_iff.1 hdecode
    obtain ⟨more, -, hcons⟩ := Option.map_eq_some_iff.1 hrest
    cases hcons

/-- The file-per-key tier, over every directory. -/
theorem lists_iff (root : Path) (found : Found) :
    Lists root (found.entries.map DirEntry.name) ↔
      ∀ entry ∈ found.entries, (keyOf entry.name).isSome → Plain entry.name := by
  have hnamed : ∀ name ∈ found.entries.map DirEntry.name, name ≠ [] :=
    List.forall_mem_map.2 found.named
  have hpath (key : String)
      (hkey : key ∈ (found.entries.map DirEntry.name).filterMap keyOf) (names : List FileName) :
      names.map (fun name => root ++ [Component.normal name]) = [pathFor root key] ↔
        names = [hexName key] := by
    obtain ⟨name, hname, hdecode⟩ := List.mem_filterMap.1 hkey
    have hsingle : [pathFor root key] =
        [hexName key].map fun name => root ++ [Component.normal name] := by
      rw [pathFor_of_ne (ne_empty_of_keyOf (hnamed name hname) hdecode)]
      rfl
    rw [hsingle]
    exact (List.map_injective_iff.2 child_injective).eq_iff
  have hplain : (∀ name ∈ found.entries.map DirEntry.name, ∀ key, keyOf name = some key →
      hexName key = name) ↔
        ∀ entry ∈ found.entries, (keyOf entry.name).isSome → Plain entry.name := by
    rw [List.forall_mem_map]
    refine forall₂_congr fun entry _ => ?_
    cases hkey : keyOf entry.name with
    | none => simp
    | some key => simp [hexName_of_keyOf hkey]
  rw [← hplain, ← single_file_iff found.nodup, Lists]
  simp only [List.mem_insertionSort]
  exact forall₂_congr fun key hkey => hpath key hkey _

end Tierstore.Disk

namespace Tierstore
open Mmap

/-- The decoder reads back what the encoder writes. It is exact on a name, and each tier has one
file for each key, exactly if what decodes is in small digits; the total is exact while it fits. -/
theorem decoding_is_exact_iff (bytes : List UInt8) (name : FileName) (root : Disk.Path)
    (found : Found) :
    hexDecodeBytes (hexEncode bytes) = some bytes ∧
      ((∀ bytes, hexDecodeBytes name = some bytes → hexEncode bytes = name) ↔
        (Spelled name → Plain name)) ∧
      (Accounts found ↔ PlainNames found ∧ entryBytes found ≤ usizeMax) ∧
      (Disk.Lists root (found.entries.map DirEntry.name) ↔
        ∀ entry ∈ found.entries, (Disk.keyOf entry.name).isSome → Plain entry.name) := by
  simp only [hexDecodeBytes_eq]
  exact ⟨hexDecode_hexEncode bytes, decodes_exactly_iff name, accounts_iff found,
    Disk.lists_iff root found⟩

def twoSpellings : Found where
  entries := [{ name := ['4', 'a'], len := 3, modified := 0 },
    { name := ['4', 'A'], len := 5, modified := 1 }]
  nodup := by decide
  named := by decide

def keyJ : Key := ⟨"J", by decide⟩

theorem keyOf_small : keyOf ['4', 'a'] = some keyJ := keyOf_entryName keyJ

theorem keyOf_capital : keyOf ['4', 'A'] = some keyJ := keyOf_entryName keyJ

/-- A capital digit or a plus sign is read as a digit that is written in another way; two files then
count for the key of one of them. -/
theorem spelling_aliases :
    hexDecodeBytes ['4', 'A'] = some [0x4A] ∧ hexEncode [0x4A] = ['4', 'a'] ∧
      hexDecodeBytes ['+', 'a'] = some [0x0A] ∧ hexEncode [0x0A] = ['0', 'a'] ∧
      Fs.keysOf twoSpellings.entries = [keyJ, keyJ] ∧
      (Inner.scan (Fs.found twoSpellings.entries)).total = 8 ∧
      MapSum.total id (Inner.scan (Fs.found twoSpellings.entries)).sizes = 5 := by
  have hkeys : Fs.keysOf twoSpellings.entries = [keyJ, keyJ] := by
    simp [Fs.keysOf, twoSpellings, keyOf_small, keyOf_capital]
  have hfound : Fs.found twoSpellings.entries = [(keyJ, 3), (keyJ, 5)] := by
    simp [Fs.found, twoSpellings, keyOf_small, keyOf_capital]
  rw [hkeys, hfound]
  decide

end Tierstore
