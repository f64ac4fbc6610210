import Mathlib
import TaurusNode.Lib.Bits
import TaurusNode.Lib.Fallible
import TaurusNode.Lib.Text

/-!
# Names and their text

`libraries/chain/name.cpp` and `include/eosio/chain/name.hpp`: a name is 64 bits, written as up to
thirteen characters of `.12345abcdefghijklmnopqrstuvwxyz`. Each of the first twelve characters is
five bits, the first the most significant; the thirteenth is the last four bits, so it only takes
the first sixteen characters of the map.

The code has three functions, kept here as it writes them: `stringToUint64T` with its three
checks and its loop from the twelfth character down, `Name.toString` with its loop that writes
`str[12 - i]` from the low bits up and then trims the trailing dots, and `isStringValidName`, a
validator written apart from both.

Between them stands `nameValue`, the number thirteen characters spell: the code of the thirteenth
plus sixteen times the twelve five-bit codes read as a base-32 numeral (`Nat.ofDigits 32`).
`nameChars v` is the text `to_string` writes before it trims: the twelve base-32 digits of
`v / 16` (`Nat.digitsAppend`), most significant first, then `v % 16`.

* `stringToUint64T_padName` — trailing dots change nothing, error or value: a text decodes as its
  padding to thirteen characters does.
* `stringToUint64T_of_length_eq` — thirteen characters of the charmap, the last of the first
  sixteen, decode to their `nameValue`; `valid_of_stringToUint64T_eq_ok` — and only those.
* `Name.toString_eq` — the loop writes `nameChars`.
* `nameValue_nameChars`, `nameChars_nameValue` — the two are inverse, through Mathlib's bijection
  between numbers below `32 ^ 12` and twelve base-32 digits.
-/

namespace Eosio.Chain

/-- `name`: a 64-bit value, written as text by `to_string` and read back by
`string_to_uint64_t`. -/
structure Name where
  value : UInt64
deriving DecidableEq, Repr

/-- `name()`, and so `permission_name()`: the empty name. -/
def Name.empty : Name := ⟨0⟩

/-- `name_type_exception`, with what its message names. -/
inductive NameError
  /-- "Name contains invalid character: ({c}) " -/
  | invalidCharacter (c : Char)
  /-- "Name is longer than 13 characters ({name}) " -/
  | longerThan13 (name : List Char)
  /-- "invalid 13th character: ({c})" -/
  | invalid13thCharacter (c : Char)
deriving DecidableEq, Repr

/-! ### The code -/

/-- `char_to_symbol`: the five-bit code of a character of a name. -/
def charToSymbol (c : Char) : Except NameError UInt64 :=
  if 'a' ≤ c ∧ c ≤ 'z' then .ok ((c.toNat - 'a'.toNat) + 6).toUInt64
  else if '1' ≤ c ∧ c ≤ '5' then .ok ((c.toNat - '1'.toNat) + 1).toUInt64
  else if c = '.' then .ok 0
  else .error (.invalidCharacter c)

/-- The loop `while (--i >= 0) n |= char_to_symbol(str[i]) << (64 - 5 * (i + 1))` of
`string_to_uint64_t`: the first `i` characters, from the last down, five bits each from the top.
The loop starts at most at `str.size()`, so the default of `getD` is never read. -/
def encodeFullRange (str : List Char) : ℕ → UInt64 → Except NameError UInt64
  | 0, n => .ok n
  | i + 1, n => do
    let s ← charToSymbol (str.getD i '.')
    encodeFullRange str i (n ||| s <<< (64 - 5 * (i + 1)).toUInt64)

/-- `string_to_uint64_t`. -/
def stringToUint64T (str : List Char) : Except NameError UInt64 :=
  if str.length > 13 then .error (.longerThan13 str)
  else if str.length ≥ 13 then do
    -- the thirteenth character has the four low bits, so only codes up to `0x0F`
    let n ← charToSymbol (str.getD 12 '.')
    if n ≤ 0x0F then encodeFullRange str 12 n
    else throw (.invalid13thCharacter (str.getD 12 '.'))
  else encodeFullRange str str.length 0

/-- `(c >= 'a' && c <= 'z') || (c >= '1' && c <= '5') || (c == '.')`: a character the first
twelve places of a name take. -/
def isFullRange (c : Char) : Bool :=
  ('a' ≤ c && c ≤ 'z') || ('1' ≤ c && c ≤ '5') || c == '.'

/-- `(c >= 'a' && c <= 'j') || (c >= '1' && c <= '5') || (c == '.')`: a character the
thirteenth place takes. -/
def isThirteenth (c : Char) : Bool :=
  ('a' ≤ c && c ≤ 'j') || ('1' ≤ c && c ≤ '5') || c == '.'

/-- `is_string_valid_name`. -/
def isStringValidName (str : List Char) : Bool :=
  if str.length > 13 then false
  else
    let len := if str.length ≤ 12 then str.length else 12
    (str.take len).all isFullRange &&
      (if str.length = 13 then isThirteenth (str.getD 12 '.') else true)

/-- `charmap` of `name::to_string`: the character of each five-bit code. -/
def charmap : List Char :=
  ['.', '1', '2', '3', '4', '5', 'a', 'b', 'c', 'd', 'e', 'f', 'g', 'h', 'i', 'j', 'k', 'l', 'm',
    'n', 'o', 'p', 'q', 'r', 's', 't', 'u', 'v', 'w', 'x', 'y', 'z']

/-- The loop of `name::to_string`: step `i` writes the character of the low four bits (`i = 0`)
or five bits of `tmp` at `str[12 - i]` and shifts them out; `k` steps remain. -/
def toStringLoop : ℕ → ℕ → UInt64 → List Char → List Char
  | 0, _, _, str => str
  | k + 1, i, tmp, str =>
    let c := charmap.getD (tmp &&& (if i = 0 then 0x0f else 0x1f)).toNat '.'
    toStringLoop k (i + 1) (tmp >>> (if i = 0 then 4 else 5)) (str.set (12 - i) c)

/-- `name::to_string`: the thirteen characters of the loop, with the trailing dots trimmed
(`boost::algorithm::trim_right_if`). -/
def Name.toString (n : Name) : List Char :=
  (toStringLoop 13 0 n.value (List.replicate 13 '.')).rdropWhile (· == '.')

/-! ### What thirteen characters stand for -/

/-- `charmap[k]`. -/
def charmapAt (k : ℕ) : Char := charmap.getD k '.'

/-- The code of a character of the charmap: its place there. -/
def symbolOf (c : Char) : ℕ := charmap.idxOf c

/-- The number thirteen characters spell: the code of the thirteenth in the four low bits, and
above them the codes of the first twelve, the first the most significant. -/
def nameValue (p : List Char) : ℕ :=
  symbolOf (p.getD 12 '.') + 16 * Nat.ofDigits 32 ((p.take 12).map symbolOf).reverse

/-- The thirteen characters `name::to_string` writes for `v` before it trims: the twelve base-32
digits of `v / 16`, most significant first, then the character of `v % 16`. -/
def nameChars (v : ℕ) : List Char :=
  ((Nat.digitsAppend 32 12 (v / 16)).map charmapAt).reverse ++ [charmapAt (v % 16)]

/-- A text padded with dots to thirteen characters. -/
def padName (s : List Char) : List Char := s ++ List.replicate (13 - s.length) '.'

/-! ### The characters -/

theorem charmap_nodup : charmap.Nodup := by decide

theorem charmapAt_mem {k : ℕ} (hk : k < 32) : charmapAt k ∈ charmap := by
  rw [charmapAt, List.getD_eq_getElem _ _ hk]
  exact List.getElem_mem hk

theorem symbolOf_lt {c : Char} (h : c ∈ charmap) : symbolOf c < 32 :=
  List.idxOf_lt_length_iff.mpr h

theorem symbolOf_charmapAt {k : ℕ} (hk : k < 32) : symbolOf (charmapAt k) = k := by
  rw [symbolOf, charmapAt, List.getD_eq_getElem _ _ hk]
  exact charmap_nodup.idxOf_getElem k hk

theorem charmapAt_symbolOf {c : Char} (h : c ∈ charmap) : charmapAt (symbolOf c) = c := by
  rw [symbolOf, charmapAt, List.getD_eq_getElem _ _ (symbolOf_lt h)]
  exact List.getElem_idxOf _

theorem toNat_symbolOf_toUInt64 {c : Char} (h : c ∈ charmap) :
    (symbolOf c).toUInt64.toNat = symbolOf c := by
  rw [Nat.toUInt64_eq, UInt64.toNat_ofNat', Nat.mod_eq_of_lt (by have := symbolOf_lt h; omega)]

theorem getD_mem {p : List Char} {j : ℕ} (hj : j < p.length) : p.getD j '.' ∈ p := by
  rw [List.getD_eq_getElem _ _ hj]
  exact List.getElem_mem hj

/-- **The validator's class is the charmap.** Each of its three ranges is a run of the map. -/
theorem isFullRange_iff_mem {c : Char} : isFullRange c = true ↔ c ∈ charmap := by
  constructor
  · intro h
    simp only [isFullRange, Bool.or_eq_true, Bool.and_eq_true, decide_eq_true_eq, beq_iff_eq,
      Text.char_le_iff_toNat_le] at h
    have hlower : ∀ k < 26, charmapAt (k + 6) = Char.ofNat (97 + k) := by decide
    have hdigit : ∀ k < 5, charmapAt (k + 1) = Char.ofNat (49 + k) := by decide
    rcases h with (⟨ha, hz⟩ | ⟨h1, h5⟩) | rfl
    · change 97 ≤ c.toNat at ha
      change c.toNat ≤ 122 at hz
      have hk := hlower (c.toNat - 97) (by omega)
      rw [Nat.add_sub_cancel' ha, Char.ofNat_toNat] at hk
      rw [← hk]
      exact charmapAt_mem (by omega)
    · change 49 ≤ c.toNat at h1
      change c.toNat ≤ 53 at h5
      have hk := hdigit (c.toNat - 49) (by omega)
      rw [Nat.add_sub_cancel' h1, Char.ofNat_toNat] at hk
      rw [← hk]
      exact charmapAt_mem (by omega)
    · exact charmapAt_mem (k := 0) (by decide)
  · intro h
    have htable : ∀ k < 32, isFullRange (charmapAt k) = true := by decide
    rw [← charmapAt_symbolOf h]
    exact htable _ (symbolOf_lt h)

/-- The thirteenth place takes exactly the characters of the first sixteen codes. -/
theorem isThirteenth_iff {c : Char} (h : c ∈ charmap) : isThirteenth c = true ↔ symbolOf c < 16 := by
  have htable : ∀ k < 32, isThirteenth (charmapAt k) = decide (k < 16) := by decide
  rw [← charmapAt_symbolOf h, htable _ (symbolOf_lt h), symbolOf_charmapAt (symbolOf_lt h),
    decide_eq_true_eq]

/-- `char_to_symbol` gives a character of the map its place there. -/
theorem charToSymbol_of_mem {c : Char} (h : c ∈ charmap) :
    charToSymbol c = .ok (symbolOf c).toUInt64 := by
  have htable : ∀ k < 32, charToSymbol (charmapAt k) = .ok k.toUInt64 := by decide
  rw [← charmapAt_symbolOf h, htable _ (symbolOf_lt h), symbolOf_charmapAt (symbolOf_lt h)]

theorem charToSymbol_of_not_mem {c : Char} (h : c ∉ charmap) :
    charToSymbol c = .error (.invalidCharacter c) := by
  have hout : isFullRange c = false := by
    rw [← Bool.not_eq_true, isFullRange_iff_mem]
    exact h
  simp only [isFullRange, Bool.or_eq_false_iff, Bool.and_eq_false_iff, decide_eq_false_iff_not,
    beq_eq_false_iff_ne] at hout
  obtain ⟨⟨hlower, hdigit⟩, hdot⟩ := hout
  rw [charToSymbol, if_neg (by tauto), if_neg (by tauto), if_neg hdot]

/-! ### Reading a text -/

/-- The loop reads nothing of the characters beyond the first `i`. -/
theorem encodeFullRange_congr {str str' : List Char} {i : ℕ}
    (h : ∀ j < i, str.getD j '.' = str'.getD j '.') (n : UInt64) :
    encodeFullRange str i n = encodeFullRange str' i n := by
  induction i generalizing n with
  | zero => rfl
  | succ i ih =>
    simp only [encodeFullRange, h i (Nat.lt_succ_self i),
      ih (fun j hj => h j (Nat.lt_succ_of_lt hj))]

/-- Dots, code zero, add no bits. -/
theorem encodeFullRange_dots {str : List Char} {k i : ℕ} (hki : k ≤ i)
    (hdots : ∀ j, k ≤ j → j < i → str.getD j '.' = '.') (n : UInt64) :
    encodeFullRange str i n = encodeFullRange str k n := by
  induction i, hki using Nat.le_induction generalizing n with
  | base => rfl
  | succ i hki ih =>
    have hdot : charToSymbol (str.getD i '.') = .ok 0 := by
      rw [hdots i hki (Nat.lt_succ_self i)]
      rfl
    have hzero : n ||| (0 : UInt64) <<< (64 - 5 * (i + 1)).toUInt64 = n := by
      rw [UInt64.zero_shiftLeft, UInt64.or_zero]
    rw [encodeFullRange, hdot, Fallible.ok_bind, hzero]
    exact ih (fun j hkj hji => hdots j hkj (Nat.lt_succ_of_lt hji)) n

/-- **The loop's invariant.** Over characters of the map, the first `i` add their codes, as a
base-32 numeral with the first the most significant, above the `64 - 5 * i` bits already there. -/
theorem encodeFullRange_eq_ok {str : List Char} {i : ℕ} (hi : i ≤ 12) (hlen : i ≤ str.length)
    (hmem : ∀ j < i, str.getD j '.' ∈ charmap) {n : UInt64} (hn : n.toNat < 2 ^ (64 - 5 * i)) :
    encodeFullRange str i n =
      .ok (n.toNat + Nat.ofDigits 32 ((str.take i).map symbolOf).reverse * 2 ^ (64 - 5 * i)).toUInt64 := by
  induction i generalizing n with
  | zero => simp [encodeFullRange]
  | succ i ih =>
    have hc := hmem i (Nat.lt_succ_self i)
    have hs := symbolOf_lt hc
    -- the `i`-th character goes just above the bits of `n`
    have hpow : 2 ^ (64 - 5 * i) = 2 ^ (64 - 5 * (i + 1)) * 32 := by
      rw [show 64 - 5 * i = 64 - 5 * (i + 1) + 5 by omega, Nat.pow_add]
    have hsym := toNat_symbolOf_toUInt64 hc
    have hfits : symbolOf (str.getD i '.') * 2 ^ (64 - 5 * (i + 1)) < 2 ^ 64 :=
      calc symbolOf (str.getD i '.') * 2 ^ (64 - 5 * (i + 1))
          < 32 * 2 ^ (64 - 5 * (i + 1)) := Nat.mul_lt_mul_of_pos_right hs (Nat.two_pow_pos _)
        _ = 2 ^ (64 - 5 * i) := by rw [hpow, Nat.mul_comm]
        _ ≤ 2 ^ 64 := Nat.pow_le_pow_right (by decide) (by omega)
    have hor : (n ||| (symbolOf (str.getD i '.')).toUInt64 <<< (64 - 5 * (i + 1)).toUInt64).toNat =
        n.toNat + symbolOf (str.getD i '.') * 2 ^ (64 - 5 * (i + 1)) := by
      rw [Bits.UInt64.toNat_or_shiftLeft (by omega) hn (by rw [hsym]; exact hfits), hsym]
    have hn' : (n ||| (symbolOf (str.getD i '.')).toUInt64 <<< (64 - 5 * (i + 1)).toUInt64).toNat <
        2 ^ (64 - 5 * i) := by
      rw [hor, hpow]
      have : symbolOf (str.getD i '.') * 2 ^ (64 - 5 * (i + 1)) ≤
          31 * 2 ^ (64 - 5 * (i + 1)) := Nat.mul_le_mul_right _ (by omega)
      omega
    -- the digits so far, with the `i`-th character as the new last one
    have htake : ((str.take (i + 1)).map symbolOf).reverse =
        symbolOf (str.getD i '.') :: ((str.take i).map symbolOf).reverse := by
      rw [List.take_add_one, List.getElem?_eq_getElem (by omega), Option.toList_some, List.map_append,
        List.reverse_append, List.getD_eq_getElem _ _ (by omega)]
      rfl
    rw [encodeFullRange, charToSymbol_of_mem hc, Fallible.ok_bind,
      ih (by omega) (by omega) (fun j hj => hmem j (Nat.lt_succ_of_lt hj)) hn', hor, htake,
      Nat.ofDigits_cons, hpow]
    congr 2
    ring

/-- **Reading thirteen characters.** Characters of the map, the last among the first sixteen,
spell their `nameValue`. -/
theorem stringToUint64T_of_length_eq {p : List Char} (hlen : p.length = 13)
    (hmem : ∀ c ∈ p, c ∈ charmap) (h13 : symbolOf (p.getD 12 '.') < 16) :
    stringToUint64T p = .ok (nameValue p).toUInt64 := by
  have hc : p.getD 12 '.' ∈ charmap := hmem _ (getD_mem (by omega))
  have hsym := toNat_symbolOf_toUInt64 hc
  have hle : (symbolOf (p.getD 12 '.')).toUInt64 ≤ 0x0F := by
    rw [UInt64.le_iff_toNat_le, hsym]
    exact Nat.le_of_lt_succ h13
  have hloop : encodeFullRange p 12 (symbolOf (p.getD 12 '.')).toUInt64 = _ :=
    encodeFullRange_eq_ok (le_refl 12) (by omega) (fun j hj => hmem _ (getD_mem (by omega)))
      (by rw [hsym]; omega)
  rw [stringToUint64T, if_neg (by omega), if_pos (by omega), charToSymbol_of_mem hc,
    Fallible.ok_bind, if_pos hle, hloop, hsym, nameValue, Nat.mul_comm]
  rfl

/-- **Trailing dots change nothing**, neither the value nor the error: a text of at most thirteen
characters reads as its padding to thirteen. -/
theorem stringToUint64T_padName {s : List Char} (hlen : s.length ≤ 13) :
    stringToUint64T (padName s) = stringToUint64T s := by
  rcases Nat.lt_or_eq_of_le hlen with hlt | heq
  · have hpad : (padName s).length = 13 := by simp [padName]; omega
    have hgetD : ∀ j, (padName s).getD j '.' = s.getD j '.' := by
      intro j
      by_cases hj : j < s.length
      · exact List.getD_append _ _ _ _ hj
      · rw [padName, List.getD_append_right _ _ _ _ (by omega), List.getD_eq_getElem?_getD,
          List.getElem?_getD_replicate_default_eq,
          List.getD_eq_default _ _ (by omega)]
    have hdot : charToSymbol ((padName s).getD 12 '.') = .ok 0 := by
      rw [hgetD, List.getD_eq_default _ _ (by omega)]
      rfl
    rw [stringToUint64T, if_neg (by omega), if_pos (by omega), hdot, Fallible.ok_bind,
      if_pos (by decide), stringToUint64T, if_neg (by omega), if_neg (by omega),
      encodeFullRange_dots (k := s.length) (by omega)
        (fun j hj _ => by rw [hgetD, List.getD_eq_default _ _ hj]),
      encodeFullRange_congr (fun j _ => hgetD j)]
  · rw [padName, heq, Nat.sub_self, List.replicate_zero, List.append_nil]

/-- The loop succeeds only when every character it reads is of the map. -/
theorem encodeFullRange_mem {str : List Char} {i : ℕ} {n v : UInt64}
    (h : encodeFullRange str i n = .ok v) : ∀ j < i, str.getD j '.' ∈ charmap := by
  induction i generalizing n with
  | zero => intro j hj; omega
  | succ i ih =>
    by_cases hc : str.getD i '.' ∈ charmap
    · rw [encodeFullRange, charToSymbol_of_mem hc, Fallible.ok_bind] at h
      intro j hj
      rcases Nat.lt_succ_iff_lt_or_eq.mp hj with hj | rfl
      · exact ih h j hj
      · exact hc
    · rw [encodeFullRange, charToSymbol_of_not_mem hc] at h
      cases h

/-- **Reading thirteen characters succeeds exactly** when they are of the map and the thirteenth is
among the first sixteen. -/
theorem stringToUint64T_eq_ok_iff {p : List Char} (hlen : p.length = 13) :
    (∃ v, stringToUint64T p = .ok v) ↔
      (∀ c ∈ p, c ∈ charmap) ∧ symbolOf (p.getD 12 '.') < 16 := by
  constructor
  · rintro ⟨v, h⟩
    rw [stringToUint64T, if_neg (by omega), if_pos (by omega)] at h
    -- the thirteenth character is read first
    by_cases hc : p.getD 12 '.' ∈ charmap
    · rw [charToSymbol_of_mem hc, Fallible.ok_bind] at h
      have hsym := toNat_symbolOf_toUInt64 hc
      by_cases hle : (symbolOf (p.getD 12 '.')).toUInt64 ≤ 0x0F
      · rw [if_pos hle] at h
        have hfirst := encodeFullRange_mem h
        rw [UInt64.le_iff_toNat_le, hsym] at hle
        refine ⟨fun c hc' => ?_, by simpa using Nat.lt_succ_of_le hle⟩
        obtain ⟨j, hj, rfl⟩ := List.getElem_of_mem hc'
        rcases Nat.lt_or_eq_of_le (Nat.le_of_lt_succ (hlen ▸ hj)) with hj12 | rfl
        · rw [← List.getD_eq_getElem _ '.' hj]
          exact hfirst j hj12
        · rw [← List.getD_eq_getElem _ '.' hj]
          exact hc
      · rw [if_neg hle] at h
        cases h
    · rw [charToSymbol_of_not_mem hc, Fallible.error_bind] at h
      cases h
  · rintro ⟨hmem, h13⟩
    exact ⟨_, stringToUint64T_of_length_eq hlen hmem h13⟩

/-! ### Writing a name -/

/-- **The writing loop's invariant.** From step `i ≥ 1` on, with `k = 13 - i` steps left, the loop
writes the `k` base-32 digits of `tmp` over the first `k` places, the last digit first. -/
theorem toStringLoop_eq {k i : ℕ} (hi : 1 ≤ i) (hki : k + i = 13) {tmp : UInt64}
    (htmp : tmp.toNat < 32 ^ k) {str : List Char} (hlen : str.length = 13) :
    toStringLoop k i tmp str =
      ((Nat.digitsAppend 32 k tmp.toNat).map charmapAt).reverse ++ str.drop k := by
  induction k generalizing i tmp str with
  | zero =>
    have h0 : tmp.toNat = 0 := by simpa using htmp
    simp [toStringLoop, h0, Nat.digitsAppend]
  | succ k ih =>
    have hi0 : i ≠ 0 := by omega
    have hlow : (tmp &&& 0x1f).toNat = tmp.toNat % 32 := Bits.UInt64.toNat_and_mask _ _ 5 rfl
    have hhigh : (tmp >>> 5).toNat = tmp.toNat / 32 := Bits.UInt64.toNat_shiftRight_of_lt _ 5 (by decide)
    have hplace : 12 - i = k := by omega
    -- writing at place `k` leaves the places before it to the rest of the loop
    have hset : (str.set k (charmapAt (tmp.toNat % 32))).drop k =
        charmapAt (tmp.toNat % 32) :: str.drop (k + 1) := by
      rw [List.set_eq_take_append_cons_drop, if_pos (by omega), List.drop_left' (by simp; omega)]
    rw [toStringLoop, if_neg hi0, if_neg hi0, hplace, hlow,
      ih (by omega) (by omega) (by rw [hhigh]; exact Nat.div_lt_of_lt_mul (by rw [← Nat.pow_succ']; exact htmp))
        (by rw [List.length_set, hlen]),
      hhigh, Bits.digitsAppend_succ (by decide), List.map_cons, List.reverse_cons, List.append_assoc]
    change _ ++ (str.set k (charmapAt (tmp.toNat % 32))).drop k = _
    rw [hset]
    rfl

/-- `name::to_string` writes `nameChars` and trims it. -/
theorem Name.toString_eq (n : Name) : n.toString = (nameChars n.value.toNat).rdropWhile (· == '.') := by
  have hlow : (n.value &&& 0x0f).toNat = n.value.toNat % 16 := Bits.UInt64.toNat_and_mask _ _ 4 rfl
  have hhigh : (n.value >>> 4).toNat = n.value.toNat / 16 :=
    Bits.UInt64.toNat_shiftRight_of_lt _ 4 (by decide)
  have hrest : (n.value >>> 4).toNat < 32 ^ 12 := by
    rw [hhigh]
    have := n.value.toNat_lt
    omega
  rw [Name.toString, toStringLoop, if_pos rfl, if_pos rfl, hlow,
    toStringLoop_eq (le_refl 1) rfl hrest (by simp), hhigh]
  rfl

theorem length_nameChars {v : ℕ} (hv : v < 2 ^ 64) : (nameChars v).length = 13 := by
  have hD : (Nat.digitsAppend 32 12 (v / 16)).length = 12 :=
    Nat.length_digitsAppend (by decide) 12 (by omega)
  simp [nameChars, hD]

theorem mem_nameChars {v : ℕ} {c : Char} (hc : c ∈ nameChars v) : c ∈ charmap := by
  simp only [nameChars, List.mem_append, List.mem_reverse, List.mem_map, List.mem_singleton] at hc
  rcases hc with ⟨d, hd, rfl⟩ | rfl
  · exact charmapAt_mem (Nat.lt_of_mem_digitsAppend (by decide) 12 d hd)
  · exact charmapAt_mem (by omega)

/-- **The number `to_string` writes is the name.** -/
theorem nameValue_nameChars {v : ℕ} (hv : v < 2 ^ 64) : nameValue (nameChars v) = v := by
  have hD : (Nat.digitsAppend 32 12 (v / 16)).length = 12 :=
    Nat.length_digitsAppend (by decide) 12 (by omega)
  have htake : (nameChars v).take 12 =
      ((Nat.digitsAppend 32 12 (v / 16)).map charmapAt).reverse := by
    rw [nameChars, List.take_left' (by simp [hD])]
  have h12 : (nameChars v).getD 12 '.' = charmapAt (v % 16) := by
    rw [nameChars, List.getD_append_right _ _ _ _ (by simp [hD])]
    simp [hD]
  -- the codes of the written digits are the digits
  have hcodes : (((nameChars v).take 12).map symbolOf).reverse = Nat.digitsAppend 32 12 (v / 16) := by
    rw [htake, List.map_reverse, List.map_map, List.reverse_reverse]
    conv_rhs => rw [← List.map_id (Nat.digitsAppend 32 12 (v / 16))]
    apply List.map_congr_left
    intro d hd
    exact symbolOf_charmapAt (Nat.lt_of_mem_digitsAppend (by decide) 12 d hd)
  rw [nameValue, h12, symbolOf_charmapAt (by omega), hcodes, Nat.digitsAppend,
    Nat.ofDigits_append_replicate_zero, Nat.ofDigits_digits, Nat.mod_add_div]

/-- **The text of the number thirteen characters spell is those characters.** -/
theorem nameChars_nameValue {p : List Char} (hlen : p.length = 13)
    (hmem : ∀ c ∈ p, c ∈ charmap) (h13 : symbolOf (p.getD 12 '.') < 16) :
    nameChars (nameValue p) = p := by
  have hcs : ((p.take 12).map symbolOf).reverse ∈
      {L : List ℕ | L.length = 12 ∧ ∀ x ∈ L, x < 32} := by
    refine ⟨by simp; omega, fun x hx => ?_⟩
    simp only [List.mem_reverse, List.mem_map] at hx
    obtain ⟨c, hc, rfl⟩ := hx
    exact symbolOf_lt (hmem c (List.mem_of_mem_take hc))
  have hmod : nameValue p % 16 = symbolOf (p.getD 12 '.') := by
    rw [nameValue, Nat.add_mul_mod_self_left, Nat.mod_eq_of_lt h13]
  have hdiv : nameValue p / 16 = Nat.ofDigits 32 ((p.take 12).map symbolOf).reverse := by
    rw [nameValue]
    omega
  have hc12 : p.getD 12 '.' ∈ charmap := hmem _ (by
    rw [List.getD_eq_getElem _ _ (by omega)]
    exact List.getElem_mem _)
  -- the charmap undoes the codes on the first twelve characters
  have hfirst : ((p.take 12).map symbolOf).map charmapAt = p.take 12 := by
    rw [List.map_map]
    conv_rhs => rw [← List.map_id (p.take 12)]
    apply List.map_congr_left
    intro c hc
    exact charmapAt_symbolOf (hmem c (List.mem_of_mem_take hc))
  have hdrop : p.drop 12 = [p.getD 12 '.'] := by
    rw [List.drop_eq_getElem_cons (by omega), List.drop_eq_nil_of_le (by omega),
      List.getD_eq_getElem _ _ (by omega)]
  rw [nameChars, hmod, hdiv, (Nat.setInvOn_digitsAppend_ofDigits (by decide) 12).1 hcs,
    List.map_reverse, List.reverse_reverse, hfirst, charmapAt_symbolOf hc12, ← hdrop,
    List.take_append_drop]

theorem nameValue_lt {p : List Char} (hmem : ∀ c ∈ p, c ∈ charmap)
    (h13 : symbolOf (p.getD 12 '.') < 16) : nameValue p < 2 ^ 64 := by
  have hdigits : Nat.ofDigits 32 ((p.take 12).map symbolOf).reverse < 32 ^ 12 := by
    have hlt := Nat.ofDigits_lt_base_pow_length (b := 32) (l := ((p.take 12).map symbolOf).reverse)
      (by decide) (fun x hx => by
        simp only [List.mem_reverse, List.mem_map] at hx
        obtain ⟨c, hc, rfl⟩ := hx
        exact symbolOf_lt (hmem c (List.mem_of_mem_take hc)))
    calc _ < 32 ^ ((p.take 12).map symbolOf).reverse.length := hlt
      _ ≤ 32 ^ 12 := Nat.pow_le_pow_right (by decide) (by simp)
  rw [nameValue]
  omega

/-! ### Trimming and padding -/

/-- Trimming thirteen characters and padding them back gives them again. -/
theorem padName_rdropWhile {p : List Char} (hlen : p.length = 13) :
    padName (p.rdropWhile (· == '.')) = p := by
  have hsplit : p.rdropWhile (· == '.') ++ p.rtakeWhile (· == '.') = p :=
    List.rdropWhile_append_rtakeWhile
  -- what the trim removed is dots
  have hdots : p.rtakeWhile (· == '.') = List.replicate (p.rtakeWhile (· == '.')).length '.' :=
    List.eq_replicate_iff.mpr ⟨rfl, fun c hc => by simpa using List.mem_rtakeWhile_imp hc⟩
  have hcount : (p.rtakeWhile (· == '.')).length = 13 - (p.rdropWhile (· == '.')).length := by
    have hsum := congrArg List.length hsplit
    rw [List.length_append, hlen] at hsum
    omega
  rw [padName, ← hcount, ← hdots, hsplit]

/-- Padding a text that does not end in a dot and trimming it gives it again. -/
theorem rdropWhile_padName {s : List Char} (hlast : s.getLast? ≠ some '.') :
    (padName s).rdropWhile (· == '.') = s := by
  have hdots : ∀ n, (s ++ List.replicate n '.').rdropWhile (· == '.') = s.rdropWhile (· == '.') := by
    intro n
    induction n with
    | zero => rw [List.replicate_zero, List.append_nil]
    | succ n ih =>
      rw [List.replicate_succ', ← List.append_assoc, List.rdropWhile_concat_pos _ _ _ rfl, ih]
  rw [padName, hdots, List.rdropWhile_eq_self_iff]
  intro hne hdot
  apply hlast
  rw [List.getLast?_eq_some_getLast hne, beq_iff_eq.mp hdot]

/-! ### The validator -/

theorem drop_twelve {p : List Char} (hlen : p.length = 13) : p.drop 12 = [p.getD 12 '.'] := by
  rw [List.drop_eq_getElem_cons (by omega), List.drop_eq_nil_of_le (by omega),
    List.getD_eq_getElem _ _ (by omega)]

/-- A character of thirteen is one of the first twelve or the thirteenth. -/
theorem mem_take_or_eq_getD {p : List Char} (hlen : p.length = 13) {c : Char} (hc : c ∈ p) :
    c ∈ p.take 12 ∨ c = p.getD 12 '.' := by
  rw [← List.take_append_drop 12 p, drop_twelve hlen] at hc
  simpa using hc

theorem isThirteenth_iff_mem {c : Char} : isThirteenth c = true ↔ c ∈ charmap ∧ symbolOf c < 16 := by
  constructor
  · intro h
    -- `[a-j]` is inside `[a-z]`
    have hfull : isFullRange c = true := by
      simp only [isThirteenth, isFullRange, Bool.or_eq_true, Bool.and_eq_true, decide_eq_true_eq,
        beq_iff_eq] at h ⊢
      rcases h with (⟨ha, hj⟩ | hdigit) | hdot
      · exact .inl (.inl ⟨ha, le_trans hj (by decide)⟩)
      · exact .inl (.inr hdigit)
      · exact .inr hdot
    have hc := isFullRange_iff_mem.mp hfull
    exact ⟨hc, (isThirteenth_iff hc).mp h⟩
  · rintro ⟨hc, hlt⟩
    exact (isThirteenth_iff hc).mpr hlt

/-- **The validator checks what reading needs**: a text of at most thirteen characters is valid
when, padded with dots, its characters are of the map and the thirteenth among the first
sixteen. -/
theorem isStringValidName_iff {s : List Char} (hlen : s.length ≤ 13) :
    isStringValidName s = true ↔
      (∀ c ∈ padName s, c ∈ charmap) ∧ symbolOf ((padName s).getD 12 '.') < 16 := by
  have hdot : '.' ∈ charmap := charmapAt_mem (k := 0) (by decide)
  rcases Nat.lt_or_eq_of_le hlen with hlt | heq
  · -- shorter than thirteen: the padding is dots, and so is the thirteenth place
    have h12 : (padName s).getD 12 '.' = '.' := by
      rw [padName, List.getD_append_right _ _ _ _ (by omega), List.getD_replicate _ (by omega)]
    simp only [isStringValidName, if_neg (show ¬ s.length > 13 by omega),
      if_pos (show s.length ≤ 12 by omega), List.take_length, if_neg (show s.length ≠ 13 by omega),
      Bool.and_true, List.all_eq_true, isFullRange_iff_mem]
    rw [h12]
    constructor
    · intro hs
      refine ⟨fun c hc => ?_, by decide⟩
      rcases List.mem_append.mp hc with hc | hc
      · exact hs c hc
      · rw [List.eq_of_mem_replicate hc]
        exact hdot
    · rintro ⟨hall, -⟩ c hc
      exact hall c (List.mem_append_left _ hc)
  · -- thirteen: the first twelve are checked as full range, the thirteenth on its own
    have hpad : padName s = s := by
      rw [padName, heq, Nat.sub_self, List.replicate_zero, List.append_nil]
    simp only [isStringValidName, if_neg (show ¬ s.length > 13 by omega),
      if_neg (show ¬ s.length ≤ 12 by omega), if_pos heq, Bool.and_eq_true, List.all_eq_true,
      isFullRange_iff_mem, isThirteenth_iff_mem, hpad]
    constructor
    · rintro ⟨hfirst, h13, hlt13⟩
      refine ⟨fun c hc => ?_, hlt13⟩
      rcases mem_take_or_eq_getD heq hc with hc | rfl
      · exact hfirst c hc
      · exact h13
    · rintro ⟨hall, hlt13⟩
      exact ⟨fun c hc => hall c (List.mem_of_mem_take hc), hall _ (getD_mem (by omega)), hlt13⟩

/-! ### The codec -/

/-- **Reading what `to_string` wrote gives the name back.** -/
theorem stringToUint64T_toString (n : Name) : stringToUint64T n.toString = .ok n.value := by
  have hv := n.value.toNat_lt
  have hlen := length_nameChars hv
  have h13 : symbolOf ((nameChars n.value.toNat).getD 12 '.') < 16 := by
    have hD : (Nat.digitsAppend 32 12 (n.value.toNat / 16)).length = 12 :=
      Nat.length_digitsAppend (by decide) 12 (by omega)
    rw [nameChars, List.getD_append_right _ _ _ _ (by simp [hD])]
    simp only [List.length_reverse, List.length_map, hD, Nat.sub_self, List.getD_cons_zero]
    rw [symbolOf_charmapAt (by omega)]
    omega
  have htrim : (n.toString).length ≤ 13 := by
    rw [Name.toString_eq, ← hlen]
    exact (List.rdropWhile_prefix (· == '.') _).length_le
  rw [← stringToUint64T_padName htrim, Name.toString_eq, padName_rdropWhile hlen,
    stringToUint64T_of_length_eq hlen (fun c hc => mem_nameChars hc) h13, nameValue_nameChars hv,
    Nat.toUInt64_eq, UInt64.ofNat_toNat]

/-- **Reading succeeds exactly on the texts the validator accepts.** -/
theorem stringToUint64T_ok_iff (s : List Char) :
    (∃ v, stringToUint64T s = .ok v) ↔ isStringValidName s = true := by
  by_cases hlen : s.length ≤ 13
  · have hpad : (padName s).length = 13 := by
      rw [padName, List.length_append, List.length_replicate]
      omega
    rw [← stringToUint64T_padName hlen, stringToUint64T_eq_ok_iff hpad, isStringValidName_iff hlen]
  · -- too long: reading throws and the validator says no
    have hno : isStringValidName s = false := by
      rw [isStringValidName, if_pos (by omega)]
    rw [hno, stringToUint64T, if_pos (by omega)]
    simp

/-- **Writing what was read gives the text back**, for a valid text not ending in a dot. -/
theorem toString_stringToUint64T {s : List Char} (hvalid : isStringValidName s = true)
    (hlast : s.getLast? ≠ some '.') :
    (stringToUint64T s).map (fun v => Name.toString ⟨v⟩) = .ok s := by
  have hlen : s.length ≤ 13 := by
    by_contra hlong
    rw [isStringValidName, if_pos (by omega)] at hvalid
    cases hvalid
  have hpad : (padName s).length = 13 := by
    rw [padName, List.length_append, List.length_replicate]
    omega
  obtain ⟨hmem, h13⟩ := (isStringValidName_iff hlen).mp hvalid
  have hvalue : ((nameValue (padName s)).toUInt64).toNat = nameValue (padName s) := by
    rw [Nat.toUInt64_eq, UInt64.toNat_ofNat', Nat.mod_eq_of_lt (nameValue_lt hmem h13)]
  rw [← stringToUint64T_padName hlen, stringToUint64T_of_length_eq hpad hmem h13]
  show Except.ok (Name.toString ⟨(nameValue (padName s)).toUInt64⟩) = _
  rw [Name.toString_eq, hvalue, nameChars_nameValue hpad hmem h13, rdropWhile_padName hlast]

/-- **The name codec is a bijection on its format**: every name reads back from its text; reading
succeeds exactly on the texts `is_string_valid_name` accepts; and a valid text not ending in a dot
is the text of the name it reads as. -/
theorem name_text_roundTrip :
    (∀ v : UInt64, stringToUint64T (Name.toString ⟨v⟩) = .ok v) ∧
    (∀ s : List Char, (∃ v, stringToUint64T s = .ok v) ↔ isStringValidName s = true) ∧
    (∀ s : List Char, isStringValidName s = true → s.getLast? ≠ some '.' →
      (stringToUint64T s).map (fun v => Name.toString ⟨v⟩) = .ok s) :=
  ⟨fun v => stringToUint64T_toString ⟨v⟩, stringToUint64T_ok_iff,
    fun _ hvalid hlast => toString_stringToUint64T hvalid hlast⟩

theorem name_text_roundTrip_eosio :
    (stringToUint64T ['e', 'o', 's', 'i', 'o']).map (fun v => Name.toString ⟨v⟩) =
      .ok ['e', 'o', 's', 'i', 'o'] :=
  name_text_roundTrip.2.2 _ (by decide) (by decide)

end Eosio.Chain
