import Mathlib
import TaurusNode.Lib.Bits
import TaurusNode.Lib.Fallible
import TaurusNode.Lib.Text

/-!
# Symbols, assets and their text

`libraries/chain/include/eosio/chain/symbol.hpp`, `asset.hpp` and `asset.cpp`. A symbol is 64
bits: the number of decimals in the low byte and the characters of its name, upper-case letters,
in the bytes above. An asset is an amount of `int64_t` in units of `10 ^ -decimals` and a symbol;
`asset::to_string` writes it as `-12.3400 EOS`, and `asset::from_string` reads such a text back,
building the symbol from the number of digits after the point and the name, and the amount from
the integer part and the fraction.

`fc::to_int64`, `fc::to_string` and `fc::trim` are not part of the repository. `fc::to_string`
and `std::to_string` are decimal writing (`Nat.toDigits 10`), and `fc::trim` removes white space
at both ends (`Text.trim`). `fc::to_int64` is a parameter of the functions that read, and what is
assumed of it is `ParsesDecimal`: an optional minus sign followed by decimal digits reads as the
integer they write. `decimalToInt64` is such a reader.

* `Symbol.name_eq` — the name is the base-256 digits of the bytes above the decimals;
* `stringToSymbol_name` — writing those digits back gives the symbol's bytes;
* `Symbol.fromString_text` — a valid symbol reads back from its text `4,EOS`;
* `Asset.toString_eq` and `Asset.amountParts_amountText` — what `to_string` writes of the amount,
  and what `from_string` reads of it: the integer part, and the fraction negated when the text
  starts with a minus sign;
* `Asset.fromString_toString` — an asset with a valid symbol of non-empty name and an amount
  within `max_amount` reads back from its text.
-/

namespace Eosio.Chain

open Text

/-- The exceptions of `symbol` and `asset`, with what their messages name. -/
inductive AssetError
  /-- `asset_type_exception`: "Asset's amount and symbol should be separated with space". -/
  | missingSpace
  /-- `asset_type_exception`: "Missing decimal fraction after decimal point". -/
  | missingDecimalFraction
  /-- `asset_type_exception`: "magnitude of asset amount must be less than 2^62". -/
  | amountOutOfRange
  /-- `asset_type_exception`: "invalid symbol". -/
  | invalidAssetSymbol
  /-- `symbol_type_exception`: "creating symbol from empty string". -/
  | emptySymbolString
  /-- `symbol_type_exception`: "missing comma in symbol". -/
  | missingComma
  /-- `symbol_type_exception`: "precision {p} should be <= 18". -/
  | precisionTooHigh (p : ℕ)
  /-- `symbol_type_exception`: "invalid character in symbol name". -/
  | invalidSymbolCharacter
  /-- `symbol_type_exception`: "invalid symbol: {name}". -/
  | invalidSymbol (name : List Char)
  /-- A `safe<int64_t>` operation that overflows. -/
  | overflow
  /-- What `fc::to_int64` throws on a text that is not an integer. -/
  | badInteger
deriving DecidableEq, Repr

/-! ### Symbols -/

/-- `symbol::max_precision`. -/
def maxPrecision : ℕ := 18

/-- `symbol`: its 64 bits. -/
structure Symbol where
  value : UInt64
deriving DecidableEq, Repr

/-- `symbol::decimals`: `m_value & 0xFF`. -/
def Symbol.decimals (s : Symbol) : ℕ := (s.value &&& 0xFF).toNat

/-- `symbol::precision`: ten to the decimals, which may be at most `max_precision`. -/
def Symbol.precision (s : Symbol) : Except AssetError ℕ :=
  if s.decimals ≤ maxPrecision then .ok (10 ^ s.decimals)
  else .error (.precisionTooHigh s.decimals)

/-- The loop of `symbol::name`: while `v > 0`, the low byte of `v` is the next character and
`v >>= 8`. Seven bytes are left once the decimals are shifted out, so eight rounds are more than
the loop ever makes. -/
def nameBytes : ℕ → UInt64 → List Char
  | 0, _ => []
  | k + 1, v => if v > 0 then Char.ofNat (v &&& 0xFF).toNat :: nameBytes k (v >>> 8) else []

/-- `symbol::name`. -/
def Symbol.name (s : Symbol) : List Char := nameBytes 8 (s.value >>> 8)

/-- `symbol::valid_name`: upper-case letters only. -/
def validName (name : List Char) : Bool := name.all fun c => 'A' ≤ c && c ≤ 'Z'

/-- `symbol::valid`. -/
def Symbol.valid (s : Symbol) : Bool := s.decimals ≤ maxPrecision && validName s.name

/-- `symbol(uint64_t v)`: the constructor checks `valid()`. -/
def Symbol.ofValue (v : UInt64) : Except AssetError Symbol :=
  if (⟨v⟩ : Symbol).valid then .ok ⟨v⟩ else .error (.invalidSymbol (⟨v⟩ : Symbol).name)

/-- `symbol::operator string`: the decimals, a comma and the name. -/
def Symbol.toString (s : Symbol) : List Char := Nat.toDigits 10 s.decimals ++ ',' :: s.name

/-- The loop of `string_to_symbol`: the character at `i`, which must be an upper-case letter, in
the byte `i + 1`. -/
def symbolBytes : ℕ → List Char → UInt64 → Except AssetError UInt64
  | _, [], result => .ok result
  | i, c :: cs, result =>
    if 'A' ≤ c ∧ c ≤ 'Z' then
      symbolBytes (i + 1) cs (result ||| c.toNat.toUInt64 <<< (8 * (i + 1)).toUInt64)
    else .error .invalidSymbolCharacter

/-- `string_to_symbol(precision, str)`; `str` is a C string, which ends at its first NUL. -/
def stringToSymbol (precision : UInt8) (str : List Char) : Except AssetError UInt64 := do
  let result ← symbolBytes 0 (str.takeWhile (· ≠ Char.ofNat 0)) 0
  pure (result ||| precision.toUInt64)

/-- `symbol::from_string`, with `fc::to_int64` as `toInt64`. -/
def Symbol.fromString (toInt64 : List Char → Except AssetError ℤ) (str : List Char) :
    Except AssetError Symbol := do
  let s := trim str
  if s.isEmpty then throw .emptySymbolString
  let commaPos := s.idxOf ','
  if commaPos = s.length then throw .missingComma
  let precPart := s.take commaPos
  -- `uint8_t p = fc::to_int64(prec_part)`: the low byte of the integer
  let p : UInt8 := UInt8.ofNat ((← toInt64 precPart) % 256).toNat
  let namePart := s.drop (commaPos + 1)
  if p.toNat ≤ maxPrecision then Symbol.ofValue (← stringToSymbol p namePart)
  else throw (.precisionTooHigh p.toNat)

/-! ### Assets -/

/-- `asset::max_amount`: `2^62 - 1`. -/
def maxAmount : ℤ := 2 ^ 62 - 1

/-- `asset`: an amount of `share_type` (`int64_t`), in units of `10 ^ -decimals`, and a symbol. -/
structure Asset where
  amount : ℤ
  sym : Symbol
deriving DecidableEq, Repr

/-- `asset::is_amount_within_range`. -/
def Asset.isAmountWithinRange (a : Asset) : Bool := -maxAmount ≤ a.amount && a.amount ≤ maxAmount

/-- `asset(a, id)`: the constructor checks the amount and the symbol. -/
def Asset.ofAmount (amount : ℤ) (sym : Symbol) : Except AssetError Asset :=
  if !(⟨amount, sym⟩ : Asset).isAmountWithinRange then .error .amountOutOfRange
  else if !sym.valid then .error .invalidAssetSymbol
  else .ok ⟨amount, sym⟩

/-- `asset::to_string`. The code calls `precision()` where it uses it; it is the same each
time. -/
def Asset.toString (a : Asset) : Except AssetError (List Char) := do
  let sign := if a.amount < 0 then ['-'] else []
  let absAmount := a.amount.natAbs
  let precision ← a.sym.precision
  let result := Nat.toDigits 10 (absAmount / precision)
  let result :=
    if a.sym.decimals ≠ 0 then
      let fract := absAmount % precision
      -- `fc::to_string(precision() + fract).erase(0,1)`: the fraction with its leading zeros
      result ++ '.' :: (Nat.toDigits 10 (precision + fract)).drop 1
    else result
  pure (sign ++ result ++ ' ' :: a.sym.name)

/-- A `safe<int64_t>` value: out of range, the operation that gave it throws. -/
def safeInt64 (x : ℤ) : Except AssetError ℤ :=
  if -2 ^ 63 ≤ x ∧ x < 2 ^ 63 then .ok x else .error .overflow

/-- The amount block of `asset::from_string`: `int_part` and `fract_part`, the fraction after the
decimal point negated when the text starts with a minus sign. -/
def Asset.amountParts (toInt64 : List Char → Except AssetError ℤ) (amountStr : List Char) :
    Except AssetError (ℤ × ℤ) := do
  let dotPos := amountStr.idxOf '.'
  if dotPos ≠ amountStr.length then
    let intPart ← toInt64 (amountStr.take dotPos)
    let fractPart ← toInt64 (amountStr.drop (dotPos + 1))
    -- `amount_str[0]`: the NUL after an empty string is no minus sign
    let fractPart ← if amountStr.head? = some '-' then safeInt64 (fractPart * -1)
      else pure fractPart
    pure (intPart, fractPart)
  else
    let intPart ← toInt64 amountStr
    pure (intPart, 0)

/-- `asset::from_string`, with `fc::to_int64` as `toInt64`. -/
def Asset.fromString (toInt64 : List Char → Except AssetError ℤ) (str : List Char) :
    Except AssetError Asset := do
  let s := trim str
  -- the space that separates the amount and the symbol
  let spacePos := s.idxOf ' '
  if spacePos = s.length then throw .missingSpace
  let symbolStr := trim (s.drop (spacePos + 1))
  let amountStr := s.take spacePos
  -- a decimal point must be followed by a fraction
  let dotPos := amountStr.idxOf '.'
  if dotPos ≠ amountStr.length ∧ dotPos = amountStr.length - 1 then
    throw .missingDecimalFraction
  let precisionDigitStr :=
    if dotPos ≠ amountStr.length then Nat.toDigits 10 (amountStr.length - dotPos - 1) else ['0']
  let sym ← Symbol.fromString toInt64 (precisionDigitStr ++ ',' :: symbolStr)
  let (intPart, fractPart) ← Asset.amountParts toInt64 amountStr
  let amount ← safeInt64 (intPart * (← safeInt64 (← sym.precision)))
  let amount ← safeInt64 (amount + fractPart)
  Asset.ofAmount amount sym

/-! ### `fc::to_int64` -/

/-- `n`, negated when `neg`. -/
def signed (neg : Bool) (n : ℕ) : ℤ := if neg then -(n : ℤ) else n

/-- **What is assumed of `fc::to_int64`**: an optional minus sign followed by decimal digits
reads as the integer they write. -/
def ParsesDecimal (toInt64 : List Char → Except AssetError ℤ) : Prop :=
  ∀ (neg : Bool) (ds : List Char), ds ≠ [] → (∀ c ∈ ds, c.isDigit = true) →
    toInt64 ((if neg then ['-'] else []) ++ ds) = .ok (signed neg (Nat.ofDigitChars 10 ds 0))

/-- A reader of optionally signed decimal integers. -/
def decimalToInt64 : List Char → Except AssetError ℤ
  | '-' :: ds =>
    if ds ≠ [] ∧ ds.all Char.isDigit then .ok (-(Nat.ofDigitChars 10 ds 0 : ℤ))
    else .error .badInteger
  | ds =>
    if ds ≠ [] ∧ ds.all Char.isDigit then .ok (Nat.ofDigitChars 10 ds 0)
    else .error .badInteger

theorem ParsesDecimal.digits {toInt64 : List Char → Except AssetError ℤ}
    (hparse : ParsesDecimal toInt64) {ds : List Char} (hne : ds ≠ [])
    (hdig : ∀ c ∈ ds, c.isDigit = true) : toInt64 ds = .ok (Nat.ofDigitChars 10 ds 0) := by
  have h := hparse false ds hne hdig
  rw [if_neg Bool.false_ne_true, List.nil_append] at h
  exact h

theorem decimalToInt64_parsesDecimal : ParsesDecimal decimalToInt64 := by
  intro neg ds hne hdig
  have hall : (ds.all Char.isDigit) = true := List.all_eq_true.mpr hdig
  cases neg
  · -- no sign: the text starts with a digit, not with a minus sign
    obtain ⟨c, cs, rfl⟩ := List.exists_cons_of_ne_nil hne
    have hc : c ≠ '-' := by
      intro h
      have := hdig c List.mem_cons_self
      rw [h] at this
      cases this
    rw [if_neg Bool.false_ne_true, List.nil_append]
    unfold decimalToInt64
    split
    · rename_i ds' heq
      cases heq
      exact absurd rfl hc
    · rw [if_pos ⟨hne, hall⟩]
      rfl
  · rw [if_pos rfl, List.singleton_append, decimalToInt64, if_pos ⟨hne, hall⟩]
    rfl
/-! ### The name of a symbol -/

theorem toNat_ofNat_of_lt_256 {b : ℕ} (hb : b < 256) : (Char.ofNat b).toNat = b := by
  rw [Char.toNat_ofNat, if_pos (Or.inl (by omega))]

/-- The loop of `symbol::name` writes the base-256 digits of what is left, lowest first, and stops
when nothing is. -/
theorem nameBytes_eq {k : ℕ} {v : UInt64} (hv : v.toNat < 256 ^ k) :
    nameBytes k v = (Nat.digits 256 v.toNat).map Char.ofNat := by
  induction k generalizing v with
  | zero =>
    have hzero : v.toNat = 0 := by simpa using hv
    rw [nameBytes, hzero, Nat.digits_zero, List.map_nil]
  | succ k ih =>
    have hlow : (v &&& 0xFF).toNat = v.toNat % 256 := Bits.UInt64.toNat_and_mask _ _ 8 rfl
    have hhigh : (v >>> 8).toNat = v.toNat / 256 :=
      Bits.UInt64.toNat_shiftRight_of_lt _ 8 (by decide)
    by_cases hpos : v > 0
    · have hpos' : 0 < v.toNat := UInt64.lt_iff_toNat_lt.mp hpos
      have hrest : (v >>> 8).toNat < 256 ^ k := by
        rw [hhigh, Nat.pow_succ] at *
        omega
      rw [nameBytes, if_pos hpos, Nat.digits_def' (by decide) hpos', List.map_cons, hlow, ih hrest,
        hhigh]
    · have hzero : v.toNat = 0 := by
        rw [gt_iff_lt, UInt64.lt_iff_toNat_lt, UInt64.toNat_zero] at hpos
        omega
      rw [nameBytes, if_neg hpos, hzero, Nat.digits_zero, List.map_nil]

/-- The name of a symbol is the base-256 digits of its bytes above the decimals. -/
theorem Symbol.name_eq (s : Symbol) :
    s.name = (Nat.digits 256 (s.value.toNat / 256)).map Char.ofNat := by
  have hhigh : (s.value >>> 8).toNat = s.value.toNat / 256 :=
    Bits.UInt64.toNat_shiftRight_of_lt _ 8 (by decide)
  have hlt := s.value.toNat_lt
  rw [Symbol.name, nameBytes_eq (by rw [hhigh]; omega), hhigh]

theorem Symbol.decimals_eq (s : Symbol) : s.decimals = s.value.toNat % 256 :=
  Bits.UInt64.toNat_and_mask _ _ 8 rfl

/-- The characters of a valid name are upper-case letters, codes `65` to `90`. -/
theorem code_of_validName {name : List Char} (h : validName name = true) :
    ∀ c ∈ name, 65 ≤ c.toNat ∧ c.toNat ≤ 90 := by
  intro c hc
  have hc' := List.all_eq_true.mp h c hc
  simp only [Bool.and_eq_true, decide_eq_true_eq, char_le_iff_toNat_le] at hc'
  exact hc'

/-- **The loop of `string_to_symbol`.** Upper-case letters from byte `i + 1` up, as long as they
fit in the word, add their base-256 value above the bytes already there. -/
theorem symbolBytes_eq {cs : List Char} (hupper : ∀ c ∈ cs, 'A' ≤ c ∧ c ≤ 'Z') {i : ℕ}
    (hfit : i + cs.length ≤ 7) {r : UInt64} (hr : r.toNat < 256 ^ (i + 1)) :
    symbolBytes i cs r =
      .ok (r.toNat + 256 ^ (i + 1) * Nat.ofDigits 256 (cs.map Char.toNat)).toUInt64 := by
  induction cs generalizing i r with
  | nil =>
    rw [symbolBytes, List.map_nil, Nat.ofDigits_nil, Nat.mul_zero, Nat.add_zero, Nat.toUInt64_eq,
      UInt64.ofNat_toNat]
  | cons c cs ih =>
    have hc := hupper c List.mem_cons_self
    have hcode : c.toNat ≤ 90 := (char_le_iff_toNat_le _ _).mp hc.2
    have hcast : c.toNat.toUInt64.toNat = c.toNat := by
      rw [Nat.toUInt64_eq, UInt64.toNat_ofNat', Nat.mod_eq_of_lt (by omega)]
    have hpow : 2 ^ (8 * (i + 1)) = 256 ^ (i + 1) := by rw [Nat.pow_mul]
    have hnext : 256 ^ (i + 1 + 1) = 256 ^ (i + 1) * 256 := by rw [Nat.pow_succ]
    have hfits : c.toNat * 256 ^ (i + 1) < 256 ^ (i + 1 + 1) :=
      calc c.toNat * 256 ^ (i + 1)
          < 256 * 256 ^ (i + 1) := Nat.mul_lt_mul_of_pos_right (by omega) (Nat.pow_pos (by decide))
        _ = 256 ^ (i + 1 + 1) := by rw [hnext, Nat.mul_comm]
    have hword : 256 ^ (i + 1 + 1) ≤ 2 ^ 64 := by
      rw [show (2 : ℕ) ^ 64 = 256 ^ 8 by rfl]
      exact Nat.pow_le_pow_right (by decide) (by simp at hfit; omega)
    -- the character goes into byte `i + 1`, above the bytes of `r`
    have hor : (r ||| c.toNat.toUInt64 <<< (8 * (i + 1)).toUInt64).toNat =
        r.toNat + c.toNat * 256 ^ (i + 1) := by
      rw [Bits.UInt64.toNat_or_shiftLeft (by simp at hfit; omega) (by rw [hpow]; exact hr)
        (by rw [hcast, hpow]; omega), hcast, hpow]
    have hr' : (r ||| c.toNat.toUInt64 <<< (8 * (i + 1)).toUInt64).toNat < 256 ^ (i + 1 + 1) := by
      rw [hor, hnext]
      have : c.toNat * 256 ^ (i + 1) ≤ 255 * 256 ^ (i + 1) := Nat.mul_le_mul_right _ (by omega)
      omega
    rw [symbolBytes, if_pos hc, ih (fun c hc => hupper c (List.mem_cons_of_mem _ hc))
      (by simp at hfit; omega) hr', hor, List.map_cons, Nat.ofDigits_cons, hnext]
    congr 2
    ring

/-- **Writing a valid name back** into the bytes above the decimals gives the symbol. -/
theorem stringToSymbol_name {s : Symbol} (hname : validName s.name = true) :
    stringToSymbol (UInt8.ofNat s.decimals) s.name = .ok s.value := by
  have hcodes := code_of_validName hname
  have hupper : ∀ c ∈ s.name, 'A' ≤ c ∧ c ≤ 'Z' := by
    intro c hc
    rw [char_le_iff_toNat_le, char_le_iff_toNat_le]
    exact hcodes c hc
  -- a letter is no NUL, so the C string is the whole name
  have htake : s.name.takeWhile (· ≠ Char.ofNat 0) = s.name := by
    rw [List.takeWhile_eq_self_iff]
    intro c hc
    have := hcodes c hc
    simp only [ne_eq, decide_eq_true_eq]
    intro h0
    rw [h0] at this
    simp at this
  have hlt := s.value.toNat_lt
  have hlen : s.name.length ≤ 7 := by
    rw [Symbol.name_eq, List.length_map, Nat.digits_length_le_iff (by decide)]
    omega
  have hdigits : s.name.map Char.toNat = Nat.digits 256 (s.value.toNat / 256) := by
    rw [Symbol.name_eq, List.map_map]
    conv_rhs => rw [← List.map_id (Nat.digits 256 (s.value.toNat / 256))]
    apply List.map_congr_left
    intro b hb
    exact toNat_ofNat_of_lt_256 (Nat.digits_lt_base (by decide) hb)
  have hbytes : symbolBytes 0 s.name 0 = .ok (256 * (s.value.toNat / 256)).toUInt64 := by
    rw [symbolBytes_eq hupper (by omega) (by decide), hdigits, Nat.ofDigits_digits,
      UInt64.toNat_zero, Nat.zero_add, Nat.zero_add, Nat.pow_one]
  have hdec : s.decimals < 2 ^ 8 := by
    rw [Symbol.decimals_eq]
    omega
  rw [stringToSymbol, htake, hbytes, Fallible.ok_bind]
  -- the decimals go below the name's bytes
  congr 1
  apply UInt64.toNat_inj.mp
  rw [UInt64.toNat_or, Nat.toUInt64_eq, UInt64.toNat_ofNat', Nat.mod_eq_of_lt (by omega),
    UInt8.toNat_toUInt64, UInt8.toNat_ofNat', Nat.mod_eq_of_lt hdec,
    show 256 * (s.value.toNat / 256) = 2 ^ 8 * (s.value.toNat / 256) by rfl,
    ← Nat.two_pow_add_eq_or_of_lt hdec, Symbol.decimals_eq]
  omega

/-- **A valid symbol reads back from its text.** -/
theorem Symbol.fromString_text {toInt64 : List Char → Except AssetError ℤ}
    (hparse : ParsesDecimal toInt64) {s : Symbol} (hvalid : s.valid = true) :
    Symbol.fromString toInt64 s.toString = .ok s := by
  simp only [Symbol.valid, Bool.and_eq_true, decide_eq_true_eq] at hvalid
  obtain ⟨hd, hname⟩ := hvalid
  have hdigits : ∀ c ∈ Nat.toDigits 10 s.decimals, c.isDigit = true :=
    fun c hc => Nat.isDigit_of_mem_toDigits (by decide) (by decide) hc
  have hcodes := code_of_validName hname
  have hsplit : s.toString = (Nat.toDigits 10 s.decimals ++ [',']) ++ s.name := by
    simp [Symbol.toString]
  have htrim : trim s.toString = s.toString := by
    apply trim_eq_self_of_forall
    intro c hc
    rw [hsplit, List.mem_append, List.mem_append, List.mem_singleton] at hc
    rcases hc with (hc | rfl) | hc
    · have := (isDigit_iff.mp (hdigits c hc)).1
      omega
    · decide
    · have := (hcodes c hc).1
      omega
  have hcomma : s.toString.idxOf ',' = (Nat.toDigits 10 s.decimals).length := by
    rw [Symbol.toString, List.idxOf_append_of_notMem (not_mem_of_not_isDigit (by decide) hdigits),
      List.idxOf_cons_self, Nat.add_zero]
  have hint : toInt64 (Nat.toDigits 10 s.decimals) = .ok s.decimals := by
    rw [hparse.digits Nat.toDigits_ne_nil hdigits, Nat.ofDigitChars_toDigits (by decide) (by decide)]
  have hp : UInt8.ofNat (((s.decimals : ℤ)) % 256).toNat = UInt8.ofNat s.decimals := by
    rw [Int.emod_eq_of_lt (by omega) (by simp [maxPrecision] at hd; omega), Int.toNat_natCast]
  have hpnat : (UInt8.ofNat s.decimals).toNat = s.decimals := by
    rw [UInt8.toNat_ofNat', Nat.mod_eq_of_lt (by simp [maxPrecision] at hd; omega)]
  have hof : Symbol.ofValue s.value = .ok s := by
    rw [Symbol.ofValue, if_pos (by simp [Symbol.valid, hname]; exact hd)]
  have hne : s.toString.isEmpty = false := by simp [Symbol.toString]
  have hcomma_lt : (Nat.toDigits 10 s.decimals).length ≠ s.toString.length := by
    simp [Symbol.toString]
  have htake : s.toString.take (Nat.toDigits 10 s.decimals).length = Nat.toDigits 10 s.decimals := by
    rw [Symbol.toString, List.take_left' rfl]
  have hdrop : s.toString.drop ((Nat.toDigits 10 s.decimals).length + 1) = s.name := by
    rw [hsplit, List.drop_left' (by simp)]
  rw [Symbol.fromString, htrim, hne, if_neg Bool.false_ne_true, hcomma, if_neg hcomma_lt]
  rw [htake, hdrop]
  dsimp only
  rw [hint, Fallible.ok_bind, hp, hpnat, if_pos hd, stringToSymbol_name hname, Fallible.ok_bind,
    hof]

/-! ### The amount -/

/-- What `asset::to_string` writes of an amount of magnitude `A` with `d` decimals: the sign, the
integer part, and with decimals the point and the fraction with its leading zeros. -/
def amountText (sign : List Char) (d A : ℕ) : List Char :=
  sign ++ Nat.toDigits 10 (A / 10 ^ d) ++
    if d ≠ 0 then '.' :: (Nat.toDigits 10 (10 ^ d + A % 10 ^ d)).drop 1 else []

theorem signed_natAbs (x : ℤ) : signed (decide (x < 0)) x.natAbs = x := by
  by_cases hx : x < 0
  · rw [signed, if_pos (decide_eq_true hx), Int.ofNat_natAbs_of_nonpos hx.le, Int.neg_neg]
  · rw [signed, if_neg (by simpa using hx), Int.natAbs_of_nonneg (by omega)]

theorem signed_div_add_mod (neg : Bool) (A P : ℕ) :
    signed neg (A / P) * P + signed neg (A % P) = signed neg A := by
  have h := Nat.div_add_mod A P
  cases neg
  · simp only [signed, Bool.false_eq_true, if_false]
    rw [Nat.mul_comm] at h
    exact_mod_cast h
  · simp only [signed, if_true]
    rw [Nat.mul_comm] at h
    have h' : ((A / P : ℕ) : ℤ) * P + ((A % P : ℕ) : ℤ) = A := by exact_mod_cast h
    rw [Int.neg_mul, ← Int.neg_add, h']

theorem natAbs_signed (neg : Bool) (n : ℕ) : (signed neg n).natAbs = n := by
  cases neg <;> simp [signed]

theorem safeInt64_of_natAbs_lt {x : ℤ} (h : x.natAbs < 2 ^ 63) : safeInt64 x = .ok x := by
  rw [safeInt64, if_pos]
  omega

theorem Symbol.precision_of_le {s : Symbol} (h : s.decimals ≤ maxPrecision) :
    s.precision = .ok (10 ^ s.decimals) := by
  rw [Symbol.precision, if_pos h]

theorem Asset.isAmountWithinRange_iff {a : Asset} :
    a.isAmountWithinRange = true ↔ -maxAmount ≤ a.amount ∧ a.amount ≤ maxAmount := by
  rw [Asset.isAmountWithinRange, Bool.and_eq_true, decide_eq_true_iff, decide_eq_true_iff]

/-- `asset::to_string` writes `amountText`, a space and the name. -/
theorem Asset.toString_eq {a : Asset} (h : a.sym.decimals ≤ maxPrecision) :
    a.toString = .ok (amountText (if a.amount < 0 then ['-'] else []) a.sym.decimals
      a.amount.natAbs ++ ' ' :: a.sym.name) := by
  rw [Asset.toString, Symbol.precision_of_le h, Fallible.ok_bind]
  by_cases hd : a.sym.decimals ≠ 0
  · simp only [amountText, if_pos hd, List.append_assoc]
    rfl
  · simp only [amountText, if_neg hd, List.append_nil]
    rfl

theorem isDigit_of_mem_toDigits_ten {n : ℕ} {c : Char} (hc : c ∈ Nat.toDigits 10 n) :
    c.isDigit = true :=
  Nat.isDigit_of_mem_toDigits (by decide) (by decide) hc

/-- Without decimals, `amountText` is the sign and the integer. -/
theorem amountText_zero (sign : List Char) (A : ℕ) :
    amountText sign 0 A = sign ++ Nat.toDigits 10 A := by
  rw [amountText, if_neg (show ¬ (0 ≠ 0) by simp), List.append_nil, Nat.pow_zero, Nat.div_one]

/-- With decimals, `amountText` is the sign, the integer, the point and `d` digits that read as
the remainder. -/
theorem amountText_of_pos (sign : List Char) {d : ℕ} (hd : 0 < d) (A : ℕ) :
    ∃ ds, amountText sign d A = (sign ++ Nat.toDigits 10 (A / 10 ^ d)) ++ '.' :: ds ∧
      ds.length = d ∧ (∀ c ∈ ds, c.isDigit = true) ∧ Nat.ofDigitChars 10 ds 0 = A % 10 ^ d := by
  obtain ⟨ds, hds, hlen, hdig, hval⟩ := toDigits_ten_pow_add (d := d) (f := A % 10 ^ d)
    (Nat.mod_lt _ (Nat.pow_pos (by decide)))
  refine ⟨ds, ?_, hlen, hdig, hval⟩
  rw [amountText, if_pos (show d ≠ 0 by omega), hds, List.drop_one, List.tail_cons]

/-- A character of `amountText`: of the sign, the point, or a digit. -/
theorem mem_amountText {sign : List Char} {d A : ℕ} {c : Char} (hc : c ∈ amountText sign d A) :
    c ∈ sign ∨ c = '.' ∨ c.isDigit = true := by
  simp only [amountText, List.mem_append] at hc
  rcases hc with (hc | hc) | hc
  · exact .inl hc
  · exact .inr (.inr (isDigit_of_mem_toDigits_ten hc))
  · split at hc
    · rcases List.mem_cons.mp hc with rfl | hc
      · exact .inr (.inl rfl)
      · exact .inr (.inr (isDigit_of_mem_toDigits_ten (List.mem_of_mem_drop hc)))
    · cases hc

theorem point_not_mem_sign_digits (neg : Bool) (n : ℕ) :
    '.' ∉ (if neg then ['-'] else []) ++ Nat.toDigits 10 n := by
  rw [List.mem_append, not_or]
  refine ⟨?_, not_mem_of_not_isDigit (by decide) (fun _ hc => isDigit_of_mem_toDigits_ten hc)⟩
  cases neg <;> simp

/-- **The decimal point of `amountText`.** `from_string` finds no point without decimals, and with
them finds `d` digits after it: it accepts the text and gives the symbol `d` decimals. -/
theorem amountText_point (neg : Bool) (d A : ℕ) :
    let t := amountText (if neg then ['-'] else []) d A
    ¬ (t.idxOf '.' ≠ t.length ∧ t.idxOf '.' = t.length - 1) ∧
      (if t.idxOf '.' ≠ t.length then Nat.toDigits 10 (t.length - t.idxOf '.' - 1) else ['0']) =
        Nat.toDigits 10 d := by
  intro t
  rcases Nat.eq_zero_or_pos d with rfl | hd
  · have hnone : t.idxOf '.' = t.length := by
      refine List.idxOf_eq_length ?_
      rw [show t = _ from amountText_zero _ A]
      exact point_not_mem_sign_digits neg A
    rw [hnone, if_neg (fun h => h rfl), Nat.toDigits_zero]
    exact ⟨fun h => h.1 rfl, rfl⟩
  · obtain ⟨ds, hds, hlen, -, -⟩ := amountText_of_pos (if neg then ['-'] else []) hd A
    have hdot : t.idxOf '.' = ((if neg then ['-'] else []) ++ Nat.toDigits 10 (A / 10 ^ d)).length := by
      rw [show t = _ from hds, List.idxOf_append_of_notMem (point_not_mem_sign_digits neg _),
        List.idxOf_cons_self, Nat.add_zero]
    have htlen : t.length =
        ((if neg then ['-'] else []) ++ Nat.toDigits 10 (A / 10 ^ d)).length + 1 + d := by
      rw [show t = _ from hds, List.length_append, List.length_cons, hlen]
      omega
    rw [hdot, htlen, if_pos (Nat.ne_of_lt (by omega))]
    refine ⟨fun h => by omega, ?_⟩
    congr 1
    omega

/-- **Reading the amount back.** The integer part reads as the signed quotient, and the fraction
as the signed remainder: negated when the text starts with a minus sign, even when the integer
part is zero. -/
theorem Asset.amountParts_amountText {toInt64 : List Char → Except AssetError ℤ}
    (hparse : ParsesDecimal toInt64) (neg : Bool) (d A : ℕ) (hA : A < 2 ^ 63) :
    Asset.amountParts toInt64 (amountText (if neg then ['-'] else []) d A) =
      .ok (signed neg (A / 10 ^ d), signed neg (A % 10 ^ d)) := by
  have hint : ∀ n : ℕ, toInt64 ((if neg then ['-'] else []) ++ Nat.toDigits 10 n) =
      .ok (signed neg n) := by
    intro n
    rw [hparse neg _ Nat.toDigits_ne_nil (fun _ hc => isDigit_of_mem_toDigits_ten hc),
      Nat.ofDigitChars_toDigits (by decide) (by decide)]
  rcases Nat.eq_zero_or_pos d with rfl | hd
  · -- no decimals: no point, and the whole text is the integer
    rw [Asset.amountParts, amountText_zero, List.idxOf_eq_length (point_not_mem_sign_digits neg A),
      if_neg (fun h => h rfl), hint, Fallible.ok_bind, Nat.pow_zero, Nat.div_one, Nat.mod_one]
    cases neg <;> rfl
  · obtain ⟨ds, htext, hlen, hdig, hval⟩ := amountText_of_pos (if neg then ['-'] else []) hd A
    have hne : ds ≠ [] := by
      intro h
      rw [h, List.length_nil] at hlen
      omega
    set pre := (if neg then ['-'] else []) ++ Nat.toDigits 10 (A / 10 ^ d)
    have hdot : (amountText (if neg then ['-'] else []) d A).idxOf '.' = pre.length := by
      rw [htext, List.idxOf_append_of_notMem (point_not_mem_sign_digits neg _),
        List.idxOf_cons_self, Nat.add_zero]
    have htake : (amountText (if neg then ['-'] else []) d A).take pre.length = pre := by
      rw [htext, List.take_left' rfl]
    have hdrop : (amountText (if neg then ['-'] else []) d A).drop (pre.length + 1) = ds := by
      rw [htext, List.append_cons, List.drop_left' (by simp only [List.length_append,
        List.length_singleton])]
    have hfract : toInt64 ds = .ok (A % 10 ^ d : ℕ) := by
      rw [hparse.digits hne hdig, hval]
    -- the fraction is negated exactly when the text starts with the minus sign
    have hhead : (amountText (if neg then ['-'] else []) d A).head? = some '-' ↔ neg = true := by
      rw [htext]
      cases neg
      · have hfirst := isDigit_of_mem_toDigits_ten
          (List.head_mem (Nat.toDigits_ne_nil (n := A / 10 ^ d) (b := 10)))
        simp only [pre, Bool.false_eq_true, if_false, List.nil_append, List.head?_append,
          List.head?_eq_some_head Nat.toDigits_ne_nil, Option.some_or, Option.some.injEq,
          iff_false]
        intro h
        rw [h] at hfirst
        cases hfirst
      · simp [pre]
    rw [Asset.amountParts, hdot, if_pos (by rw [htext]; simp [pre]), htake, hdrop, hint,
      Fallible.ok_bind, hfract, Fallible.ok_bind]
    cases neg
    · rw [if_neg (by rw [hhead]; simp)]
      rfl
    · have hmod : A % 10 ^ d < 2 ^ 63 := lt_of_le_of_lt (Nat.mod_le _ _) hA
      rw [if_pos (hhead.mpr rfl), safeInt64_of_natAbs_lt (by
        rw [Int.natAbs_mul, Int.natAbs_natCast]
        simpa using hmod)]
      simp [signed]

/-! ### The round trip -/

/-- **An asset reads back from its text.** For an asset whose symbol is valid with a non-empty
name and whose amount is within `max_amount`, `asset::from_string(a.to_string())` is `a`. -/
theorem Asset.fromString_toString {toInt64 : List Char → Except AssetError ℤ}
    (hparse : ParsesDecimal toInt64) {a : Asset} (hvalid : a.sym.valid = true)
    (hname : a.sym.name ≠ []) (hrange : a.isAmountWithinRange = true) :
    (a.toString >>= Asset.fromString toInt64) = .ok a := by
  have hd : a.sym.decimals ≤ maxPrecision := by
    simp only [Symbol.valid, Bool.and_eq_true, decide_eq_true_eq] at hvalid
    exact hvalid.1
  have hcodes : ∀ c ∈ a.sym.name, 65 ≤ c.toNat ∧ c.toNat ≤ 90 := by
    simp only [Symbol.valid, Bool.and_eq_true] at hvalid
    exact code_of_validName hvalid.2
  have hA : a.amount.natAbs < 2 ^ 63 := by
    have h := Asset.isAmountWithinRange_iff.mp hrange
    unfold maxAmount at h
    omega
  have hsign : (if a.amount < 0 then ['-'] else []) =
      (if decide (a.amount < 0) then ['-'] else []) := by
    simp
  rw [Asset.toString_eq hd, hsign, Fallible.ok_bind]
  -- the text: the amount `t`, a space and the name
  set neg := decide (a.amount < 0)
  obtain ⟨hpoint, hdigitsStr⟩ := amountText_point neg a.sym.decimals a.amount.natAbs
  have hparts := Asset.amountParts_amountText hparse neg a.sym.decimals a.amount.natAbs hA
  set t := amountText (if neg then ['-'] else []) a.sym.decimals a.amount.natAbs
  have hmem : ∀ c ∈ t, c = '-' ∨ c = '.' ∨ c.isDigit = true := by
    intro c hc
    rcases mem_amountText hc with hc | hc
    · left
      cases neg <;> simp_all
    · exact .inr hc
  have hspace : ' ' ∉ t := by
    intro hc
    rcases hmem ' ' hc with h | h | h <;> revert h <;> decide
  have hne : t ≠ [] := by
    simp only [t, amountText, ne_eq, List.append_eq_nil_iff, Nat.toDigits_ne_nil, false_and,
      and_false, not_false_eq_true]
  have hsplit : t ++ ' ' :: a.sym.name = (t ++ [' ']) ++ a.sym.name := by simp
  have htrim : trim (t ++ ' ' :: a.sym.name) = t ++ ' ' :: a.sym.name := by
    apply trim_eq_self
    · intro c hc
      rw [List.head?_append, List.head?_eq_some_head hne, Option.some_or,
        Option.some.injEq] at hc
      rcases hmem c (hc ▸ List.head_mem hne) with rfl | rfl | h
      · decide
      · decide
      · have := (isDigit_iff.mp h).1
        omega
    · intro c hc
      rw [hsplit, List.getLast?_append_of_ne_nil _ hname] at hc
      have := (hcodes c (List.mem_of_getLast? hc)).1
      omega
  have hnametrim : trim a.sym.name = a.sym.name :=
    trim_eq_self_of_forall fun c hc => by have := (hcodes c hc).1; omega
  have hidx : (t ++ ' ' :: a.sym.name).idxOf ' ' = t.length := by
    rw [List.idxOf_append_of_notMem hspace, List.idxOf_cons_self, Nat.add_zero]
  have hlen : t.length ≠ (t ++ ' ' :: a.sym.name).length := by simp
  have htake : (t ++ ' ' :: a.sym.name).take t.length = t := List.take_left' rfl
  have hdrop : (t ++ ' ' :: a.sym.name).drop (t.length + 1) = a.sym.name := by
    rw [hsplit, List.drop_left' (by simp)]
  -- the bounds that keep `safe<int64_t>` from throwing
  have hprec : ((10 ^ a.sym.decimals : ℕ) : ℤ).natAbs < 2 ^ 63 := by
    rw [Int.natAbs_natCast]
    calc 10 ^ a.sym.decimals ≤ 10 ^ 18 := Nat.pow_le_pow_right (by decide) hd
      _ < 2 ^ 63 := by decide
  have hmul : (signed neg (a.amount.natAbs / 10 ^ a.sym.decimals) *
      ((10 ^ a.sym.decimals : ℕ) : ℤ)).natAbs < 2 ^ 63 := by
    rw [Int.natAbs_mul, natAbs_signed, Int.natAbs_natCast]
    exact lt_of_le_of_lt (Nat.div_mul_le_self _ _) hA
  have hsum : (signed neg a.amount.natAbs).natAbs < 2 ^ 63 := by
    rw [natAbs_signed]
    exact hA
  rw [Asset.fromString, htrim, hidx, if_neg hlen]
  dsimp only
  rw [hdrop, htake, hnametrim, if_neg hpoint, hdigitsStr,
    show Nat.toDigits 10 a.sym.decimals ++ ',' :: a.sym.name = a.sym.toString from rfl,
    Symbol.fromString_text hparse hvalid, Fallible.ok_bind, hparts, Fallible.ok_bind]
  dsimp only
  rw [Symbol.precision_of_le hd, Fallible.ok_bind, safeInt64_of_natAbs_lt hprec, Fallible.ok_bind,
    safeInt64_of_natAbs_lt hmul, Fallible.ok_bind, signed_div_add_mod,
    safeInt64_of_natAbs_lt hsum, Fallible.ok_bind, signed_natAbs]
  rw [Asset.ofAmount, if_neg (by simpa using hrange), if_neg (by simpa using hvalid)]

theorem Asset.fromString_toString_eos :
    ((⟨-5, ⟨1397703940⟩⟩ : Asset).toString >>= Asset.fromString decimalToInt64) =
      .ok ⟨-5, ⟨1397703940⟩⟩ :=
  Asset.fromString_toString decimalToInt64_parsesDecimal (by decide) (by decide) (by decide)

end Eosio.Chain
