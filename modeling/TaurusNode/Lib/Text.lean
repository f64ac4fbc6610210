import Mathlib

/-!
# Text as lists of characters

Strings are lists of `Char`. This module has what reading and writing them rests on:

* characters compare as their codes (`char_le_iff_toNat_le`), so that a character class of the
  form `'a' ≤ c ∧ c ≤ 'z'` is a range of codes;
* `trim` removes white space at both ends, and leaves text alone that starts and ends with
  something else (`trim_eq_self`); white space has codes up to that of `' '`;
* naturals are written in decimal by `Nat.toDigits 10` and read back by `Nat.ofDigitChars 10`
  (both from core, with `Nat.ofDigitChars_toDigits`); `toDigits_ten_pow_add` is the fixed-width
  fraction that comes from writing `10 ^ d + f` and dropping the leading `1`.
-/

namespace Text

theorem char_le_iff_toNat_le (c d : Char) : c ≤ d ↔ c.toNat ≤ d.toNat := by
  rw [Char.le_def, UInt32.le_iff_toNat_le]
  rfl

theorem isDigit_iff {c : Char} : c.isDigit = true ↔ 48 ≤ c.toNat ∧ c.toNat ≤ 57 := by
  simp only [Char.isDigit, ge_iff_le, Bool.and_eq_true, decide_eq_true_eq, UInt32.le_iff_toNat_le]
  rfl

theorem toNat_le_of_isWhitespace {c : Char} (h : c.isWhitespace = true) : c.toNat ≤ 32 := by
  simp only [Char.isWhitespace, Bool.or_eq_true, decide_eq_true_eq] at h
  rcases h with ((rfl | rfl) | rfl) | rfl <;> decide

/-- A character outside a list of digits: a list of digits holds no `' '`, `'.'` or `','`. -/
theorem not_mem_of_not_isDigit {x : Char} (hx : x.isDigit = false) {ds : List Char}
    (h : ∀ c ∈ ds, c.isDigit = true) : x ∉ ds := by
  intro hmem
  rw [h x hmem] at hx
  cases hx

/-! ### Trimming -/

/-- `fc::trim`: white space removed at both ends. -/
def trim (s : List Char) : List Char :=
  (s.dropWhile Char.isWhitespace).rdropWhile Char.isWhitespace

/-- Text that starts and ends with a character above `' '` is left as it is. -/
theorem trim_eq_self {s : List Char} (hhead : ∀ c, s.head? = some c → 32 < c.toNat)
    (hlast : ∀ c, s.getLast? = some c → 32 < c.toNat) : trim s = s := by
  have hdrop : s.dropWhile Char.isWhitespace = s := by
    cases s with
    | nil => rfl
    | cons c cs =>
      have hc : c.isWhitespace = false := by
        have := hhead c rfl
        by_contra hw
        have := toNat_le_of_isWhitespace (Bool.not_eq_false _ ▸ hw)
        omega
      rw [List.dropWhile_cons_of_neg (by simp [hc])]
  rw [trim, hdrop, List.rdropWhile_eq_self_iff]
  intro hne hw
  have := hlast _ (List.getLast?_eq_some_getLast hne)
  have := toNat_le_of_isWhitespace hw
  omega

theorem trim_eq_self_of_forall {s : List Char} (h : ∀ c ∈ s, 32 < c.toNat) : trim s = s :=
  trim_eq_self (fun c hc => h c (List.mem_of_mem_head? hc))
    (fun c hc => h c (List.mem_of_getLast? hc))

/-! ### Decimal -/

theorem digitChar_toNat_sub {k : ℕ} (hk : k < 10) : (Nat.digitChar k).toNat - '0'.toNat = k := by
  have htable : ∀ k < 10, (Nat.digitChar k).toNat - '0'.toNat = k := by decide
  exact htable k hk

/-- **Fixed-width fractions.** Below `10 ^ d`, `f` is written with `d` digits, leading zeros
included, after the `1` of `10 ^ d + f`. -/
theorem toDigits_ten_pow_add {d f : ℕ} (hf : f < 10 ^ d) :
    ∃ ds, Nat.toDigits 10 (10 ^ d + f) = '1' :: ds ∧ ds.length = d ∧
      (∀ c ∈ ds, c.isDigit = true) ∧ Nat.ofDigitChars 10 ds 0 = f := by
  induction d generalizing f with
  | zero =>
    have hf0 : f = 0 := by simpa using hf
    subst hf0
    refine ⟨[], ?_, rfl, ?_, rfl⟩
    · rw [Nat.pow_zero, Nat.add_zero, Nat.toDigits_of_lt_base (by decide)]
      rfl
    · intro c hc
      cases hc
  | succ d ih =>
    -- the last digit comes off the end, and the rest is `10 ^ d + f / 10`
    have hpow : 10 ^ (d + 1) = 10 * 10 ^ d := Nat.pow_succ'
    have hhigh : (10 ^ (d + 1) + f) / 10 = 10 ^ d + f / 10 := by omega
    have hlow : (10 ^ (d + 1) + f) % 10 = f % 10 := by omega
    obtain ⟨ds, hds, hlen, hdig, hval⟩ := ih (f := f / 10) (by omega)
    refine ⟨ds ++ [Nat.digitChar (f % 10)], ?_, ?_, ?_, ?_⟩
    · have hbig : 10 ≤ 10 ^ (d + 1) + f := by
        have : 1 ≤ 10 ^ d := Nat.one_le_pow _ _ (by decide)
        omega
      rw [Nat.toDigits_of_base_le (by decide) hbig, hhigh, hlow, hds, List.cons_append]
    · simp [hlen]
    · intro c hc
      rcases List.mem_append.mp hc with hc | hc
      · exact hdig c hc
      · rw [List.mem_singleton.mp hc, Nat.isDigit_digitChar, decide_eq_true_eq]
        exact Nat.mod_lt _ (by decide)
    · rw [Nat.ofDigitChars_append, hval, Nat.ofDigitChars_cons, Nat.ofDigitChars_nil,
        digitChar_toNat_sub (Nat.mod_lt _ (by decide))]
      omega

end Text
