import Mathlib

/-!
# IEEE 754 binary formats

A binary interchange format has a sign bit, `e` bits of biased exponent and `m` bits of fraction,
in a word of `1 + e + m` bits read as a natural number. This module gives such a word its value in
the extended reals (`value`): the infinities at the largest exponent field, subnormal numbers
below exponent field one, and the NaNs (`isNaN`) left without a value of their own.

* `finiteValue_strictMono`: the value of a magnitude grows with the magnitude, across the binades
  and from the subnormals into the normal numbers; this is what makes the bit patterns of the
  non-negative numbers sort as their values.
* `magnitude_le_infMagnitude`: a word that is not a NaN has a magnitude at most that of infinity.
* `lt_cases`: if one word that is not a NaN is worth less than another, then either both are
  positive and the first has the smaller magnitude, or both are negative and the first has the
  larger one, or the first is negative and the second positive and not both are zero.
-/

namespace BinaryFloat

/-- The widths of a binary format: `e` exponent bits, at least one, and `m` fraction bits. -/
structure Format where
  e : ℕ
  m : ℕ
  e_pos : 0 < e

namespace Format

variable (f : Format)

/-- The exponent bias, `2 ^ (e - 1) - 1`. -/
def bias : ℤ := 2 ^ (f.e - 1) - 1

/-- The bits of a word below the sign bit. -/
def magnitude (x : ℕ) : ℕ := x % 2 ^ (f.e + f.m)

/-- The sign bit of a word of `1 + e + m` bits. -/
def negative (x : ℕ) : Prop := 2 ^ (f.e + f.m) ≤ x

instance instDecidableNegative (x : ℕ) : Decidable (f.negative x) :=
  inferInstanceAs (Decidable (_ ≤ _))

/-- The biased exponent field of a magnitude. -/
def exponentField (n : ℕ) : ℕ := n / 2 ^ f.m

/-- The fraction field of a magnitude. -/
def fractionField (n : ℕ) : ℕ := n % 2 ^ f.m

/-- The magnitude of the infinities: every exponent bit set and no fraction. -/
def infMagnitude : ℕ := (2 ^ f.e - 1) * 2 ^ f.m

/-- A NaN has every exponent bit set and a fraction. -/
def isNaN (x : ℕ) : Prop :=
  f.exponentField (f.magnitude x) = 2 ^ f.e - 1 ∧ f.fractionField (f.magnitude x) ≠ 0

instance instDecidableIsNaN (x : ℕ) : Decidable (f.isNaN x) :=
  inferInstanceAs (Decidable (_ ∧ _))

/-- The value of a finite magnitude: a subnormal number at exponent field zero, with the
exponent of field one and no hidden bit, and a normal number above it. -/
def finiteValue (n : ℕ) : ℚ :=
  if f.exponentField n = 0 then (f.fractionField n : ℚ) * 2 ^ (1 - f.bias - f.m)
  else (2 ^ f.m + f.fractionField n : ℚ) * 2 ^ ((f.exponentField n : ℤ) - f.bias - f.m)

/-- The value of a magnitude under a positive sign: infinity from `infMagnitude` on. -/
noncomputable def positiveValue (n : ℕ) : EReal :=
  if f.infMagnitude ≤ n then ⊤ else ((f.finiteValue n : ℝ) : EReal)

/-- The value of a word; a negative word is worth the opposite of its magnitude. -/
noncomputable def value (x : ℕ) : EReal :=
  if f.negative x then -f.positiveValue (f.magnitude x) else f.positiveValue (f.magnitude x)

/-- IEEE 754 binary64. -/
def binary64 : Format := ⟨11, 52, by decide⟩

/-- IEEE 754 binary128. -/
def binary128 : Format := ⟨15, 112, by decide⟩

/-! ### Magnitudes -/

theorem magnitude_lt (x : ℕ) : f.magnitude x < 2 ^ (f.e + f.m) :=
  Nat.mod_lt _ (Nat.two_pow_pos _)

theorem magnitude_of_not_negative {x : ℕ} (h : ¬ f.negative x) : f.magnitude x = x :=
  Nat.mod_eq_of_lt (Nat.lt_of_not_le h)

/-- A negative word of `1 + e + m` bits has its sign bit taken off. -/
theorem magnitude_of_negative {x : ℕ} (hx : x < 2 ^ (1 + f.e + f.m)) (h : f.negative x) :
    f.magnitude x = x - 2 ^ (f.e + f.m) := by
  have hwidth : 2 ^ (1 + f.e + f.m) = 2 * 2 ^ (f.e + f.m) := by
    rw [Nat.add_assoc, Nat.pow_add, Nat.pow_one]
  rw [magnitude, Nat.mod_eq_sub_mod h, Nat.mod_eq_of_lt (by omega)]

/-- A word that is not a NaN has a magnitude at most that of infinity. -/
theorem magnitude_le_infMagnitude {x : ℕ} (hx : ¬ f.isNaN x) : f.magnitude x ≤ f.infMagnitude := by
  have hP : 0 < 2 ^ f.m := Nat.two_pow_pos _
  have hE : f.exponentField (f.magnitude x) < 2 ^ f.e := by
    rw [exponentField, Nat.div_lt_iff_lt_mul hP, ← Nat.pow_add]
    exact f.magnitude_lt x
  have hsplit := Nat.div_add_mod (f.magnitude x) (2 ^ f.m)
  by_cases htop : f.exponentField (f.magnitude x) = 2 ^ f.e - 1
  · -- at the top exponent only infinity itself is not a NaN
    have hfrac : f.fractionField (f.magnitude x) = 0 := by
      by_contra hne
      exact hx ⟨htop, hne⟩
    rw [exponentField] at htop
    rw [fractionField] at hfrac
    rw [infMagnitude, ← htop, Nat.mul_comm]
    omega
  · have hbelow : f.exponentField (f.magnitude x) < 2 ^ f.e - 1 := by omega
    rw [exponentField, Nat.div_lt_iff_lt_mul hP] at hbelow
    exact hbelow.le

/-! ### Values of magnitudes -/

/-- Where the magnitude after `n` lands: in the same binade with one more unit of fraction, or,
at the top of a binade, at the start of the next. -/
theorem fields_succ_of_lt {n : ℕ} (h : f.fractionField n + 1 < 2 ^ f.m) :
    f.exponentField (n + 1) = f.exponentField n ∧
      f.fractionField (n + 1) = f.fractionField n + 1 := by
  unfold exponentField fractionField at *
  have hsplit := Nat.div_add_mod n (2 ^ f.m)
  exact (Nat.div_mod_unique (Nat.two_pow_pos _)).mpr ⟨by omega, h⟩

theorem fields_succ_of_eq {n : ℕ} (h : f.fractionField n + 1 = 2 ^ f.m) :
    f.exponentField (n + 1) = f.exponentField n + 1 ∧ f.fractionField (n + 1) = 0 := by
  unfold exponentField fractionField at *
  have hsplit := Nat.div_add_mod n (2 ^ f.m)
  have hP : 0 < 2 ^ f.m := Nat.two_pow_pos _
  refine (Nat.div_mod_unique hP).mpr ⟨?_, hP⟩
  rw [Nat.mul_add, Nat.mul_one]
  omega

/-- **One more unit is worth more.** Within a binade the fraction grows by one; at the top of a
binade the value of the next one starts at the same scale times two, above every fraction of
this one (and from the subnormals, the first normal number continues their spacing). -/
theorem finiteValue_lt_succ (n : ℕ) : f.finiteValue n < f.finiteValue (n + 1) := by
  have hF : f.fractionField n < 2 ^ f.m := Nat.mod_lt _ (Nat.two_pow_pos _)
  rcases Nat.lt_or_ge (f.fractionField n + 1) (2 ^ f.m) with hcarry | hcarry
  · -- the same binade
    obtain ⟨hexp, hfrac⟩ := f.fields_succ_of_lt hcarry
    unfold finiteValue
    rw [hexp, hfrac]
    split
    · exact mul_lt_mul_of_pos_right (by push_cast; linarith) (zpow_pos two_pos _)
    · exact mul_lt_mul_of_pos_right (by push_cast; linarith) (zpow_pos two_pos _)
  · -- the carry into the next binade
    obtain ⟨hexp, hfrac⟩ := f.fields_succ_of_eq (by omega : f.fractionField n + 1 = 2 ^ f.m)
    have hlast : (f.fractionField n : ℚ) + 1 = 2 ^ f.m := by
      exact_mod_cast (by omega : f.fractionField n + 1 = 2 ^ f.m)
    unfold finiteValue
    rw [hexp, hfrac, if_neg (Nat.succ_ne_zero _)]
    push_cast
    split
    · -- the largest subnormal number and the smallest normal one, at one scale
      rename_i hzero
      rw [hzero, Nat.cast_zero, zero_add, add_zero]
      exact mul_lt_mul_of_pos_right (by linarith) (zpow_pos two_pos _)
    · -- the top of a normal binade and the bottom of the next, at twice the scale
      have hscale : (2 : ℚ) ^ ((f.exponentField n : ℤ) + 1 - f.bias - f.m) =
          2 ^ ((f.exponentField n : ℤ) - f.bias - f.m) * 2 := by
        rw [show (f.exponentField n : ℤ) + 1 - f.bias - f.m =
          (f.exponentField n - f.bias - f.m) + 1 by ring, zpow_add_one₀ two_ne_zero]
      have hs : (0 : ℚ) < 2 ^ ((f.exponentField n : ℤ) - f.bias - f.m) := zpow_pos two_pos _
      calc (2 ^ f.m + (f.fractionField n : ℚ)) * 2 ^ ((f.exponentField n : ℤ) - f.bias - f.m)
          < (2 * 2 ^ f.m) * 2 ^ ((f.exponentField n : ℤ) - f.bias - f.m) :=
            mul_lt_mul_of_pos_right (by linarith) hs
        _ = (2 ^ f.m + 0) * 2 ^ ((f.exponentField n : ℤ) + 1 - f.bias - f.m) := by
            rw [hscale, add_zero]
            ring

theorem finiteValue_strictMono : StrictMono f.finiteValue :=
  strictMono_nat_of_lt_succ f.finiteValue_lt_succ

theorem finiteValue_zero : f.finiteValue 0 = 0 := by
  simp [finiteValue, exponentField, fractionField]

theorem finiteValue_nonneg (n : ℕ) : 0 ≤ f.finiteValue n := by
  rw [← f.finiteValue_zero]
  exact f.finiteValue_strictMono.monotone (Nat.zero_le n)

/-- Under a positive sign, magnitudes up to that of infinity are worth more as they grow. -/
theorem positiveValue_strictMonoOn : StrictMonoOn f.positiveValue (Set.Iic f.infMagnitude) := by
  intro a ha b hb hab
  have ha' : ¬ f.infMagnitude ≤ a := by
    have : b ≤ f.infMagnitude := hb
    omega
  rw [positiveValue, if_neg ha']
  unfold positiveValue
  split
  · exact EReal.coe_lt_top _
  · exact EReal.coe_lt_coe_iff.mpr (Rat.cast_lt.mpr (f.finiteValue_strictMono hab))

theorem positiveValue_nonneg (n : ℕ) : 0 ≤ f.positiveValue n := by
  unfold positiveValue
  split
  · exact le_top
  · exact EReal.coe_nonneg.mpr (Rat.cast_nonneg.mpr (f.finiteValue_nonneg n))

theorem infMagnitude_pos : 0 < f.infMagnitude := by
  have he : 2 ≤ 2 ^ f.e := by
    calc 2 = 2 ^ 1 := rfl
      _ ≤ 2 ^ f.e := Nat.pow_le_pow_right two_pos f.e_pos
  exact Nat.mul_pos (by omega) (Nat.two_pow_pos _)

/-- Both zeros are worth zero. -/
theorem positiveValue_zero : f.positiveValue 0 = 0 := by
  rw [positiveValue, if_neg (Nat.not_le.mpr f.infMagnitude_pos), f.finiteValue_zero,
    Rat.cast_zero, EReal.coe_zero]

/-! ### Order of values -/

/-- **The order of two values from their signs and magnitudes.** -/
theorem lt_cases {x y : ℕ} (hx : ¬ f.isNaN x) (hy : ¬ f.isNaN y) (h : f.value x < f.value y) :
    (¬ f.negative x ∧ ¬ f.negative y ∧ f.magnitude x < f.magnitude y) ∨
      (f.negative x ∧ f.negative y ∧ f.magnitude y < f.magnitude x) ∨
      (f.negative x ∧ ¬ f.negative y ∧ (f.magnitude x ≠ 0 ∨ f.magnitude y ≠ 0)) := by
  have hmono := f.positiveValue_strictMonoOn
  have hxs : f.magnitude x ∈ Set.Iic f.infMagnitude := f.magnitude_le_infMagnitude hx
  have hys : f.magnitude y ∈ Set.Iic f.infMagnitude := f.magnitude_le_infMagnitude hy
  unfold value at h
  by_cases hnx : f.negative x <;> by_cases hny : f.negative y
  · -- both negative: the larger magnitude is worth less
    rw [if_pos hnx, if_pos hny, EReal.neg_lt_neg_iff, hmono.lt_iff_lt hys hxs] at h
    exact .inr (.inl ⟨hnx, hny, h⟩)
  · -- negative against positive: only the two zeros are equal
    refine .inr (.inr ⟨hnx, hny, ?_⟩)
    by_contra hzero
    have hmx : f.magnitude x = 0 := not_not.mp (not_or.mp hzero).1
    have hmy : f.magnitude y = 0 := not_not.mp (not_or.mp hzero).2
    rw [if_pos hnx, if_neg hny, hmx, hmy, f.positiveValue_zero, neg_zero] at h
    exact lt_irrefl _ h
  · -- positive against negative: never less
    rw [if_neg hnx, if_pos hny] at h
    have h1 := f.positiveValue_nonneg (f.magnitude x)
    have h2 := f.positiveValue_nonneg (f.magnitude y)
    have : -f.positiveValue (f.magnitude y) ≤ 0 := by simpa using h2
    exact absurd (h.trans_le this) (not_lt.mpr h1)
  · -- both positive
    rw [if_neg hnx, if_neg hny, hmono.lt_iff_lt hxs hys] at h
    exact .inl ⟨hnx, hny, h⟩

end Format

end BinaryFloat
