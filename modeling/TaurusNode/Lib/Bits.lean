import Mathlib

/-!
# Bit length, highest set bit and powers of two

Facts about the binary expansion of natural numbers that bit-twiddling code
relies on, stated with `Nat.size` (the number of bits) as the measure:

* `smear j x` ORs `x` with its right shifts by `1, 2, 4, …, 2 ^ (j - 1)`, the
  classical way of setting every bit below the highest set one. `smear_eq`
  says that on a number of at most `2 ^ j` bits the result is
  `2 ^ x.size - 1`; `testBit_smear` is the bit-level statement behind it.
* `size_eq_size_div_two_add_one` is the recursion of the bit length along the
  halving `x ↦ x / 2`, which is what a loop that shifts an index right once per
  iteration follows.
* `isPowerOfTwo_two_mul_iff` and `not_isPowerOfTwo_of_odd` decide
  `Nat.isPowerOfTwo` along the same halving.
* `UInt64.toNat_and_mask`, `UInt64.toNat_shiftRight_of_lt` and
  `UInt64.toNat_or_shiftLeft` read fields packed into a word as `%`, `/` and `+`;
  `digitsAppend_succ` is the step of unpacking a word into Mathlib's fixed-width digits.
* `xor_two_pow_of_lt` and `xor_two_pow_of_le` read flipping the top bit of a word as adding or
  subtracting `2 ^ k`; `and_one_shiftLeft_pred_eq_zero_iff` tests that bit on a `BitVec`.
-/

namespace Bits

/-! ### The bit length -/

theorem size_eq_log2_add_one {x : ℕ} (hx : x ≠ 0) : x.size = x.log2 + 1 := by
  apply Nat.le_antisymm
  · rw [Nat.size_le]
    exact Nat.lt_log2_self
  · rw [Nat.succ_le_iff, Nat.lt_size]
    exact Nat.log2_self_le hx

/-- The highest set bit of a nonzero number sits at position `size - 1`. -/
theorem testBit_size_sub_one {x : ℕ} (hx : x ≠ 0) : x.testBit (x.size - 1) = true := by
  rw [size_eq_log2_add_one hx, Nat.add_sub_cancel]
  exact Nat.testBit_log2 hx

/-- No bit is set at or above the bit length. -/
theorem testBit_of_size_le {x i : ℕ} (h : x.size ≤ i) : x.testBit i = false :=
  Nat.testBit_lt_two_pow (Nat.lt_of_lt_of_le (Nat.lt_size_self x) (Nat.pow_le_pow_right Nat.zero_lt_two h))

/-- Halving removes exactly one bit from a nonzero number. -/
theorem size_eq_size_div_two_add_one {x : ℕ} (hx : x ≠ 0) : x.size = (x / 2).size + 1 := by
  have hstep : ∀ k, x.size ≤ k + 1 ↔ (x / 2).size ≤ k := by
    intro k
    rw [Nat.size_le, Nat.size_le, Nat.pow_succ]
    omega
  have hpos : 0 < x.size := Nat.size_pos.mpr (Nat.pos_of_ne_zero hx)
  apply Nat.le_antisymm
  · exact (hstep _).mpr (Nat.le_refl _)
  · obtain ⟨k, hk⟩ : ∃ k, x.size = k + 1 := ⟨x.size - 1, by omega⟩
    have := (hstep k).mp (Nat.le_of_eq hk)
    omega

/-! ### Smearing the highest set bit downwards -/

/-- OR `x` with its right shifts by `1, 2, 4, …, 2 ^ (j - 1)`. -/
def smear : ℕ → ℕ → ℕ
  | 0, x => x
  | j + 1, x => smear j x ||| smear j x >>> 2 ^ j

/-- Bit `i` of `smear j x` is set iff one of the `2 ^ j` bits of `x` from
position `i` upwards is set. -/
theorem testBit_smear (j x : ℕ) :
    ∀ i, (smear j x).testBit i = true ↔ ∃ t < 2 ^ j, x.testBit (i + t) = true := by
  induction j with
  | zero =>
    intro i
    simp only [smear, Nat.pow_zero]
    constructor
    · intro h
      exact ⟨0, Nat.one_pos, h⟩
    · rintro ⟨t, ht, h⟩
      rwa [show t = 0 by omega] at h
  | succ j ih =>
    intro i
    simp only [smear, Nat.testBit_or, Nat.testBit_shiftRight, Bool.or_eq_true, ih, Nat.pow_succ]
    constructor
    · rintro (⟨t, ht, h⟩ | ⟨t, ht, h⟩)
      · exact ⟨t, by omega, h⟩
      · refine ⟨2 ^ j + t, by omega, ?_⟩
        rwa [show i + (2 ^ j + t) = 2 ^ j + i + t by omega]
    · rintro ⟨t, ht, h⟩
      by_cases htj : t < 2 ^ j
      · exact Or.inl ⟨t, htj, h⟩
      · refine Or.inr ⟨t - 2 ^ j, by omega, ?_⟩
        rwa [show 2 ^ j + i + (t - 2 ^ j) = i + t by omega]

/-- On a number of at most `2 ^ j` bits, smearing sets exactly the bits below
the bit length. -/
theorem smear_eq {j x : ℕ} (hx : x < 2 ^ 2 ^ j) : smear j x = 2 ^ x.size - 1 := by
  have hsize : x.size ≤ 2 ^ j := Nat.size_le.mpr hx
  apply Nat.eq_of_testBit_eq
  intro i
  rw [Nat.testBit_two_pow_sub_one, Bool.eq_iff_iff, testBit_smear, decide_eq_true_iff]
  constructor
  · rintro ⟨t, -, h⟩
    rcases Nat.lt_or_ge i x.size with hi | hi
    · exact hi
    · rw [testBit_of_size_le (by omega)] at h
      exact absurd h Bool.false_ne_true
  · intro hi
    have hx0 : x ≠ 0 := by
      rintro rfl
      simp at hi
    refine ⟨x.size - 1 - i, by omega, ?_⟩
    rw [show i + (x.size - 1 - i) = x.size - 1 by omega]
    exact testBit_size_sub_one hx0

/-! ### Powers of two along the halving -/

theorem isPowerOfTwo_two_mul_iff {m : ℕ} :
    (2 * m).isPowerOfTwo ↔ m.isPowerOfTwo := by
  constructor
  · rintro ⟨k, hk⟩
    cases k with
    | zero => omega
    | succ k => exact ⟨k, by rw [Nat.pow_succ] at hk; omega⟩
  · rintro ⟨k, hk⟩
    exact ⟨k + 1, by rw [Nat.pow_succ, hk, Nat.mul_comm]⟩

theorem not_isPowerOfTwo_of_odd {n : ℕ} (h1 : 1 < n) (hodd : n % 2 = 1) :
    ¬ n.isPowerOfTwo := by
  rintro ⟨k, rfl⟩
  cases k with
  | zero => simp at h1
  | succ k => rw [Nat.pow_succ] at hodd; omega

/-! ### Machine words -/

theorem UInt64.and_one_eq_zero_iff (x : UInt64) : x &&& 1 = 0 ↔ x.toNat % 2 = 0 := by
  rw [← UInt64.toNat_inj, UInt64.toNat_and]
  simp [Nat.and_one_is_mod]

theorem UInt64.toNat_shiftRight_one (x : UInt64) : (x >>> 1).toNat = x.toNat / 2 := by
  rw [UInt64.toNat_shiftRight]
  simp [Nat.shiftRight_eq_div_pow]

/-! Fields packed into a word: a mask keeps the low bits, a shift right divides, and an OR of a
field shifted above the bits already there adds it. -/

theorem UInt64.toNat_and_mask (x m : UInt64) (w : ℕ) (hm : m.toNat = 2 ^ w - 1) :
    (x &&& m).toNat = x.toNat % 2 ^ w := by
  rw [UInt64.toNat_and, hm, Nat.and_two_pow_sub_one_eq_mod]

theorem UInt64.toNat_shiftRight_of_lt (x s : UInt64) (hs : s.toNat < 64) :
    (x >>> s).toNat = x.toNat / 2 ^ s.toNat := by
  rw [UInt64.toNat_shiftRight, Nat.shiftRight_eq_div_pow, Nat.mod_eq_of_lt hs]

theorem UInt64.toNat_or_shiftLeft {n s : UInt64} {k : ℕ} (hk : k < 64) (hn : n.toNat < 2 ^ k)
    (hs : s.toNat * 2 ^ k < 2 ^ 64) :
    (n ||| s <<< k.toUInt64).toNat = n.toNat + s.toNat * 2 ^ k := by
  have hshift : (s <<< k.toUInt64).toNat = s.toNat * 2 ^ k := by
    rw [UInt64.toNat_shiftLeft, Nat.shiftLeft_eq, Nat.toUInt64_eq, UInt64.toNat_ofNat',
      Nat.mod_eq_of_lt (by omega : k < 2 ^ 64), Nat.mod_eq_of_lt hk, Nat.mod_eq_of_lt hs]
  -- the field sits above every bit of `n`, so the OR adds
  rw [UInt64.toNat_or, hshift, Nat.mul_comm, Nat.add_comm, Nat.two_pow_add_eq_or_of_lt hn,
    Nat.lor_comm]

/-- Read from the low end, the fixed-width digits of a number are its last digit, then those of
the rest: what a loop that masks and shifts a word field by field produces. -/
theorem digitsAppend_succ {b : ℕ} (hb : 1 < b) (l n : ℕ) :
    Nat.digitsAppend b (l + 1) n = n % b :: Nat.digitsAppend b l (n / b) := by
  rcases Nat.eq_zero_or_pos n with rfl | hn
  · simp [Nat.digitsAppend, List.replicate_succ]
  · rw [Nat.digitsAppend, Nat.digits_def' hb hn, Nat.digitsAppend, List.length_cons,
      List.cons_append, Nat.add_sub_add_right]

/-! Setting and testing the top bit of a word. -/

/-- Below `2 ^ k`, setting bit `k` by exclusive or adds `2 ^ k`. -/
theorem xor_two_pow_of_lt {a k : ℕ} (h : a < 2 ^ k) : a ^^^ 2 ^ k = a + 2 ^ k := by
  apply Nat.eq_of_testBit_eq
  intro i
  rw [Nat.testBit_xor, Nat.testBit_two_pow, Nat.add_comm]
  rcases lt_trichotomy i k with hi | rfl | hi
  · rw [Nat.testBit_two_pow_add_gt hi, decide_eq_false (Nat.ne_of_gt hi), Bool.xor_false]
  · rw [Nat.testBit_two_pow_add_eq, Nat.testBit_lt_two_pow h]
    simp
  · -- above bit `k` neither side has a bit set
    have hsum : 2 ^ k + a < 2 ^ i := by
      calc 2 ^ k + a < 2 ^ k + 2 ^ k := by omega
        _ = 2 ^ (k + 1) := by rw [Nat.pow_succ]; omega
        _ ≤ 2 ^ i := Nat.pow_le_pow_right two_pos hi
    have ha : a < 2 ^ i := by omega
    rw [Nat.testBit_lt_two_pow hsum, Nat.testBit_lt_two_pow ha, decide_eq_false (Nat.ne_of_lt hi)]
    rfl

/-- From `2 ^ k` up to `2 ^ (k + 1)`, clearing bit `k` by exclusive or subtracts `2 ^ k`. -/
theorem xor_two_pow_of_le {a k : ℕ} (h₁ : 2 ^ k ≤ a) (h₂ : a < 2 ^ (k + 1)) :
    a ^^^ 2 ^ k = a - 2 ^ k := by
  have hlow : a - 2 ^ k < 2 ^ k := by
    rw [Nat.pow_succ] at h₂
    omega
  have hsplit : a = (a - 2 ^ k) ^^^ 2 ^ k := by
    rw [xor_two_pow_of_lt hlow]
    omega
  calc a ^^^ 2 ^ k = (a - 2 ^ k) ^^^ (2 ^ k ^^^ 2 ^ k) := by
        rw [← Nat.xor_assoc, ← hsplit]
    _ = a - 2 ^ k := by rw [Nat.xor_self, Nat.xor_zero]

/-- The top bit of a word of `n` bits, `1 << (n - 1)`, is `2 ^ (n - 1)`. -/
theorem toNat_one_shiftLeft_pred {n : ℕ} (hn : 0 < n) : (1#n <<< (n - 1)).toNat = 2 ^ (n - 1) := by
  rw [← BitVec.twoPow_eq, BitVec.toNat_twoPow]
  exact Nat.mod_eq_of_lt (Nat.pow_lt_pow_right (by decide) (by omega))

/-- A word has its top bit clear exactly when it is below `2 ^ (n - 1)`. -/
theorem and_one_shiftLeft_pred_eq_zero_iff {n : ℕ} (hn : 0 < n) (x : BitVec n) :
    x &&& 1#n <<< (n - 1) = 0 ↔ x.toNat < 2 ^ (n - 1) := by
  rw [BitVec.toNat_eq, BitVec.toNat_and, toNat_one_shiftLeft_pred hn, Nat.and_two_pow,
    show (0 : BitVec n).toNat = 0 from BitVec.toNat_zero, BitVec.testBit_toNat,
    ← BitVec.msb_eq_getLsbD_last, BitVec.msb_eq_decide]
  by_cases h : 2 ^ (n - 1) ≤ x.toNat
  · simp [h]
  · simp [h]
    omega

end Bits
