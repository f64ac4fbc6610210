import Mathlib
import TaurusNode.Lib.Fallible

/-!
# The usage accumulators of the resource limits

A model of `exponential_moving_average_accumulator` and `exponential_decay_accumulator`, with
the helpers they use: `ratio` and its `operator*`, `integer_divide_ceil` and `downgrade_cast`
(libraries/chain/include/eosio/chain/resource_limits_private.hpp).

The fields are the source's fixed-width words, and their arithmetic wraps as C++'s does; the
128-bit intermediate values are naturals, reduced modulo `2 ^ 128` where a product could leave
the type. `add` updates the accumulator in place and may throw part way through, so it is a
computation of `EStateM`, whose throw returns the accumulator as the writes before it left it.

What `add` is meant to compute is stated over the naturals (`ExactAverage.add`,
`ExactDecay.add`). Both accumulators are atomic and exact:

* a throwing `add` leaves the accumulator as it was (`add_error`), since every check comes
  before the first write;
* a moving average whose `consumed` is at least its `average()` adds exactly, every field equal
  to its exact value (`add_exact`), and keeps `consumed` at least `average()`
  (`average_le_consumed_add`); every state `add` reaches from the default is such a state
  (`Reachable.average_le_consumed`);
* the decaying accumulator adds exactly from every state, saturating at `UINT64_MAX`
  (`ExponentialDecayAccumulator.add_exact`).
-/

namespace Eosio.Chain

open Fallible

/-- How the accumulators throw. -/
inductive AccumulatorError
  /-- `rate_limiting_state_inconsistent`, with its message. -/
  | rateLimitingStateInconsistent (msg : String)
  /-- `resource_limit_exception`, with its message. -/
  | resourceLimitException (msg : String)
deriving DecidableEq, Repr

/-! ### The helpers -/

/-- `ratio<T>`, of the unsigned values of `T` as naturals. -/
structure Ratio where
  numerator : ℕ
  denominator : ℕ
deriving DecidableEq, Repr

/-- `operator*(T value, const ratio<T>& r)` for the unsigned `T` of `bits` bits: the product is
checked to fit before it is taken. -/
def mulRatio (bits : ℕ) (value : ℕ) (r : Ratio) : Except AccumulatorError ℕ :=
  if r.numerator = 0 ∨ (2 ^ bits - 1) / r.numerator ≥ value then
    pure (value * r.numerator % 2 ^ bits / r.denominator)
  else throw (.rateLimitingStateInconsistent
    "Usage exceeds maximum value representable after extending for precision")

/-- `integer_divide_ceil(num, den)`, for any unsigned type. -/
def integerDivideCeil {α : Type} [Div α] [Mod α] [Add α] [LT α] [DecidableLT α] [OfNat α 0]
    [OfNat α 1] (num den : α) : α :=
  num / den + if 0 < num % den then 1 else 0

/-- `downgrade_cast<LesserIntType>(val)` of an unsigned 128-bit value, to a type whose greatest
value is `max`. -/
def downgradeCast (max : ℕ) (val : ℕ) : Except AccumulatorError ℕ :=
  if val ≤ max then pure val
  else throw (.rateLimitingStateInconsistent
    "Casting a higher bit integer value \x7bv\x7d to a lower bit integer value which cannot contain the value, valid range is [\x7bmin\x7d, \x7bmax\x7d]")

/-- `max_raw_value` of both accumulators: the most units that `Precision` times still fits. -/
def maxRawValue (precision : UInt64) : UInt64 := 0xFFFFFFFFFFFFFFFF / precision

section Helpers

variable {n d m : ℕ}

theorem le_integerDivideCeil_mul (hd : 0 < d) : n ≤ integerDivideCeil n d * d := by
  unfold integerDivideCeil
  split
  · -- a remainder is left, so the quotient is one short
    have h := Nat.lt_mul_div_succ n hd
    rw [Nat.mul_comm] at h
    exact h.le
  · next hr =>
    have hdvd : d ∣ n := Nat.dvd_of_mod_eq_zero (Nat.eq_zero_of_not_pos hr)
    rw [Nat.add_zero, Nat.div_mul_cancel hdvd]

theorem integerDivideCeil_mul_lt (hd : 0 < d) : integerDivideCeil n d * d < n + d := by
  have hdiv := Nat.div_add_mod' n d
  unfold integerDivideCeil
  split
  · next hr =>
    rw [Nat.add_mul, Nat.one_mul]
    omega
  · rw [Nat.add_zero]
    omega

/-- The ceiling is the least multiple count that reaches `n`. -/
theorem integerDivideCeil_le_iff (hd : 0 < d) : integerDivideCeil n d ≤ m ↔ n ≤ m * d := by
  constructor
  · intro h
    exact (le_integerDivideCeil_mul hd).trans (Nat.mul_le_mul_right d h)
  · intro h
    have hlt : integerDivideCeil n d * d < (m + 1) * d := by
      rw [Nat.add_mul, Nat.one_mul]
      exact (integerDivideCeil_mul_lt hd).trans_le (Nat.add_le_add_right h d)
    exact Nat.le_of_lt_succ (Nat.lt_of_mul_lt_mul_right hlt)

theorem integerDivideCeil_mono (hd : 0 < d) {n' : ℕ} (h : n ≤ n') :
    integerDivideCeil n d ≤ integerDivideCeil n' d :=
  (integerDivideCeil_le_iff hd).mpr (h.trans (le_integerDivideCeil_mul hd))

/-- Rounding a sum up costs at most the two roundings up. -/
theorem integerDivideCeil_add_le (hd : 0 < d) {n' : ℕ} :
    integerDivideCeil (n + n') d ≤ integerDivideCeil n d + integerDivideCeil n' d := by
  rw [integerDivideCeil_le_iff hd, Nat.add_mul]
  exact Nat.add_le_add (le_integerDivideCeil_mul hd) (le_integerDivideCeil_mul hd)

/-- `integer_divide_ceil` over 64-bit words does not wrap: its `+ 1` only comes with a divisor of
at least two. -/
theorem toNat_integerDivideCeil {a b : UInt64} (hb : 0 < b) :
    (integerDivideCeil a b).toNat = integerDivideCeil a.toNat b.toNat := by
  have hb' : 0 < b.toNat := UInt64.lt_iff_toNat_lt.mp hb
  have ha : a.toNat < 2 ^ 64 := a.toNat_lt
  have hmod : (0 < a % b) ↔ 0 < a.toNat % b.toNat := by
    rw [UInt64.lt_iff_toNat_lt, UInt64.toNat_mod, UInt64.toNat_zero]
  unfold integerDivideCeil
  rw [UInt64.toNat_add, UInt64.toNat_div]
  by_cases hr : 0 < a.toNat % b.toNat
  · -- a remainder needs a divisor of two or more, which halves the quotient
    rw [if_pos (hmod.mpr hr), if_pos hr, UInt64.toNat_one]
    have h2 : 2 ≤ b.toNat := by
      rcases Nat.lt_or_ge b.toNat 2 with h | h
      · have hb1 : b.toNat = 1 := by omega
        rw [hb1, Nat.mod_one] at hr
        exact absurd hr (lt_irrefl 0)
      · exact h
    have hq : a.toNat / b.toNat ≤ a.toNat / 2 := Nat.div_le_div_left h2 (by omega)
    apply Nat.mod_eq_of_lt
    omega
  · rw [if_neg (fun h => hr (hmod.mp h)), if_neg hr, UInt64.toNat_zero, Nat.add_zero]
    exact Nat.mod_eq_of_lt ((Nat.div_le_self _ _).trans_lt ha)

theorem mulRatio_eq_ok {bits value x : ℕ} {r : Ratio} :
    mulRatio bits value r = .ok x ↔
      (r.numerator = 0 ∨ value ≤ (2 ^ bits - 1) / r.numerator) ∧
        x = value * r.numerator / r.denominator := by
  unfold mulRatio
  split
  · next hfit =>
    -- the check keeps the product below `2 ^ bits`
    have hlt : value * r.numerator < 2 ^ bits := by
      rcases hfit with h0 | hle
      · rw [h0, Nat.mul_zero]
        exact Nat.two_pow_pos bits
      · rcases Nat.eq_zero_or_pos r.numerator with h0 | hpos
        · rw [h0, Nat.mul_zero]
          exact Nat.two_pow_pos bits
        · have := (Nat.le_div_iff_mul_le hpos).mp hle
          have := Nat.one_le_two_pow (n := bits)
          omega
    rw [Nat.mod_eq_of_lt hlt, pure_eq_ok]
    exact ⟨fun h => ⟨hfit, h.symm⟩, fun h => h.2.symm⟩
  · next hfit =>
    exact ⟨fun h => absurd h throw_ne_ok, fun h => absurd h.1 hfit⟩

/-- A ratio of at most one does not increase the value. -/
theorem le_of_mulRatio_eq_ok {bits value x : ℕ} {r : Ratio} (hr : r.numerator ≤ r.denominator)
    (h : mulRatio bits value r = .ok x) : x ≤ value := by
  obtain ⟨-, rfl⟩ := mulRatio_eq_ok.mp h
  apply Nat.div_le_of_le_mul
  rw [Nat.mul_comm r.denominator]
  exact Nat.mul_le_mul_left value hr

theorem downgradeCast_eq_ok {max val x : ℕ} : downgradeCast max val = .ok x ↔ val ≤ max ∧ x = val := by
  unfold downgradeCast
  split
  · next h =>
    rw [pure_eq_ok]
    exact ⟨fun hx => ⟨h, hx.symm⟩, fun hx => hx.2.symm⟩
  · next h =>
    exact ⟨fun hx => absurd hx throw_ne_ok, fun hx => absurd hx.1 h⟩

/-- A value capped at the maximum always casts. -/
theorem downgradeCast_min (max n : ℕ) : downgradeCast max (min n max) = .ok (min n max) :=
  downgradeCast_eq_ok.mpr ⟨min_le_right _ _, rfl⟩

/-- `std::numeric_limits<uint64_t>::max() - x >= y`: the check that `x + y` does not wrap. -/
theorem le_max_sub_iff {x y : UInt64} : 0xFFFFFFFFFFFFFFFF - x ≥ y ↔ x.toNat + y.toNat < 2 ^ 64 := by
  have hx := x.toNat_lt
  have hsub : (0xFFFFFFFFFFFFFFFF - x).toNat = 2 ^ 64 - 1 - x.toNat := by
    rw [UInt64.toNat_sub_of_le _ _ (UInt64.le_iff_toNat_le.mpr (by
      show x.toNat ≤ 2 ^ 64 - 1
      omega))]
    rfl
  rw [ge_iff_le, UInt64.le_iff_toNat_le, hsub]
  omega

theorem toNat_add_of_lt {x y : UInt64} (h : x.toNat + y.toNat < 2 ^ 64) :
    (x + y).toNat = x.toNat + y.toNat := by
  rw [UInt64.toNat_add, Nat.mod_eq_of_lt h]

theorem toNat_ofNat_of_lt {n : ℕ} (h : n < 2 ^ 64) : (UInt64.ofNat n).toNat = n := by
  rw [UInt64.toNat_ofNat', Nat.mod_eq_of_lt h]

end Helpers

/-! ### The moving average -/

/-- `exponential_moving_average_accumulator`. -/
structure ExponentialMovingAverageAccumulator where
  /-- The ordinal of the last period which has contributed to the average. -/
  lastOrdinal : UInt32
  /-- The current average pre-multiplied by `Precision`. -/
  valueEx : UInt64
  /-- The last period's average plus the current period's contribution so far. -/
  consumed : UInt64
deriving DecidableEq, Repr

/-- The moving average over unbounded naturals: the accumulator as `add` is meant to compute
it, with no field wrapping. -/
structure ExactAverage where
  lastOrdinal : ℕ
  valueEx : ℕ
  consumed : ℕ
deriving DecidableEq, Repr

/-- One exact `add`: a new ordinal first decays `valueEx` by `(window - delta) / window`, or
clears it once the window has passed, and resets `consumed` to the decayed average. -/
def ExactAverage.add (precision : ℕ) (a : ExactAverage) (units ordinal windowSize : ℕ) :
    ExactAverage :=
  let contrib := integerDivideCeil (units * precision) windowSize
  if a.lastOrdinal = ordinal then ⟨a.lastOrdinal, a.valueEx + contrib, a.consumed + units⟩
  else
    let valueEx :=
      if ordinal < a.lastOrdinal + windowSize then
        a.valueEx * (windowSize - (ordinal - a.lastOrdinal)) / windowSize
      else 0
    ⟨ordinal, valueEx + contrib, integerDivideCeil valueEx precision + units⟩

/-- **The exact add keeps `consumed` at least the average**: the units cover their own rounded-up
contribution, and a new ordinal resets `consumed` to the average itself. -/
theorem ExactAverage.average_le_consumed_add {precision : ℕ} (hP : 0 < precision)
    {a : ExactAverage} (ha : integerDivideCeil a.valueEx precision ≤ a.consumed)
    (units ordinal : ℕ) {windowSize : ℕ} (hW : 0 < windowSize) :
    integerDivideCeil (a.add precision units ordinal windowSize).valueEx precision ≤
      (a.add precision units ordinal windowSize).consumed := by
  -- the contribution, rounded up at the precision, is at most the units
  have hcontrib : integerDivideCeil (integerDivideCeil (units * precision) windowSize) precision ≤
      units := by
    rw [integerDivideCeil_le_iff hP, integerDivideCeil_le_iff hW]
    exact Nat.le_mul_of_pos_right _ hW
  have hsum : ∀ v c, integerDivideCeil v precision ≤ c →
      integerDivideCeil (v + integerDivideCeil (units * precision) windowSize) precision ≤
        c + units := fun v c hvc =>
    (integerDivideCeil_add_le hP).trans (Nat.add_le_add hvc hcontrib)
  unfold ExactAverage.add
  split
  · exact hsum a.valueEx a.consumed ha
  · exact hsum _ _ le_rfl

namespace ExponentialMovingAverageAccumulator

variable (precision : UInt64)

/-- The default constructor. -/
def initial : ExponentialMovingAverageAccumulator := ⟨0, 0, 0⟩

/-- `average()`. -/
def average (a : ExponentialMovingAverageAccumulator) : UInt64 :=
  integerDivideCeil a.valueEx precision

/-- The fields as naturals. -/
def exact (a : ExponentialMovingAverageAccumulator) : ExactAverage :=
  ⟨a.lastOrdinal.toNat, a.valueEx.toNat, a.consumed.toNat⟩

/-- `add(units, ordinal, window_size)`. -/
def add (units : UInt64) (ordinal windowSize : UInt32) :
    EStateM AccumulatorError ExponentialMovingAverageAccumulator Unit := do
  let a ← get
  -- check for some numerical limits before doing any state mutations
  unless units ≤ maxRawValue precision do
    throw (.rateLimitingStateInconsistent
      "Usage exceeds maximum value representable after extending for precision")
  unless 0xFFFFFFFFFFFFFFFF - a.consumed ≥ units do
    throw (.rateLimitingStateInconsistent "Overflow in tracked usage when adding usage!")
  let valueExContrib := UInt64.ofNat (← liftExcept (downgradeCast 0xFFFFFFFFFFFFFFFF
    (integerDivideCeil (units.toNat * precision.toNat) windowSize.toNat)))
  unless 0xFFFFFFFFFFFFFFFF - a.valueEx ≥ valueExContrib do
    throw (.rateLimitingStateInconsistent "Overflow in accumulated value when adding usage!")
  if a.lastOrdinal ≠ ordinal then
    unless ordinal > a.lastOrdinal do
      throw (.resourceLimitException "new ordinal cannot be less than the previous ordinal")
    if a.lastOrdinal.toUInt64 + windowSize.toUInt64 > ordinal.toUInt64 then
      -- `0 < delta < window_size`, so the numerator does not wrap
      let delta := ordinal - a.lastOrdinal
      let decayed ← liftExcept (mulRatio 64 a.valueEx.toNat
        ⟨windowSize.toNat - delta.toNat, windowSize.toNat⟩)
      modify fun a => { a with valueEx := UInt64.ofNat decayed }
    else
      modify fun a => { a with valueEx := 0 }
    modify fun a => { a with lastOrdinal := ordinal }
    modify fun a => { a with consumed := average precision a }
  modify fun a => { a with consumed := a.consumed + units }
  modify fun a => { a with valueEx := a.valueEx + valueExContrib }

variable {precision} {a a' : ExponentialMovingAverageAccumulator} {units : UInt64}
  {ordinal windowSize : UInt32}

/-- **A throwing `add` leaves the accumulator as it was**: every check, and the multiplication
that may throw, comes before the first write. -/
theorem add_error {e : AccumulatorError}
    (h : (add precision units ordinal windowSize).run a = .error e a') : a' = a := by
  rw [add, run_bind_get] at h
  simp only [run_ite, run_bind_throw, run_bind_liftExcept, run_bind_modify, run_modify] at h
  -- each branch either returns `.ok`, or throws with the accumulator it was given
  repeat' split at h
  all_goals cases h <;> rfl

/-- The value a later ordinal leaves before the units go in: decayed by `operator*` while the
last ordinal is within the window, cleared after it. -/
def Decays (a : ExponentialMovingAverageAccumulator) (ordinal windowSize : UInt32) (v : UInt64) :
    Prop :=
  if a.lastOrdinal.toUInt64 + windowSize.toUInt64 > ordinal.toUInt64 then
    ∃ d, mulRatio 64 a.valueEx.toNat
        ⟨windowSize.toNat - (ordinal - a.lastOrdinal).toNat, windowSize.toNat⟩ = .ok d ∧
      v = UInt64.ofNat d
  else v = 0

/-- **What a successful `add` did**: its checks passed with the contribution `c`, and the units
went in at the last ordinal, or at a later one once the value had decayed to `v`. -/
theorem add_ok {x : Unit} (h : (add precision units ordinal windowSize).run a = .ok x a') :
    ∃ c, downgradeCast 0xFFFFFFFFFFFFFFFF
        (integerDivideCeil (units.toNat * precision.toNat) windowSize.toNat) = .ok c ∧
      units ≤ maxRawValue precision ∧ 0xFFFFFFFFFFFFFFFF - a.consumed ≥ units ∧
      0xFFFFFFFFFFFFFFFF - a.valueEx ≥ UInt64.ofNat c ∧
      ((a.lastOrdinal = ordinal ∧
          a' = ⟨a.lastOrdinal, a.valueEx + UInt64.ofNat c, a.consumed + units⟩) ∨
        (a.lastOrdinal < ordinal ∧ ∃ v, Decays a ordinal windowSize v ∧
          a' = ⟨ordinal, v + UInt64.ofNat c, average precision ⟨ordinal, v, a.consumed⟩ + units⟩)) := by
  rw [add, run_bind_get] at h
  simp only [run_ite, run_bind_throw, run_bind_liftExcept, run_bind_modify, run_modify] at h
  split at h
  · next hunits =>
    split at h
    · next hconsumed =>
      split at h
      · next _ c hc =>
        split at h
        · next hvalue =>
          refine ⟨c, hc, hunits, hconsumed, hvalue, ?_⟩
          split at h
          · next hne =>
            split at h
            · next hgt =>
              -- a later ordinal: the value decays, or is cleared, before the units go in
              refine .inr ⟨hgt, ?_⟩
              split at h
              · next hwin =>
                split at h
                · next _ d hd =>
                  cases h
                  exact ⟨_, by rw [Decays, if_pos hwin]; exact ⟨d, hd, rfl⟩, rfl⟩
                · cases h
              · next hwin =>
                cases h
                exact ⟨0, by rw [Decays, if_neg hwin], rfl⟩
            · cases h
          · next heq =>
            cases h
            exact .inl ⟨not_not.mp heq, rfl⟩
        · cases h
      · cases h
    · cases h
  · cases h

/-- A successful `add` leaves the accumulator at the ordinal it was given. -/
theorem add_lastOrdinal {x : Unit} (h : (add precision units ordinal windowSize).run a = .ok x a') :
    a'.lastOrdinal = ordinal := by
  obtain ⟨c, -, -, -, -, ⟨hsame, rfl⟩ | ⟨-, v, -, rfl⟩⟩ := add_ok h
  · exact hsame
  · rfl

/-- **At the last ordinal the contribution goes in whole**: the value grows by the units at the
precision, rounded up over the window, and the overflow check rules a wrap out. -/
theorem add_valueEx_of_lastOrdinal_eq (hord : a.lastOrdinal = ordinal) {x : Unit}
    (h : (add precision units ordinal windowSize).run a = .ok x a') :
    a'.valueEx.toNat =
      a.valueEx.toNat + integerDivideCeil (units.toNat * precision.toNat) windowSize.toNat := by
  obtain ⟨c, hc, -, -, hvalue, ⟨-, rfl⟩ | ⟨hlt, -⟩⟩ := add_ok h
  · obtain ⟨hcle, hceq⟩ := downgradeCast_eq_ok.mp hc
    have hc' : (UInt64.ofNat c).toNat = c := toNat_ofNat_of_lt (by omega)
    rw [le_max_sub_iff, hc'] at hvalue
    show (a.valueEx + UInt64.ofNat c).toNat = _
    rw [toNat_add_of_lt (by rw [hc']; exact hvalue), hc', hceq]
  · -- a later ordinal cannot be the last one
    exact absurd (hord ▸ hlt) (UInt32.lt_irrefl _)

theorem Decays.toNat_le {v : UInt64} (h : Decays a ordinal windowSize v) :
    v.toNat ≤ a.valueEx.toNat := by
  unfold Decays at h
  split at h
  · obtain ⟨d, hd, rfl⟩ := h
    have hle : d ≤ a.valueEx.toNat := le_of_mulRatio_eq_ok (Nat.sub_le _ _) hd
    rw [toNat_ofNat_of_lt (hle.trans_lt a.valueEx.toNat_lt)]
    exact hle
  · rw [h, UInt64.toNat_zero]
    exact Nat.zero_le _

/-- The decayed value is the exact one: the window test and `delta` do not wrap. -/
theorem Decays.toNat_eq {v : UInt64} (hlt : a.lastOrdinal < ordinal)
    (h : Decays a ordinal windowSize v) :
    v.toNat = if ordinal.toNat < a.lastOrdinal.toNat + windowSize.toNat then
      a.valueEx.toNat * (windowSize.toNat - (ordinal.toNat - a.lastOrdinal.toNat)) /
        windowSize.toNat
    else 0 := by
  have hwin : a.lastOrdinal.toUInt64 + windowSize.toUInt64 > ordinal.toUInt64 ↔
      ordinal.toNat < a.lastOrdinal.toNat + windowSize.toNat := by
    have := a.lastOrdinal.toNat_lt
    have := windowSize.toNat_lt
    rw [gt_iff_lt, UInt64.lt_iff_toNat_lt, UInt64.toNat_add, UInt32.toNat_toUInt64,
      UInt32.toNat_toUInt64, UInt32.toNat_toUInt64, Nat.mod_eq_of_lt (by omega)]
  have hdelta : (ordinal - a.lastOrdinal).toNat = ordinal.toNat - a.lastOrdinal.toNat :=
    UInt32.toNat_sub_of_le _ _ (UInt32.le_iff_toNat_le.mpr (UInt32.lt_iff_toNat_lt.mp hlt).le)
  unfold Decays at h
  split at h
  · next hw =>
    obtain ⟨d, hd, rfl⟩ := h
    obtain ⟨-, rfl⟩ := mulRatio_eq_ok.mp hd
    rw [if_pos (hwin.mp hw), ← hdelta]
    apply toNat_ofNat_of_lt
    exact (le_of_mulRatio_eq_ok (Nat.sub_le _ _) hd).trans_lt a.valueEx.toNat_lt
  · next hw =>
    rw [h, if_neg (fun h' => hw (hwin.mpr h')), UInt64.toNat_zero]

theorem average_le_consumed_iff (hP : 0 < precision) :
    average precision a ≤ a.consumed ↔
      integerDivideCeil a.exact.valueEx precision.toNat ≤ a.exact.consumed := by
  rw [average, UInt64.le_iff_toNat_le, toNat_integerDivideCeil hP]
  rfl

/-- **A successful `add` is exact** from an accumulator whose `consumed` is at least its
average: no field wraps. -/
theorem add_exact (hP : 0 < precision) (ha : average precision a ≤ a.consumed) {x : Unit}
    (h : (add precision units ordinal windowSize).run a = .ok x a') :
    a'.exact = a.exact.add precision.toNat units.toNat ordinal.toNat windowSize.toNat := by
  obtain ⟨c, hc, -, hconsumed, hvalue, ⟨hsame, rfl⟩ | ⟨hlt, v, hv, rfl⟩⟩ := add_ok h
  all_goals
    obtain ⟨hcle, hceq⟩ := downgradeCast_eq_ok.mp hc
    have hc' : (UInt64.ofNat c).toNat = c := toNat_ofNat_of_lt (by omega)
    rw [le_max_sub_iff, hc'] at hvalue
    rw [le_max_sub_iff] at hconsumed
  · -- the last ordinal again: both sums are checked
    have hord : a.exact.lastOrdinal = ordinal.toNat := by rw [exact, hsame]
    rw [ExactAverage.add, if_pos hord]
    simp only [exact, ExactAverage.mk.injEq, true_and]
    rw [toNat_add_of_lt (by rw [hc']; exact hvalue), toNat_add_of_lt hconsumed, hc', hceq]
    exact ⟨rfl, rfl⟩
  · -- a later ordinal: the decayed value and the reset `consumed` are below what was checked
    have hord : a.exact.lastOrdinal ≠ ordinal.toNat := fun h' =>
      absurd (UInt32.lt_iff_toNat_lt.mp hlt) (by rw [← h']; exact lt_irrefl _)
    have hvle := hv.toNat_le
    have havg : integerDivideCeil v.toNat precision.toNat ≤ a.consumed.toNat :=
      (integerDivideCeil_mono (UInt64.lt_iff_toNat_lt.mp hP) hvle).trans
        ((average_le_consumed_iff hP).mp ha)
    have hreset : (average precision ⟨ordinal, v, a.consumed⟩).toNat =
        integerDivideCeil v.toNat precision.toNat := toNat_integerDivideCeil hP
    rw [ExactAverage.add, if_neg hord]
    simp only [exact, ExactAverage.mk.injEq, true_and]
    rw [toNat_add_of_lt (by rw [hc']; omega), toNat_add_of_lt (by rw [hreset]; omega), hreset, hc',
      hceq, hv.toNat_eq hlt]
    exact ⟨rfl, rfl⟩

/-- **A successful `add` keeps `consumed` at least the average.** -/
theorem average_le_consumed_add (hP : 0 < precision) (hW : 0 < windowSize)
    (ha : average precision a ≤ a.consumed) {x : Unit}
    (h : (add precision units ordinal windowSize).run a = .ok x a') :
    average precision a' ≤ a'.consumed := by
  rw [average_le_consumed_iff hP, add_exact hP ha h]
  exact ExactAverage.average_le_consumed_add (UInt64.lt_iff_toNat_lt.mp hP)
    ((average_le_consumed_iff hP).mp ha) _ _ (UInt32.lt_iff_toNat_lt.mp hW)

/-- The accumulators `add` reaches from the default one, with positive windows. -/
inductive Reachable (precision : UInt64) : ExponentialMovingAverageAccumulator → Prop
  | initial : Reachable precision initial
  | add {a a' : ExponentialMovingAverageAccumulator} {units : UInt64} {ordinal windowSize : UInt32}
      {x : Unit} : Reachable precision a → 0 < windowSize →
      (ExponentialMovingAverageAccumulator.add precision units ordinal windowSize).run a =
        .ok x a' → Reachable precision a'

/-- Every reachable accumulator has `consumed` at least its average. -/
theorem Reachable.average_le_consumed (hP : 0 < precision) (h : Reachable precision a) :
    average precision a ≤ a.consumed := by
  induction h with
  | initial =>
    -- `0 / precision + 0`
    rw [average, UInt64.le_iff_toNat_le, toNat_integerDivideCeil hP]
    simp [ExponentialMovingAverageAccumulator.initial, integerDivideCeil]
  | add _ hW hrun ih => exact average_le_consumed_add hP hW ih hrun

end ExponentialMovingAverageAccumulator

/-! ### The decaying accumulator -/

/-- `exponential_decay_accumulator`. -/
structure ExponentialDecayAccumulator where
  /-- The ordinal of the last period which has contributed to the accumulator. -/
  lastOrdinal : UInt32
  /-- The current accumulated value pre-multiplied by `Precision`. -/
  valueEx : UInt64
deriving DecidableEq, Repr

/-- The decaying accumulator over unbounded naturals, saturating as the source does. -/
structure ExactDecay where
  lastOrdinal : ℕ
  valueEx : ℕ
deriving DecidableEq, Repr

/-- The exact value at a current or future ordinal: decayed linearly within the window,
cleared after it. -/
def ExactDecay.valueExAt (a : ExactDecay) (ordinal windowSize : ℕ) : ℕ :=
  if a.lastOrdinal < ordinal then
    if ordinal < a.lastOrdinal + windowSize then
      a.valueEx * (windowSize - (ordinal - a.lastOrdinal)) / windowSize
    else 0
  else a.valueEx

/-- One exact `add`: the value at the ordinal, plus the units at the precision, capped at
`UINT64_MAX`. -/
def ExactDecay.add (precision : ℕ) (a : ExactDecay) (units ordinal windowSize : ℕ) :
    ExactDecay :=
  ⟨if a.lastOrdinal < ordinal then ordinal else a.lastOrdinal,
    min (units * precision + a.valueExAt ordinal windowSize) (2 ^ 64 - 1)⟩

namespace ExponentialDecayAccumulator

variable (precision : UInt64)

/-- The fields as naturals. -/
def exact (a : ExponentialDecayAccumulator) : ExactDecay :=
  ⟨a.lastOrdinal.toNat, a.valueEx.toNat⟩

/-- `value_ex_at(ordinal, window_size)`: the extended value at a current or future ordinal, the
decay taken in 128 bits. -/
def valueExAt (a : ExponentialDecayAccumulator) (ordinal windowSize : UInt32) :
    Except AccumulatorError UInt64 :=
  if a.lastOrdinal < ordinal then
    if a.lastOrdinal.toUInt64 + windowSize.toUInt64 > ordinal.toUInt64 then
      -- `0 < delta < window_size`, so the numerator does not wrap
      let delta := ordinal - a.lastOrdinal
      do
        let decayed ← mulRatio 128 a.valueEx.toNat
          ⟨windowSize.toNat - delta.toNat, windowSize.toNat⟩
        UInt64.ofNat <$> downgradeCast 0xFFFFFFFFFFFFFFFF decayed
    else pure 0
  else pure a.valueEx

/-- `add(units, ordinal, window_size)`. The value the saturation reads is the one the decay
wrote, when it ran. -/
def add (units : UInt64) (ordinal windowSize : UInt32) :
    EStateM AccumulatorError ExponentialDecayAccumulator Unit := do
  let a ← get
  -- check for some numerical limits before doing any state mutations
  unless units ≤ maxRawValue precision do
    throw (.rateLimitingStateInconsistent
      "Usage exceeds maximum value representable after extending for precision")
  let unitsEx := units.toNat * precision.toNat
  let valueEx ← if a.lastOrdinal < ordinal then do
      let v ← liftExcept (a.valueExAt ordinal windowSize)
      modify fun a => { a with valueEx := v }
      modify fun a => { a with lastOrdinal := ordinal }
      pure v
    else pure a.valueEx
  -- saturate the value
  let newValueEx := min (unitsEx + valueEx.toNat) 0xFFFFFFFFFFFFFFFF
  let v ← liftExcept (downgradeCast 0xFFFFFFFFFFFFFFFF newValueEx)
  modify fun a => { a with valueEx := UInt64.ofNat v }

variable {a a' : ExponentialDecayAccumulator} {units : UInt64} {ordinal windowSize : UInt32}

/-- `value_ex_at` does not throw, and is exact: a 64-bit value times a ratio of 32-bit words
fits in 128 bits, and the decayed value is no larger than the value. -/
theorem valueExAt_eq_ok :
    ∃ v, a.valueExAt ordinal windowSize = .ok v ∧
      v.toNat = a.exact.valueExAt ordinal.toNat windowSize.toNat := by
  have hlast : a.exact.lastOrdinal < 2 ^ 32 := a.lastOrdinal.toNat_lt
  have hwindow := windowSize.toNat_lt
  have hvalue : a.exact.valueEx < 2 ^ 64 := a.valueEx.toNat_lt
  unfold valueExAt ExactDecay.valueExAt
  by_cases hlt : a.lastOrdinal < ordinal
  · have hlt' : a.exact.lastOrdinal < ordinal.toNat := UInt32.lt_iff_toNat_lt.mp hlt
    have hdelta : (ordinal - a.lastOrdinal).toNat = ordinal.toNat - a.exact.lastOrdinal :=
      UInt32.toNat_sub_of_le _ _ (UInt32.le_iff_toNat_le.mpr hlt'.le)
    -- the window test in 64 bits is the test over the naturals
    have hwin : a.lastOrdinal.toUInt64 + windowSize.toUInt64 > ordinal.toUInt64 ↔
        ordinal.toNat < a.exact.lastOrdinal + windowSize.toNat := by
      have := a.lastOrdinal.toNat_lt
      rw [gt_iff_lt, UInt64.lt_iff_toNat_lt, UInt64.toNat_add, UInt32.toNat_toUInt64,
        UInt32.toNat_toUInt64, UInt32.toNat_toUInt64, Nat.mod_eq_of_lt (by omega)]
      rfl
    rw [if_pos hlt, if_pos hlt']
    by_cases hw : ordinal.toNat < a.exact.lastOrdinal + windowSize.toNat
    · rw [if_pos (hwin.mpr hw), if_pos hw]
      simp only [hdelta]
      -- the product of the value and the numerator is far below `2 ^ 128`
      generalize hnum : windowSize.toNat - (ordinal.toNat - a.exact.lastOrdinal) = num
      have hnumle : num ≤ windowSize.toNat := hnum ▸ Nat.sub_le _ _
      have hfit : num = 0 ∨ a.exact.valueEx ≤ (2 ^ 128 - 1) / num := by
        rcases Nat.eq_zero_or_pos num with h0 | hpos
        · exact .inl h0
        · refine .inr ((Nat.le_div_iff_mul_le hpos).mpr ?_)
          have : a.exact.valueEx * num ≤ a.exact.valueEx * 2 ^ 32 :=
            Nat.mul_le_mul_left _ (hnumle.trans hwindow.le)
          omega
      have hmul : mulRatio 128 a.valueEx.toNat ⟨num, windowSize.toNat⟩ =
          .ok (a.exact.valueEx * num / windowSize.toNat) := mulRatio_eq_ok.mpr ⟨hfit, rfl⟩
      have hle : a.exact.valueEx * num / windowSize.toNat ≤ a.exact.valueEx :=
        le_of_mulRatio_eq_ok hnumle hmul
      have hcast : downgradeCast 0xFFFFFFFFFFFFFFFF (a.exact.valueEx * num / windowSize.toNat) =
          .ok (a.exact.valueEx * num / windowSize.toNat) :=
        downgradeCast_eq_ok.mpr ⟨by omega, rfl⟩
      refine ⟨_, by rw [hmul]; exact congrArg (UInt64.ofNat <$> ·) hcast, ?_⟩
      exact toNat_ofNat_of_lt (by omega)
    · rw [if_neg (fun h => hw (hwin.mp h)), if_neg hw]
      exact ⟨0, rfl, rfl⟩
  · have hlt' : ¬ a.exact.lastOrdinal < ordinal.toNat := fun h =>
      hlt (UInt32.lt_iff_toNat_lt.mpr h)
    rw [if_neg hlt, if_neg hlt']
    exact ⟨a.valueEx, rfl, rfl⟩

/-- **A throwing `add` leaves the accumulator as it was**: only the first check can throw. -/
theorem add_error {e : AccumulatorError}
    (h : (add precision units ordinal windowSize).run a = .error e a') : a' = a := by
  obtain ⟨v, hv, -⟩ := @valueExAt_eq_ok a ordinal windowSize
  rw [add, run_bind_get] at h
  -- the saturated value always fits, so the last cast does not throw
  simp only [run_ite, run_bind_throw, run_bind_liftExcept, run_bind_modify, run_modify,
    run_bind_pure, hv, downgradeCast_min] at h
  split at h
  · split at h <;> cases h
  · cases h
    rfl

/-- **A successful `add` is exact** from every accumulator: the value saturates at `UINT64_MAX`
and nothing wraps. -/
theorem add_exact {x : Unit} (h : (add precision units ordinal windowSize).run a = .ok x a') :
    a'.exact = a.exact.add precision.toNat units.toNat ordinal.toNat windowSize.toNat := by
  obtain ⟨v, hv, hvexact⟩ := @valueExAt_eq_ok a ordinal windowSize
  have hmin : ∀ n, (UInt64.ofNat (min n 0xFFFFFFFFFFFFFFFF)).toNat = min n (2 ^ 64 - 1) :=
    fun n => toNat_ofNat_of_lt (by have := min_le_right n 0xFFFFFFFFFFFFFFFF; omega)
  rw [add, run_bind_get] at h
  simp only [run_ite, run_bind_throw, run_bind_liftExcept, run_bind_modify, run_modify,
    run_bind_pure, hv, downgradeCast_min] at h
  split at h
  · by_cases hlt : a.lastOrdinal < ordinal
    · -- a later ordinal: the value saturated is the decayed one
      have hlt' : a.exact.lastOrdinal < ordinal.toNat := UInt32.lt_iff_toNat_lt.mp hlt
      rw [if_pos hlt] at h
      cases h
      rw [ExactDecay.add, if_pos hlt', ← hvexact]
      simp only [exact, hmin]
    · -- the same or an earlier ordinal: the value saturated is the stored one
      have hlt' : ¬ a.exact.lastOrdinal < ordinal.toNat := fun h' =>
        hlt (UInt32.lt_iff_toNat_lt.mpr h')
      rw [if_neg hlt] at h
      cases h
      rw [ExactDecay.add, if_neg hlt', ExactDecay.valueExAt, if_neg hlt']
      simp only [exact, hmin]
  · cases h

/-- **`add` returns when the units fit the precision**: only its first check can throw. -/
theorem add_eq_ok (hunits : units ≤ maxRawValue precision) :
    ∃ a', (add precision units ordinal windowSize).run a = .ok () a' := by
  obtain ⟨v, hv, -⟩ := @valueExAt_eq_ok a ordinal windowSize
  rw [add, run_bind_get]
  simp only [run_ite, run_bind_liftExcept, run_bind_modify, run_modify, run_bind_pure, hv,
    downgradeCast_min, if_pos hunits]
  split <;> exact ⟨_, rfl⟩

end ExponentialDecayAccumulator

/-- **Both accumulators' `add` are atomic and never wrap.** From an accumulator `add` reaches
with positive windows, a throwing `add` leaves it as it was, and a successful one keeps
`consumed` at least the average and computes the exact moving average; a throwing
`exponential_decay_accumulator::add` leaves any accumulator as it was, and a successful one
computes the exact value, saturated at `UINT64_MAX`. -/
theorem accumulators_add_atomic {precision : UInt64} (hP : 0 < precision) :
    (∀ {a a' : ExponentialMovingAverageAccumulator} {units : UInt64} {ordinal windowSize : UInt32},
      ExponentialMovingAverageAccumulator.Reachable precision a → 0 < windowSize →
      (∀ e, (ExponentialMovingAverageAccumulator.add precision units ordinal windowSize).run a =
          .error e a' → a' = a) ∧
      (∀ x, (ExponentialMovingAverageAccumulator.add precision units ordinal windowSize).run a =
          .ok x a' →
        ExponentialMovingAverageAccumulator.average precision a' ≤ a'.consumed ∧
          a'.exact = a.exact.add precision.toNat units.toNat ordinal.toNat windowSize.toNat)) ∧
    (∀ {a a' : ExponentialDecayAccumulator} {units : UInt64} {ordinal windowSize : UInt32},
      (∀ e, (ExponentialDecayAccumulator.add precision units ordinal windowSize).run a =
          .error e a' → a' = a) ∧
      (∀ x, (ExponentialDecayAccumulator.add precision units ordinal windowSize).run a =
          .ok x a' →
        a'.exact = a.exact.add precision.toNat units.toNat ordinal.toNat windowSize.toNat)) := by
  refine ⟨fun hreach hW => ⟨fun _ h => ExponentialMovingAverageAccumulator.add_error h,
    fun _ h => ?_⟩, ⟨fun _ h => ExponentialDecayAccumulator.add_error _ h,
    fun _ h => ExponentialDecayAccumulator.add_exact _ h⟩⟩
  -- the invariant of the reachable accumulator is what rules the wrap out
  have ha := hreach.average_le_consumed hP
  exact ⟨ExponentialMovingAverageAccumulator.average_le_consumed_add hP hW ha h,
    ExponentialMovingAverageAccumulator.add_exact hP ha h⟩

theorem accumulators_add_atomic_ratePrecision :
    (0 : UInt64) < 1000000 ∧
    (∀ {a a' : ExponentialMovingAverageAccumulator} {units : UInt64} {ordinal windowSize : UInt32},
      ExponentialMovingAverageAccumulator.Reachable 1000000 a → 0 < windowSize →
      (∀ e, (ExponentialMovingAverageAccumulator.add 1000000 units ordinal windowSize).run a =
          .error e a' → a' = a) ∧
      (∀ x, (ExponentialMovingAverageAccumulator.add 1000000 units ordinal windowSize).run a =
          .ok x a' →
        ExponentialMovingAverageAccumulator.average 1000000 a' ≤ a'.consumed ∧
          a'.exact = a.exact.add 1000000 units.toNat ordinal.toNat windowSize.toNat)) ∧
    (∀ {a a' : ExponentialDecayAccumulator} {units : UInt64} {ordinal windowSize : UInt32},
      (∀ e, (ExponentialDecayAccumulator.add 1000000 units ordinal windowSize).run a =
          .error e a' → a' = a) ∧
      (∀ x, (ExponentialDecayAccumulator.add 1000000 units ordinal windowSize).run a =
          .ok x a' →
        a'.exact = a.exact.add 1000000 units.toNat ordinal.toNat windowSize.toNat)) :=
  ⟨by decide, accumulators_add_atomic (by decide)⟩

end Eosio.Chain
