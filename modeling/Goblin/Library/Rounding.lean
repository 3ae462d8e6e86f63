import Mathlib.Data.Int.Log
import Mathlib.Tactic

/-!
# Rounding to floating point numbers

A number with `p` significant binary digits is an integral multiple of the unit in its last place,
a power of two that depends on its magnitude. The nearest of these numbers is taken, and the one
with the even multiple if there are two. The exponents are bounded from below but not from above,
so nothing is said about numbers that are too large for a format.

A natural number is rounded to a natural number, and a positive one to a positive one
(`nearest_natCast`).
-/

set_option autoImplicit false

namespace Goblin.Library

/-- The nearest integer; the even one if there are two. -/
def roundEven (x : ℚ) : ℤ :=
  if x - ⌊x⌋ < 1 / 2 ∨ (x - ⌊x⌋ = 1 / 2 ∧ ⌊x⌋ % 2 = 0) then ⌊x⌋ else ⌊x⌋ + 1

/-- The unit in the last place of a number with `p` binary digits. -/
def ulp (p : ℕ) (least : ℤ) (x : ℚ) : ℚ := 2 ^ max (Int.log 2 |x| + 1 - p) least

/-- The nearest number with `p` binary digits and exponents from `least` on. -/
def nearest (p : ℕ) (least : ℤ) (x : ℚ) : ℚ := roundEven (x / ulp p least x) * ulp p least x

variable {p : ℕ} {least : ℤ} {x : ℚ}

theorem roundEven_intCast (k : ℤ) : roundEven k = k := by
  unfold roundEven
  rw [Int.floor_intCast, sub_self]
  exact if_pos (.inl (by norm_num))

theorem floor_le_roundEven (x : ℚ) : ⌊x⌋ ≤ roundEven x := by
  unfold roundEven
  split_ifs <;> omega

/-- A number with at most `p` digits behind the point of the unit is not changed. -/
theorem nearest_of_multiple (k : ℤ) (multiple : x = k * ulp p least x) :
    nearest p least x = x := by
  have unit : ulp p least x ≠ 0 := by
    unfold ulp
    positivity
  have quotient : x / ulp p least x = k := (div_eq_iff unit).2 multiple
  unfold nearest
  rw [quotient, roundEven_intCast]
  exact multiple.symm

theorem nearest_natCast_of_unit {k : ℕ} (fraction : max (Int.log 2 |(k : ℚ)| + 1 - p) least ≤ 0) :
    nearest p least k = k := by
  -- the unit divides one
  obtain ⟨e, exponent⟩ := Int.eq_ofNat_of_zero_le (neg_nonneg.2 fraction)
  have unit : ulp p least k = ((2 : ℚ) ^ e)⁻¹ := by
    unfold ulp
    rw [← neg_neg (max _ _), exponent, zpow_neg, zpow_natCast]
  refine nearest_of_multiple (k * 2 ^ e) ?_
  rw [unit]
  push_cast
  rw [mul_inv_cancel_right₀ (by positivity)]

/-- Natural numbers of at most `p` digits are not changed. -/
theorem nearest_natCast_of_lt (digits : 0 < p) (integral : least ≤ 0) {k : ℕ} (small : k < 2 ^ p) :
    nearest p least k = k := by
  refine nearest_natCast_of_unit (max_le ?_ integral)
  rw [abs_of_nonneg (Nat.cast_nonneg k), Int.log_natCast]
  have few := Nat.log_lt_of_lt_pow' digits.ne' small
  omega

/-- **A positive natural number is rounded to a positive natural number.** -/
theorem nearest_natCast (digits : 0 < p) (integral : least ≤ 0) {k : ℕ} (pos : 0 < k) :
    ∃ j : ℕ, 0 < j ∧ nearest p least k = j := by
  have large : (0 : ℚ) < k := by exact_mod_cast pos
  by_cases fraction : max (Int.log 2 |(k : ℚ)| + 1 - p) least ≤ 0
  · exact ⟨k, pos, nearest_natCast_of_unit fraction⟩
  · -- the unit is a natural number which is not larger than the number
    push Not at fraction
    obtain ⟨e, exponent⟩ := Int.eq_ofNat_of_zero_le fraction.le
    have unit : ulp p least k = (2 : ℚ) ^ e := by
      unfold ulp
      rw [exponent, zpow_natCast]
    have small : (2 : ℚ) ^ e ≤ k := by
      have below := Int.zpow_log_le_self (one_lt_two) large
      refine le_trans ?_ below
      rw [← zpow_natCast]
      refine zpow_le_zpow_right₀ one_le_two ?_
      rw [abs_of_pos large] at exponent fraction
      rcases max_cases (Int.log 2 (k : ℚ) + 1 - p) least with ⟨eq, -⟩ | ⟨eq, -⟩
      · rw [eq] at exponent
        omega
      · rw [eq] at fraction
        omega
    have one : 1 ≤ roundEven (k / (2 : ℚ) ^ e) := by
      refine le_trans (Int.le_floor.2 ?_) (floor_le_roundEven _)
      rw [Int.cast_one, one_le_div (by positivity)]
      exact small
    obtain ⟨j, rounded⟩ := Int.eq_ofNat_of_zero_le (zero_le_one.trans one)
    refine ⟨j * 2 ^ e, Nat.mul_pos ?_ (by positivity), ?_⟩
    · rw [rounded] at one
      omega
    · unfold nearest
      rw [unit, rounded]
      push_cast
      rfl

end Goblin.Library
