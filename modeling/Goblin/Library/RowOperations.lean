import Mathlib.Tactic

/-!
# Row operations

The row operations of an elimination commute with the multiplication from the right. So if they
turn a matrix `A` into the identity, they turn any matrix `B` into `A⁻¹ * B`.

`exchangeInverse` is the inverse of a matrix in which one row has been replaced, computed from the
former inverse. The entry to divide by is the one that the new row has in the former basis.
-/

set_option autoImplicit false

namespace Goblin.Library

open Finset
open Matrix

universe u v w

variable {d : Type u} {e : Type v} {K : Type w} [DecidableEq d] [Field K]

/-- Divide a row. -/
def scaleRow (i : d) (p : K) (M : Matrix d e K) : Matrix d e K := fun r c =>
  if r = i then M r c / p else M r c

/-- Subtract a row, `f r` times, from the rows that are selected. -/
def eliminate (rows : d → Bool) (i : d) (f : d → K) (M : Matrix d e K) : Matrix d e K := fun r c =>
  if rows r then M r c - f r * M i c else M r c

/-- Exchange two rows. -/
def swapRows (i k : d) (M : Matrix d e K) : Matrix d e K := fun r c => M (Equiv.swap i k r) c

section Mul

variable [Fintype d] (P : Matrix d d K) (A : Matrix d e K)

theorem scaleRow_mul (i : d) (p : K) : scaleRow i p (P * A) = scaleRow i p P * A := by
  ext r c
  simp only [scaleRow, mul_apply]
  split_ifs
  · rw [Finset.sum_div]
    exact sum_congr rfl fun k _ => by ring
  · rfl

omit [DecidableEq d] in
theorem eliminate_mul (rows : d → Bool) (i : d) (f : d → K) :
    eliminate rows i f (P * A) = eliminate rows i f P * A := by
  ext r c
  simp only [eliminate, mul_apply]
  split_ifs
  · rw [mul_sum, ← sum_sub_distrib]
    exact sum_congr rfl fun k _ => by ring
  · rfl

theorem swapRows_mul (i k : d) : swapRows i k (P * A) = swapRows i k P * A := rfl

end Mul

/-! ## Exchange of a row -/

variable [Fintype d] {B N : Matrix d d K}

/-- The row `a` in the basis whose inverse is `N`. -/
def inBasis (N : Matrix d d K) (a : d → K) (r : d) : K := ∑ k, a k * N k r

/-- The inverse after the row `j` of the basis has been replaced by `a`. -/
def exchangeInverse (N : Matrix d d K) (j : d) (a : d → K) : Matrix d d K := fun s r =>
  if r = j then N s j / inBasis N a j else N s r - inBasis N a r * N s j / inBasis N a j

theorem inBasis_row (inverse : B * N = 1) (r c : d) :
    inBasis N (B r) c = if r = c then 1 else 0 := by
  rw [← one_apply, ← inverse, mul_apply, inBasis]

/-- A product with a row, by the products with the rows of the basis. -/
theorem sum_mul_eq_inBasis (inverse : B * N = 1) (a z : d → K) :
    ∑ k, a k * z k = ∑ r, inBasis N a r * ∑ k, B r k * z k := by
  have solved : ∀ k, z k = ∑ r, N k r * ∑ c, B r c * z c := by
    intro k
    have unit : (N * B) *ᵥ z = z := by rw [mul_eq_one_comm.1 inverse, one_mulVec]
    have entry := congrFun unit k
    rw [← mulVec_mulVec] at entry
    exact entry.symm
  calc ∑ k, a k * z k = ∑ k, a k * ∑ r, N k r * ∑ c, B r c * z c :=
        sum_congr rfl fun k _ => by rw [← solved k]
    _ = ∑ k, ∑ r, a k * N k r * ∑ c, B r c * z c :=
        sum_congr rfl fun k _ => by
          rw [mul_sum]
          exact sum_congr rfl fun r _ => by ring
    _ = ∑ r, ∑ k, a k * N k r * ∑ c, B r c * z c := sum_comm
    _ = ∑ r, inBasis N a r * ∑ k, B r k * z k :=
        sum_congr rfl fun r _ => by rw [inBasis, sum_mul]

theorem inBasis_exchangeInverse (N : Matrix d d K) (j : d) (a b : d → K) (c : d) :
    inBasis (exchangeInverse N j a) b c = if c = j then inBasis N b j / inBasis N a j
      else inBasis N b c - inBasis N a c * inBasis N b j / inBasis N a j := by
  simp only [inBasis, exchangeInverse]
  split_ifs
  · rw [Finset.sum_div]
    exact sum_congr rfl fun k _ => by ring
  · rw [mul_sum, Finset.sum_div, ← sum_sub_distrib]
    exact sum_congr rfl fun k _ => by ring

theorem updateRow_mul_exchangeInverse {j : d} {a : d → K}
    (others : ∀ r, r ≠ j → (B * N) r = (1 : Matrix d d K) r) (pivot : inBasis N a j ≠ 0) :
    B.updateRow j a * exchangeInverse N j a = 1 := by
  ext r c
  rw [mul_apply, one_apply]
  change inBasis (exchangeInverse N j a) (B.updateRow j a r) c = _
  by_cases here : r = j
  · subst here
    rw [updateRow_self, inBasis_exchangeInverse]
    by_cases eq : c = r
    · rw [if_pos eq, if_pos eq.symm, div_self pivot]
    · rw [if_neg eq, if_neg (Ne.symm eq), mul_div_assoc, div_self pivot, mul_one, sub_self]
  · have unit : ∀ c, inBasis N (B r) c = if r = c then 1 else 0 := by
      intro c
      rw [inBasis, ← mul_apply, others r here, one_apply]
    rw [updateRow_ne here, inBasis_exchangeInverse, unit, unit, if_neg here]
    by_cases eq : c = j
    · subst eq
      rw [if_pos rfl, if_neg here, zero_div]
    · rw [if_neg eq, mul_zero, zero_div, sub_zero]

end Goblin.Library
