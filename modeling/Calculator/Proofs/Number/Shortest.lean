import Calculator.Number.Decimal
import Calculator.Proofs.Number.Nearest

/-!
The double that a decimal reads as, and that the shortest decimal of a double reads as this double.

A decimal reads as the double nearest to its value, so moving zeros between the coefficient and the
exponent changes nothing. The exact decimal of a double reads as it, and every step on the way to
the shortest one keeps that.
-/

namespace Calculator
namespace Decimal

open Magnitude

theorem overflow_bound : 2 ^ limitExponent ≤ 10 ^ 309 := by
  decide +kernel

theorem underflow_bound : 2 * 2 ^ unitExponent ≤ 10 ^ 324 := by
  decide +kernel

theorem nearest_of_overflow {coefficient exponent : Nat} (hpos : 0 < coefficient)
    (h : 309 ≤ exponent) : nearest (coefficient * 10 ^ exponent) 1 = infinity := by
  have hten : 10 ^ 309 ≤ 10 ^ exponent := by
    gcongr
    decide
  apply nearest_of_large
  rw [Nat.div_one]
  calc 2 ^ (limitExponent + unitExponent) = 2 ^ limitExponent * 2 ^ unitExponent :=
        Nat.pow_add ..
    _ ≤ 10 ^ exponent * 2 ^ unitExponent :=
      Nat.mul_le_mul_right _ (Nat.le_trans overflow_bound hten)
    _ ≤ coefficient * 10 ^ exponent * 2 ^ unitExponent :=
      Nat.mul_le_mul_right _ (Nat.le_mul_of_pos_left _ hpos)

theorem nearest_of_underflow {coefficient exponent : Nat}
    (h : coefficient.log2 + 1 + 324 ≤ exponent) : nearest coefficient (10 ^ exponent) = 0 := by
  have hten : 10 ^ (coefficient.log2 + 1) * 10 ^ 324 ≤ 10 ^ exponent := by
    rw [← Nat.pow_add]
    gcongr
    decide
  apply nearest_of_small
  calc 2 * (coefficient * 2 ^ unitExponent) = coefficient * (2 * 2 ^ unitExponent) := by ring
    _ < 2 ^ (coefficient.log2 + 1) * (2 * 2 ^ unitExponent) :=
      Nat.mul_lt_mul_of_pos_right Nat.lt_log2_self (by decide +kernel)
    _ ≤ 10 ^ (coefficient.log2 + 1) * 10 ^ 324 :=
      Nat.mul_le_mul (Nat.pow_le_pow_left (show 2 ≤ 10 by decide) _) underflow_bound
    _ ≤ 10 ^ exponent := hten

/-- Deciding the very large and the very small numbers first does not change the result. -/
theorem magnitude_eq_nearest (decimal : Decimal) :
    decimal.magnitude =
      nearest (decimal.coefficient * 10 ^ decimal.exponent.toNat)
        (10 ^ (-decimal.exponent).toNat) := by
  rw [magnitude_eq]
  split
  · rename_i hzero
    rw [hzero, Nat.zero_mul, nearest_of_small]
    rw [Nat.zero_mul]
    exact Nat.pow_pos (by decide)
  · rename_i hzero
    split
    · have hnegative : (-decimal.exponent).toNat = 0 := by omega
      rw [hnegative, Nat.pow_zero, nearest_of_overflow (Nat.pos_of_ne_zero hzero) (by omega)]
    · split
      · have hpositive : decimal.exponent.toNat = 0 := by omega
        rw [hpositive, Nat.pow_zero, Nat.mul_one, nearest_of_underflow (by omega)]
      · rfl

/-- Zeros at the end of the coefficient can be moved to the exponent. -/
theorem magnitude_shift (coefficient zeros : Nat) (exponent : Int) :
    magnitude ⟨coefficient * 10 ^ zeros, exponent⟩ = magnitude ⟨coefficient, exponent + zeros⟩ := by
  rw [magnitude_eq_nearest, magnitude_eq_nearest]
  apply nearest_congr (Nat.pow_pos (by decide)) (Nat.pow_pos (by decide))
  simp only [Nat.mul_assoc, ← Nat.pow_add]
  congr 2
  omega

theorem magnitude_exact {index : Nat} (h : index < infinity) :
    (exact index).magnitude = index := by
  rw [magnitude_eq_nearest]
  apply nearest_of_units (Nat.le_of_lt h) (Nat.pow_pos (by decide))
  simp only [exact_eq, units_eq]
  split
  · rename_i hlarge
    simp only [Int.toNat_zero, Int.neg_zero, Nat.pow_zero, Nat.mul_one, Nat.mul_assoc,
      ← Nat.pow_add]
    rw [Nat.sub_add_cancel hlarge]
  · rename_i hsmall
    generalize hplaces : unitExponent - shift index = places
    have hunit : unitExponent = shift index + places := by omega
    have hten : 10 ^ places = 5 ^ places * 2 ^ places := by rw [← Nat.mul_pow]
    simp only [Int.toNat_neg_natCast, Int.neg_neg, Int.toNat_natCast, Nat.pow_zero, Nat.mul_one]
    rw [hunit, hten, Nat.pow_add]
    ring

theorem magnitude_of_coarsen {index dropped : Nat} {decimal coarse : Decimal}
    (h : decimal.coarsen? index dropped = some coarse) : coarse.magnitude = index := by
  simp only [coarsen?] at h
  split at h
  · rename_i hfloor
    split at h
    · rename_i habove
      rw [← Option.some.inj h, habove.1]
    · rw [← Option.some.inj h, hfloor]
  · split at h
    · rename_i habove
      rw [← Option.some.inj h, habove]
    · simp at h

theorem magnitude_coarsest {index : Nat} {decimal : Decimal} (h : decimal.magnitude = index)
    (dropped : Nat) : (decimal.coarsest index dropped).magnitude = index := by
  induction dropped with
  | zero => exact h
  | succ dropped ih =>
      rw [coarsest]
      split
      · rename_i hcoarse
        exact magnitude_of_coarsen hcoarse
      · exact ih

theorem magnitude_normalize (decimal : Decimal) :
    decimal.normalize.magnitude = decimal.magnitude := by
  fun_induction normalize decimal with
  | case1 decimal h ih =>
      have hshift := magnitude_shift (decimal.coefficient / 10) 1 decimal.exponent
      rw [Nat.pow_one, Nat.div_mul_cancel (Nat.dvd_of_mod_eq_zero h.2)] at hshift
      exact ih.trans hshift.symm
  | case2 => rfl

/-- The shortest decimal of a finite double reads as this double. -/
theorem magnitude_shortest {index : Nat} (h : index < infinity) :
    (shortest index).magnitude = index := by
  rw [shortest, magnitude_normalize]
  exact magnitude_coarsest (magnitude_exact h) _

end Decimal
end Calculator
