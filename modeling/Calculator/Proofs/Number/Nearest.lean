import Calculator.Proofs.Number.Powers

/-!
The order of the finite doubles and rounding to the nearest of them.

Doubles are counted in smallest positive ones, and this count grows with the index. So the index is
found back from the count, a double is the nearest one to itself, and rounding depends on the value
of a fraction alone, not on how it is written.
-/

namespace Calculator
namespace Magnitude

theorem units_of_subnormal {index : Nat} (h : index < 2 ^ 52) : units index = index := by
  have hshift : shift index = 0 := by
    rw [shift_eq]
    omega
  rw [units_eq, significand_eq, if_pos h, hshift, Nat.pow_zero, Nat.mul_one]

theorem units_of_normal (places : Nat) {fraction : Nat} (h : fraction < 2 ^ 52) :
    units ((places + 1) * 2 ^ 52 + fraction) = (2 ^ 52 + fraction) * 2 ^ places := by
  have hshift : shift ((places + 1) * 2 ^ 52 + fraction) = places := by
    rw [shift_eq]
    omega
  have hsignificand : significand ((places + 1) * 2 ^ 52 + fraction) = 2 ^ 52 + fraction := by
    rw [significand_eq, if_neg (by omega)]
    omega
  rw [units_eq, hshift, hsignificand]

/-- An index is below the normal ones, or it has an exponent and a fraction. -/
theorem index_cases (index : Nat) :
    index < 2 ^ 52 ∨ ∃ places fraction, fraction < 2 ^ 52 ∧
      index = (places + 1) * 2 ^ 52 + fraction := by
  by_cases h : index < 2 ^ 52
  · exact .inl h
  · exact .inr ⟨index / 2 ^ 52 - 1, index % 2 ^ 52, by omega, by omega⟩

theorem units_lt_succ (index : Nat) : units index < units (index + 1) := by
  rcases index_cases index with h | ⟨places, fraction, h, rfl⟩
  · rw [units_of_subnormal h]
    by_cases hnext : index + 1 < 2 ^ 52
    · rw [units_of_subnormal hnext]
      exact Nat.lt_succ_self index
    · have heq : index + 1 = (0 + 1) * 2 ^ 52 + 0 := by omega
      rw [heq, units_of_normal 0 (by decide)]
      omega
  · rw [units_of_normal places h]
    by_cases hnext : fraction + 1 < 2 ^ 52
    · rw [Nat.add_assoc, units_of_normal places hnext]
      exact Nat.mul_lt_mul_of_pos_right (by omega) (Nat.two_pow_pos places)
    · have heq : (places + 1) * 2 ^ 52 + fraction + 1 = (places + 1 + 1) * 2 ^ 52 + 0 := by omega
      have hpower : 2 ^ (places + 1) = 2 * 2 ^ places := Nat.pow_succ'
      rw [heq, units_of_normal (places + 1) (by decide), hpower, ← Nat.mul_assoc]
      exact Nat.mul_lt_mul_of_pos_right (by omega) (Nat.two_pow_pos places)

theorem indexBelow_units (index : Nat) : indexBelow (units index) = index := by
  rcases index_cases index with h | ⟨places, fraction, h, rfl⟩
  · rw [units_of_subnormal h, indexBelow_eq]
    have hlog : index.log2 - 52 = 0 := by
      by_cases hzero : index = 0
      · subst hzero
        rfl
      · have := (Nat.log2_lt hzero).mpr h
        omega
    simp only [hlog, Nat.zero_mul, Nat.pow_zero, Nat.div_one, Nat.zero_add]
  · rw [units_of_normal places h, indexBelow_eq]
    have hpos : 0 < (2 ^ 52 + fraction) * 2 ^ places :=
      Nat.mul_pos (by omega) (Nat.two_pow_pos places)
    have hlog : ((2 ^ 52 + fraction) * 2 ^ places).log2 = 52 + places := by
      refine (Nat.log2_eq_iff (Nat.ne_of_gt hpos)).mpr ⟨?_, ?_⟩
      · rw [Nat.pow_add]
        exact Nat.mul_le_mul_right _ (by omega)
      · rw [Nat.add_right_comm, Nat.pow_add]
        exact Nat.mul_lt_mul_of_pos_right (by omega) (Nat.two_pow_pos places)
    simp only [hlog, Nat.add_sub_cancel_left, Nat.mul_div_cancel _ (Nat.two_pow_pos places)]
    omega

/-- A fraction that is a double has this double as its nearest one. -/
theorem nearest_of_units {index numerator denominator : Nat} (hindex : index ≤ infinity)
    (hpos : 0 < denominator)
    (h : numerator * 2 ^ unitExponent = units index * denominator) :
    nearest numerator denominator = index := by
  have hbelow : indexBelow (numerator * 2 ^ unitExponent / denominator) = index := by
    rw [h, Nat.mul_div_cancel _ hpos, indexBelow_units]
  have hmiddle : 2 * (numerator * 2 ^ unitExponent) <
      (units index + units (index + 1)) * denominator := by
    have hnext := Nat.mul_lt_mul_of_pos_right (units_lt_succ index) hpos
    rw [h, Nat.add_mul]
    omega
  simp only [nearest_eq, hbelow]
  rw [if_neg (by omega)]
  exact Nat.min_eq_left hindex

theorem nearest_scale {factor : Nat} (hpos : 0 < factor) (numerator denominator : Nat) :
    nearest (numerator * factor) (denominator * factor) = nearest numerator denominator := by
  have hquotient : numerator * factor * 2 ^ unitExponent / (denominator * factor) =
      numerator * 2 ^ unitExponent / denominator := by
    rw [Nat.mul_right_comm, Nat.mul_div_mul_right _ _ hpos]
  have hdoubled : 2 * (numerator * factor * 2 ^ unitExponent) =
      2 * (numerator * 2 ^ unitExponent) * factor := by ring
  simp only [nearest_eq, hquotient, hdoubled, ← Nat.mul_assoc, Nat.mul_lt_mul_right hpos,
    Nat.mul_left_inj (Nat.ne_of_gt hpos)]

/-- Fractions of the same value have the same nearest double. -/
theorem nearest_congr {numerator denominator numerator' denominator' : Nat}
    (hpos : 0 < denominator) (hpos' : 0 < denominator')
    (h : numerator * denominator' = numerator' * denominator) :
    nearest numerator denominator = nearest numerator' denominator' := by
  rw [← nearest_scale hpos', h, Nat.mul_comm denominator denominator', nearest_scale hpos]

/-- The finite doubles end below two to the power of this. -/
def limitExponent : Nat := 1024

theorem infinity_le_indexBelow {count : Nat} (h : 2 ^ (limitExponent + unitExponent) ≤ count) :
    infinity ≤ indexBelow count := by
  have hpos : count ≠ 0 := Nat.ne_of_gt (Nat.lt_of_lt_of_le (Nat.two_pow_pos _) h)
  have hlog := (Nat.le_log2 hpos).mpr h
  rw [limitExponent, unitExponent] at hlog
  have hquotient : 2 ^ 52 ≤ count / 2 ^ (count.log2 - 52) := by
    rw [Nat.le_div_iff_mul_le (Nat.two_pow_pos _), ← Nat.pow_add]
    exact Nat.le_trans (Nat.pow_le_pow_right (by decide) (by omega)) (Nat.log2_self_le hpos)
  simp only [indexBelow_eq, infinity_eq]
  omega

theorem nearest_of_large {numerator denominator : Nat}
    (h : 2 ^ (limitExponent + unitExponent) ≤ numerator * 2 ^ unitExponent / denominator) :
    nearest numerator denominator = infinity := by
  have := infinity_le_indexBelow h
  simp only [nearest_eq]
  split <;> omega

theorem nearest_of_small {numerator denominator : Nat}
    (h : 2 * (numerator * 2 ^ unitExponent) < denominator) :
    nearest numerator denominator = 0 := by
  have hquotient : numerator * 2 ^ unitExponent / denominator = 0 :=
    Nat.div_eq_of_lt (by omega)
  have hbelow : indexBelow 0 = 0 := by decide
  have hmiddle : units 0 + units (0 + 1) = 1 := by decide
  simp only [nearest_eq, hquotient, hbelow, hmiddle, Nat.one_mul]
  rw [if_neg (by omega), Nat.zero_min]

end Magnitude
end Calculator
