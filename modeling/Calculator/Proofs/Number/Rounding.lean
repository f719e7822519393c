import Calculator.Proofs.Float.Components
import Calculator.Proofs.Number.Shortest
import Mathlib.Algebra.Order.Field.Power
import Mathlib.Algebra.Order.Field.Rat
import Mathlib.Tactic.Linarith

/-!
Correct rounding.

The doubles are given as rational numbers, and a rational number rounds to the nearest of them, at
the same distance to the one with an even index. This leaves one double for every number, and it is
the one that a decimal reads as.
-/

namespace Calculator
namespace Magnitude

open Float.Model Float.Model.UnpackedFloat

/-- The double at an index as a number. Infinity's index gets the number that overflows. -/
def number (index : Nat) : ℚ :=
  units index / 2 ^ unitExponent

/-- The size of a finite double. -/
def size : UnpackedFloat → ℚ
  | .finite _ significand exponent _ => significand * 2 ^ exponent
  | _ => 0

theorem size_finite (sign : Sign) (significand : Nat) (exponent : Int)
    (positive : 0 < significand) :
    size (.finite sign significand exponent positive) = significand * 2 ^ exponent := rfl

theorem number_of_components {index significand : Nat} {exponent : Int} (places : Nat)
    (hunits : units index = significand * 2 ^ places)
    (hexponent : exponent + unitExponent = places) :
    number index = significand * 2 ^ exponent := by
  have hpower : (2 : ℚ) ^ exponent * 2 ^ unitExponent = 2 ^ places := by
    rw [← zpow_natCast, ← zpow_natCast, ← zpow_add₀ (by decide), hexponent]
  rw [number, hunits, div_eq_iff (by positivity), mul_assoc, hpower]
  push_cast
  rfl

/-- The number at an index below infinity's is the one that the double's bits encode. -/
theorem size_toFloat {index : Nat} (h : index < infinity) :
    size (toFloat index).toModel.unpack = number index := by
  have stands := standsFor_toFloat h
  generalize (toFloat index).toModel.unpack = value at stands ⊢
  have hlimit : index < 2047 * 2 ^ 52 := h
  cases stands with
  | infinity all | notANumber all => omega
  | zero least none =>
      have hunits := units_of_subnormal (show index < 2 ^ 52 by omega)
      have : units index = 0 := by omega
      rw [number, this, Nat.cast_zero, zero_div]
      rfl
  | subnormal least positive =>
      have hunits := units_of_subnormal (show index < 2 ^ 52 by omega)
      rw [size_finite]
      refine (number_of_components 0 ?_ rfl).symm
      omega
  | normal more fewer positive =>
      obtain ⟨places, hplaces⟩ := Nat.exists_eq_succ_of_ne_zero more
      have hunits := units_of_normal places (Nat.mod_lt index (Nat.two_pow_pos 52))
      have hindex : (places + 1) * 2 ^ 52 + index % 2 ^ 52 = index := by omega
      rw [hindex] at hunits
      rw [size_finite]
      refine (number_of_components places hunits ?_).symm
      rw [hplaces]
      simp only [unitExponent]
      omega

/-- A number rounds to the double at an index. -/
structure RoundsTo (exact : ℚ) (index : Nat) : Prop where
  inRange : index ≤ infinity
  nearest : ∀ other ≤ infinity, |number index - exact| ≤ |number other - exact|
  even : ∀ other ≤ infinity, other ≠ index →
    |number index - exact| = |number other - exact| → index % 2 = 0

theorem number_strictMono : StrictMono number := by
  refine strictMono_nat_of_lt_succ fun index => ?_
  have hunits : (units index : ℚ) < units (index + 1) := by exact_mod_cast units_lt_succ index
  exact div_lt_div_of_pos_right hunits (by positivity)

/-- Two doubles at the same distance have no other one between them, so one of them is odd. -/
theorem RoundsTo.le {exact : ℚ} {index other : Nat} (h : RoundsTo exact index)
    (hother : RoundsTo exact other) : index ≤ other := by
  by_contra hlt
  have hdistance : |number other - exact| = |number index - exact| :=
    le_antisymm (hother.nearest index h.inRange) (h.nearest other hother.inRange)
  have heven := h.even other hother.inRange (by omega) hdistance.symm
  have heven' := hother.even index h.inRange (by omega) hdistance
  have hbetween : other < other + 1 ∧ other + 1 < index := by omega
  have hlow := number_strictMono hbetween.1
  have hhigh := number_strictMono hbetween.2
  have hmiddle := h.nearest (other + 1) (by have := h.inRange; omega)
  -- At the same distance from both ends, the number is half way between them.
  rcases abs_cases (number other - exact) with ⟨h₁, _⟩ | ⟨h₁, _⟩ <;>
    rcases abs_cases (number index - exact) with ⟨h₂, _⟩ | ⟨h₂, _⟩ <;>
    rcases abs_cases (number (other + 1) - exact) with ⟨h₃, _⟩ | ⟨h₃, _⟩ <;>
    rw [h₁, h₂] at hdistance <;> rw [h₂, h₃] at hmiddle <;> linarith

theorem RoundsTo.unique {exact : ℚ} {index other : Nat} (h : RoundsTo exact index)
    (hother : RoundsTo exact other) : index = other :=
  Nat.le_antisymm (h.le hother) (hother.le h)

section Neighbours

variable {exact : ℚ} {index : Nat}

/-- A number between two doubles that is not past their middle rounds to the lower one. -/
theorem RoundsTo.lower (hindex : index < infinity) (hlow : number index ≤ exact)
    (hmiddle : 2 * exact ≤ number index + number (index + 1))
    (heven : 2 * exact = number index + number (index + 1) → index % 2 = 0) :
    RoundsTo exact index := by
  have hdistance : |number index - exact| = exact - number index := by
    rw [abs_sub_comm, abs_of_nonneg (by linarith)]
  have habove : ∀ other, index < other → number (index + 1) - exact ≤ |number other - exact| := by
    intro other hother
    have := number_strictMono.monotone (show index + 1 ≤ other by omega)
    exact le_trans (by linarith) (le_abs_self _)
  have hbelow : ∀ other, other < index → exact - number index < |number other - exact| := by
    intro other hother
    have := number_strictMono hother
    rw [abs_sub_comm]
    exact lt_of_lt_of_le (by linarith) (le_abs_self _)
  refine ⟨hindex.le, fun other _ => ?_, fun other _ hne heq => ?_⟩
  · rw [hdistance]
    rcases Nat.lt_trichotomy other index with hother | rfl | hother
    · exact (hbelow other hother).le
    · exact hdistance.ge
    · exact le_trans (by linarith) (habove other hother)
  · rw [hdistance] at heq
    rcases Nat.lt_or_gt_of_ne hne with hother | hother
    · exact absurd (hbelow other hother) (by rw [heq]; exact lt_irrefl _)
    · exact heven (by linarith [habove other hother])

/-- A number between two doubles that is not below their middle rounds to the upper one. -/
theorem RoundsTo.upper (hindex : index < infinity) (hhigh : exact < number (index + 1))
    (hmiddle : number index + number (index + 1) ≤ 2 * exact)
    (heven : 2 * exact = number index + number (index + 1) → (index + 1) % 2 = 0) :
    RoundsTo exact (index + 1) := by
  have hdistance : |number (index + 1) - exact| = number (index + 1) - exact :=
    abs_of_nonneg (by linarith)
  have hbelow : ∀ other, other ≤ index → exact - number index ≤ |number other - exact| := by
    intro other hother
    have := number_strictMono.monotone hother
    rw [abs_sub_comm]
    exact le_trans (by linarith) (le_abs_self _)
  have habove : ∀ other, index + 1 < other →
      number (index + 1) - exact < |number other - exact| := by
    intro other hother
    have := number_strictMono hother
    exact lt_of_lt_of_le (by linarith) (le_abs_self _)
  refine ⟨hindex, fun other _ => ?_, fun other _ hne heq => ?_⟩
  · rw [hdistance]
    rcases Nat.lt_trichotomy other (index + 1) with hother | rfl | hother
    · exact le_trans (by linarith) (hbelow other (by omega))
    · exact hdistance.ge
    · exact (habove other hother).le
  · rw [hdistance] at heq
    rcases Nat.lt_or_gt_of_ne hne with hother | hother
    · exact heven (by linarith [hbelow other (by omega)])
    · exact absurd (habove other hother) (by rw [heq]; exact lt_irrefl _)

/-- A number from infinity's on rounds to infinity. -/
theorem RoundsTo.overflow (h : number infinity ≤ exact) : RoundsTo exact infinity := by
  have hdistance : |number infinity - exact| = exact - number infinity := by
    rw [abs_sub_comm, abs_of_nonneg (by linarith)]
  have hbelow : ∀ other, other < infinity →
      |number infinity - exact| < |number other - exact| := by
    intro other hother
    have := number_strictMono hother
    rw [hdistance, abs_sub_comm]
    exact lt_of_lt_of_le (by linarith) (le_abs_self _)
  refine ⟨Nat.le_refl _, fun other hother => ?_, fun other hother hne heq => ?_⟩
  · rcases Nat.lt_or_eq_of_le hother with hother | rfl
    · exact (hbelow other hother).le
    · exact le_refl _
  · exact absurd heq (hbelow other (by omega)).ne

end Neighbours

section Nearest

theorem units_succ_of_normal (places : Nat) {fraction : Nat} (h : fraction < 2 ^ 52) :
    units ((places + 1) * 2 ^ 52 + fraction + 1) = (2 ^ 52 + fraction + 1) * 2 ^ places := by
  by_cases hnext : fraction + 1 < 2 ^ 52
  · rw [Nat.add_assoc, units_of_normal places hnext, Nat.add_assoc]
  · have heq : (places + 1) * 2 ^ 52 + fraction + 1 = (places + 1 + 1) * 2 ^ 52 + 0 := by omega
    have hfraction : 2 ^ 52 + fraction + 1 = 2 ^ 52 * 2 := by omega
    have hpower : 2 ^ (places + 1) = 2 * 2 ^ places := Nat.pow_succ'
    rw [heq, units_of_normal (places + 1) (by decide), Nat.add_zero, hfraction, hpower,
      Nat.mul_assoc]

/-- The double below a count is the largest that has at most this many units. -/
theorem units_indexBelow (count : Nat) :
    units (indexBelow count) ≤ count ∧ count < units (indexBelow count + 1) := by
  rw [indexBelow_eq]
  rcases Nat.lt_or_ge count (2 ^ 52) with hsmall | hlarge
  · have hlog : count.log2 - 52 = 0 := by
      by_cases hzero : count = 0
      · subst hzero
        rfl
      · have := (Nat.log2_lt hzero).mpr hsmall
        omega
    have hunits := units_of_subnormal hsmall
    have hnext := units_lt_succ count
    simp only [hlog, Nat.zero_mul, Nat.pow_zero, Nat.div_one, Nat.zero_add]
    omega
  · have hne : count ≠ 0 := by omega
    obtain ⟨places, hlog⟩ : ∃ places, count.log2 = 52 + places :=
      Nat.exists_eq_add_of_le ((Nat.le_log2 hne).mpr hlarge)
    obtain ⟨hlow, hhigh⟩ := (Nat.log2_eq_iff hne).mp hlog
    have hpos := Nat.two_pow_pos places
    have hquotient : 2 ^ 52 ≤ count / 2 ^ places := by
      rw [Nat.le_div_iff_mul_le hpos, ← Nat.pow_add]
      exact hlow
    have hbound : count / 2 ^ places < 2 ^ 53 := by
      rw [Nat.div_lt_iff_lt_mul hpos, ← Nat.pow_add]
      exact Nat.lt_of_lt_of_eq hhigh (congrArg _ (by omega))
    obtain ⟨fraction, hfraction⟩ := Nat.exists_eq_add_of_le hquotient
    have hindex : places * 2 ^ 52 + (2 ^ 52 + fraction) = (places + 1) * 2 ^ 52 + fraction := by
      omega
    rw [hlog, Nat.add_sub_cancel_left, hfraction, hindex, units_of_normal places (by omega),
      units_succ_of_normal places (by omega), ← hfraction]
    exact ⟨Nat.div_mul_le_self count _, Nat.lt_div_mul_add hpos |>.trans_eq (by ring)⟩

section Fraction

variable {numerator denominator index : Nat}

theorem number_le_fraction_iff (hpos : 0 < denominator) :
    number index ≤ numerator / denominator ↔
      units index * denominator ≤ numerator * 2 ^ unitExponent := by
  have hdenominator : (0 : ℚ) < denominator := by exact_mod_cast hpos
  rw [number, div_le_div_iff₀ (by positivity) hdenominator]
  exact_mod_cast Iff.rfl

theorem number_add_number :
    number index + number (index + 1) =
      (units index + units (index + 1) : Nat) / 2 ^ unitExponent := by
  rw [number, number, ← add_div, Nat.cast_add]

theorem two_mul_fraction :
    2 * (numerator / denominator : ℚ) = (2 * numerator : Nat) / denominator := by
  rw [Nat.cast_mul, mul_div_assoc]
  rfl

theorem middle_le_fraction_iff (hpos : 0 < denominator) :
    number index + number (index + 1) ≤ 2 * (numerator / denominator) ↔
      (units index + units (index + 1)) * denominator ≤ 2 * (numerator * 2 ^ unitExponent) := by
  have hdenominator : (0 : ℚ) < denominator := by exact_mod_cast hpos
  rw [number_add_number, two_mul_fraction, div_le_div_iff₀ (by positivity) hdenominator,
    ← Nat.mul_assoc]
  exact_mod_cast Iff.rfl

theorem fraction_le_middle_iff (hpos : 0 < denominator) :
    2 * (numerator / denominator : ℚ) ≤ number index + number (index + 1) ↔
      2 * (numerator * 2 ^ unitExponent) ≤ (units index + units (index + 1)) * denominator := by
  have hdenominator : (0 : ℚ) < denominator := by exact_mod_cast hpos
  rw [number_add_number, two_mul_fraction, div_le_div_iff₀ hdenominator (by positivity),
    ← Nat.mul_assoc]
  exact_mod_cast Iff.rfl

/-- The nearest double to a fraction is what its value rounds to. -/
theorem roundsTo_nearest (numerator : Nat) (hpos : 0 < denominator) :
    RoundsTo (numerator / denominator) (nearest numerator denominator) := by
  rw [nearest_eq]
  simp only
  obtain ⟨hbelow, habove⟩ := units_indexBelow (numerator * 2 ^ unitExponent / denominator)
  rw [Nat.le_div_iff_mul_le hpos] at hbelow
  rw [Nat.div_lt_iff_lt_mul hpos] at habove
  generalize indexBelow (numerator * 2 ^ unitExponent / denominator) = index at hbelow habove ⊢
  have hlow : number index ≤ numerator / denominator := (number_le_fraction_iff hpos).mpr hbelow
  have hhigh : (numerator / denominator : ℚ) < number (index + 1) :=
    lt_of_not_ge fun h => absurd ((number_le_fraction_iff hpos).mp h) (Nat.not_le.mpr habove)
  have hhalf (h : 2 * (numerator / denominator : ℚ) = number index + number (index + 1)) :
      2 * (numerator * 2 ^ unitExponent) = (units index + units (index + 1)) * denominator :=
    Nat.le_antisymm ((fraction_le_middle_iff hpos).mp h.le) ((middle_le_fraction_iff hpos).mp h.ge)
  rcases Nat.lt_or_ge index infinity with hfinite | hinfinite
  · split
    · rename_i hup
      rw [Nat.min_eq_left hfinite]
      have hmiddle := hup.elim Nat.le_of_lt fun h => h.1.le
      refine .upper hfinite hhigh ((middle_le_fraction_iff hpos).mpr hmiddle) fun h => ?_
      have := hhalf h
      omega
    · rename_i hdown
      rw [Nat.min_eq_left hfinite.le]
      have hmiddle := Nat.le_of_not_lt fun h => hdown (.inl h)
      refine .lower hfinite hlow ((fraction_le_middle_iff hpos).mpr hmiddle) fun h => ?_
      have := hhalf h
      omega
  · have hoverflow := RoundsTo.overflow (le_trans (number_strictMono.monotone hinfinite) hlow)
    split
    · rwa [Nat.min_eq_right (Nat.le_succ_of_le hinfinite)]
    · rwa [Nat.min_eq_right hinfinite]

end Fraction

end Nearest

/-- A double without a sign that a number rounds to. -/
def IsRounded (exact : ℚ) (value : Float) : Prop :=
  ∃ index, RoundsTo exact index ∧ value = toFloat index

theorem IsRounded.unique {exact : ℚ} {value other : Float} (h : IsRounded exact value)
    (hother : IsRounded exact other) : value = other := by
  obtain ⟨index, hindex, rfl⟩ := h
  obtain ⟨_, hother, rfl⟩ := hother
  rw [hindex.unique hother]

theorem isNaN_of_isFinite {value : Float} (h : value.isFinite = true) : value.isNaN = false := by
  change value.toModel.unpack.isFinite = true at h
  change value.toModel.unpack.isNaN = false
  cases hvalue : value.toModel.unpack with
  | notANumber =>
      rw [hvalue] at h
      cases h
  | infinity | zero | finite => rfl

/-- A number rounds to a double without a sign, or to infinity. -/
theorem IsRounded.unsigned {exact : ℚ} {value : Float} (h : IsRounded exact value) :
    Number.isNegative value = false ∧ value.isNaN = false := by
  obtain ⟨index, hindex, rfl⟩ := h
  rcases Nat.lt_or_eq_of_le hindex.inRange with hfinite | rfl
  · have hbits := toBits_toFloat hfinite
    refine ⟨?_, isNaN_of_isFinite ?_⟩
    · rw [← Bool.not_eq_true, isNegative_iff, hbits]
      have := infinity_eq
      omega
    · rw [isFinite_iff, ofFloat_toFloat hfinite]
      exact hfinite
  · constructor <;> decide +kernel

end Magnitude

namespace Decimal

/-- The value of a decimal. -/
def number (decimal : Decimal) : ℚ :=
  decimal.coefficient * 10 ^ decimal.exponent

theorem number_eq_fraction (decimal : Decimal) :
    decimal.number = (decimal.coefficient * 10 ^ decimal.exponent.toNat : Nat) /
      (10 ^ (-decimal.exponent).toNat : Nat) := by
  rw [number]
  push_cast
  rcases Int.le_total 0 decimal.exponent with h | h
  · have hneg : (-decimal.exponent).toNat = 0 := by omega
    rw [hneg, pow_zero, div_one, ← zpow_natCast, Int.toNat_of_nonneg h]
  · have hpos : decimal.exponent.toNat = 0 := by omega
    rw [hpos, pow_zero, mul_one, div_eq_mul_inv, ← zpow_natCast, ← zpow_neg,
      Int.toNat_of_nonneg (by omega), neg_neg]

/-- A decimal reads as the double that its value rounds to. -/
theorem roundsTo_magnitude (decimal : Decimal) :
    Magnitude.RoundsTo decimal.number decimal.magnitude := by
  rw [magnitude_eq_nearest, number_eq_fraction]
  exact Magnitude.roundsTo_nearest _ (Nat.pow_pos (by decide))

theorem isRounded_toFloat (decimal : Decimal) :
    Magnitude.IsRounded decimal.number decimal.toFloat :=
  ⟨decimal.magnitude, decimal.roundsTo_magnitude, rfl⟩

end Decimal
end Calculator
