import Calculator.Proofs.Float.Opposite
import Calculator.Proofs.Number.Nearest

/-!
The order of the doubles.

A double without a sign is unpacked into the significand and the place of its index, and these are
compared place first. So doubles without a sign are in the order of their indexes, and the absolute
value of a finite double is the double at its index.
-/

namespace Calculator
namespace Magnitude

open Float.Model Float.Model.UnpackedFloat

variable {index other : Nat} {value : Float}

theorem isFinite_toFloat (h : index < infinity) : (toFloat index).isFinite = true := by
  rw [isFinite_iff, ofFloat_toFloat h]
  exact h

theorem index_eq_of_toFloat (h : index < infinity) (hother : other ≤ infinity)
    (heq : toFloat index = toFloat other) : index = other := by
  rcases Nat.lt_or_eq_of_le hother with hfinite | rfl
  · rw [← ofFloat_toFloat h, heq, ofFloat_toFloat hfinite]
  · have hfinite := isFinite_toFloat h
    rw [heq] at hfinite
    exact absurd hfinite (by decide +kernel)

/-- What the double at an index consists of. -/
inductive Unpacks (index : Nat) : UnpackedFloat → Prop
  | zero (h : index = 0) : Unpacks index (.zero .positive)
  | finite (positive : 0 < significand index) :
      Unpacks index
        (.finite .positive (significand index) ((shift index : Int) - unitExponent) positive)

theorem unpacks_of_eq {mantissa : Nat} {exponent : Int} {sign : Sign}
    (positive : 0 < mantissa) (hsign : sign = .positive) (hmantissa : mantissa = significand index)
    (hexponent : exponent = (shift index : Int) - unitExponent) :
    Unpacks index (.finite sign mantissa exponent positive) := by
  subst hsign hmantissa hexponent
  exact .finite positive

theorem unpacks_toFloat (h : index < infinity) : Unpacks index (toFloat index).toModel.unpack := by
  have stands := standsFor_toFloat h
  generalize (toFloat index).toModel.unpack = value at stands ⊢
  simp only [infinity_eq] at h
  cases stands with
  | infinity all | notANumber all => omega
  | zero least none => exact .zero (by omega)
  | subnormal least positive =>
      refine unpacks_of_eq _ rfl ?_ ?_
      · rw [significand_eq, if_pos (by omega)]
        omega
      · rw [shift_eq]
        simp only [unitExponent]
        omega
  | normal more fewer positive =>
      refine unpacks_of_eq _ rfl ?_ ?_
      · rw [significand_eq, if_neg (by omega)]
      · rw [shift_eq]
        simp only [unitExponent]
        omega

theorem significand_pos_iff : 0 < significand index ↔ 0 < index := by
  rw [significand_eq]
  split <;> omega

theorem compare_places (index other : Nat) :
    (compare ((shift index : Int) - unitExponent) (shift other - unitExponent)).then
      (compare (significand index) (significand other)) = compare index other := by
  simp only [shift_eq, significand_eq]
  rcases Nat.lt_trichotomy index other with h | rfl | h
  · rw [Nat.compare_eq_lt.mpr h, Ordering.then_eq_lt, Int.compare_eq_lt, Int.compare_eq_eq,
      Nat.compare_eq_lt]
    split <;> split <;> omega
  · simp
  · rw [Nat.compare_eq_gt.mpr h, Ordering.then_eq_gt, Int.compare_eq_gt, Int.compare_eq_eq,
      Nat.compare_eq_gt]
    split <;> split <;> omega

/-- Doubles without a sign compare like their indexes. -/
theorem compare_toFloat (h : index < infinity) (hother : other < infinity) :
    (toFloat index).toModel.unpack.compare (toFloat other).toModel.unpack =
      some (compare index other) := by
  have hindex := unpacks_toFloat h
  have hotherIndex := unpacks_toFloat hother
  generalize (toFloat index).toModel.unpack = x at hindex
  generalize (toFloat other).toModel.unpack = y at hotherIndex
  cases hindex with
  | zero hzero =>
      subst hzero
      cases hotherIndex with
      | zero hother =>
          subst hother
          rfl
      | finite positive =>
          rw [Nat.compare_eq_lt.mpr (significand_pos_iff.mp positive)]
          rfl
  | finite positive =>
      cases hotherIndex with
      | zero hother =>
          subst hother
          rw [Nat.compare_eq_gt.mpr (significand_pos_iff.mp positive)]
          rfl
      | finite positive' => exact congrArg some (compare_places index other)

theorem le_iff_compare {x y : Float} :
    x ≤ y ↔ (x.toModel.unpack.compare y.toModel.unpack).any (·.isLE) = true :=
  decide_eq_true_iff

theorem toFloat_lt_iff (h : index < infinity) (hother : other < infinity) :
    toFloat index < toFloat other ↔ index < other := by
  rw [lt_iff_compare, compare_toFloat h hother, Option.some.injEq, Nat.compare_eq_lt]

theorem toFloat_le_iff (h : index < infinity) (hother : other < infinity) :
    toFloat index ≤ toFloat other ↔ index ≤ other := by
  rw [le_iff_compare, compare_toFloat h hother, Option.any_some, Nat.isLE_compare]

theorem eq_toFloat_or_neg (finite : value.isFinite = true) :
    value = toFloat (ofFloat value) ∨ value = -toFloat (ofFloat value) := by
  have hindex := isFinite_iff.mp finite
  have hpositive := toBits_toFloat hindex
  have hnegative := toBits_neg (isFinite_toFloat hindex)
  have hbits : value.toBits.toNat < 2 ^ 64 := value.toBits.toBitVec.isLt
  rw [ofFloat_eq] at hpositive hnegative ⊢
  rcases Nat.lt_or_ge value.toBits.toNat (2 ^ 63) with hsign | hsign
  · refine .inl (float_ext ?_)
    omega
  · refine .inr (float_ext ?_)
    omega

theorem toFloat_ofFloat (finite : value.isFinite = true)
    (unsigned : Number.isNegative value = false) : toFloat (ofFloat value) = value := by
  apply float_ext
  rw [toBits_toFloat (isFinite_iff.mp finite), ofFloat_eq]
  have hsign := mt isNegative_iff.mpr (Bool.eq_false_iff.mp unsigned)
  exact Nat.mod_eq_of_lt (Nat.lt_of_not_le hsign)

theorem abs_toFloat (h : index < infinity) : (toFloat index).abs = toFloat index := by
  have hunpacks := unpacks_toFloat h
  refine Eq.trans ?_ (packed_unpack (toFloat index))
  show packed (toFloat index).toModel.unpack.abs = packed (toFloat index).toModel.unpack
  generalize (toFloat index).toModel.unpack = unpacked at hunpacks
  cases hunpacks <;> rfl

theorem abs_neg (finite : value.isFinite = true) : (-value).abs = value.abs := by
  show packed (-value).toModel.unpack.abs = packed value.toModel.unpack.abs
  rw [unpack_neg finite]
  cases value.toModel.unpack <;> rfl

/-- The absolute value of a finite double has its index and no sign. -/
theorem abs_eq (finite : value.isFinite = true) : value.abs = toFloat (ofFloat value) := by
  have hindex := isFinite_iff.mp finite
  rcases eq_toFloat_or_neg finite with heq | heq
  · exact (congrArg Float.abs heq).trans (abs_toFloat hindex)
  · refine (congrArg Float.abs heq).trans ?_
    rw [abs_neg (isFinite_toFloat hindex), abs_toFloat hindex]

end Magnitude
end Calculator
