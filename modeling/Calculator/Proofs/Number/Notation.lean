import Calculator.Proofs.Float.Order
import Calculator.Proofs.Number.Rounding

/-!
The notation a number is written in.

The text compares the number with a millionth and with ten to the 21st, and the decimal that is
written is only near the number. But its digits say on which side of these bounds the number is:
reading a decimal keeps the order, so only a decimal that reads as the bound itself could tell
otherwise, and the shortest one for the bound is the bound.
-/

namespace Calculator
namespace Magnitude

variable {low high exact exact' : ℚ} {index other : Nat}

theorem upper_nearer_iff (h : low < high) :
    |high - exact| ≤ |low - exact| ↔ low + high ≤ 2 * exact := by
  rw [← sq_le_sq]
  constructor
  · intro hsquares
    nlinarith
  · intro hmiddle
    nlinarith

theorem lower_nearer_iff (h : low < high) :
    |low - exact| ≤ |high - exact| ↔ 2 * exact ≤ low + high := by
  rw [← sq_le_sq]
  constructor
  · intro hsquares
    nlinarith
  · intro hmiddle
    nlinarith

/-- Rounding keeps the order. -/
theorem RoundsTo.mono (h : RoundsTo exact index) (hother : RoundsTo exact' other)
    (hle : exact ≤ exact') : index ≤ other := by
  rcases hle.eq_or_lt with rfl | hlt
  · exact h.le hother
  · by_contra hgt
    have hnumber := number_strictMono (Nat.lt_of_not_le hgt)
    have hmiddle := (upper_nearer_iff hnumber).mp (h.nearest other hother.inRange)
    have hmiddle' := (lower_nearer_iff hnumber).mp (hother.nearest index h.inRange)
    linarith

end Magnitude

namespace Decimal

open Magnitude

variable {decimal other : Decimal} {index : Nat}

theorem magnitude_mono (h : decimal.number ≤ other.number) : decimal.magnitude ≤ other.magnitude :=
  decimal.roundsTo_magnitude.mono other.roundsTo_magnitude h

section Digits

theorem length_digits_le_iff {count : Nat} (h : 0 < count) :
    decimal.digits.length ≤ count ↔ decimal.coefficient < 10 ^ count :=
  Nat.length_toDigits_le_iff (by decide) h

theorem length_digits_pos : 0 < decimal.digits.length :=
  Nat.length_toDigits_pos

theorem coefficient_lt : decimal.coefficient < 10 ^ decimal.digits.length :=
  (length_digits_le_iff length_digits_pos).mp (Nat.le_refl _)

theorem le_coefficient (h : decimal.coefficient ≠ 0) :
    10 ^ (decimal.digits.length - 1) ≤ decimal.coefficient := by
  by_contra hlt
  rcases Nat.eq_zero_or_pos (decimal.digits.length - 1) with hone | hmore
  · rw [hone] at hlt
    omega
  · have hshorter : decimal.digits.length ≤ decimal.digits.length - 1 :=
      (length_digits_le_iff hmore).mpr (by omega)
    omega

theorem isDigit_of_digits (decimal : Decimal) : ∀ c ∈ decimal.digits, c.isDigit = true :=
  fun _ hc => Nat.isDigit_of_mem_toDigits (by decide) (by decide) hc

theorem point_eq (decimal : Decimal) : decimal.point = decimal.digits.length + decimal.exponent :=
  rfl

/-- The first digit stands at the place below the point. -/
theorem number_lt (decimal : Decimal) : decimal.number < 10 ^ decimal.point := by
  have hcoefficient : (decimal.coefficient : ℚ) < 10 ^ decimal.digits.length := by
    exact_mod_cast decimal.coefficient_lt
  rw [number, point_eq, zpow_add₀ (by decide), zpow_natCast]
  exact mul_lt_mul_of_pos_right hcoefficient (by positivity)

theorem le_number (h : decimal.coefficient ≠ 0) :
    (10 : ℚ) ^ (decimal.point - 1) ≤ decimal.number := by
  have hcoefficient : (10 : ℚ) ^ (decimal.digits.length - 1) ≤ decimal.coefficient := by
    exact_mod_cast le_coefficient h
  have hpower : decimal.point - 1 = (decimal.digits.length - 1 : Nat) + decimal.exponent := by
    have := decimal.length_digits_pos
    rw [point_eq]
    omega
  rw [number, hpower, zpow_add₀ (by decide), zpow_natCast]
  exact mul_le_mul_of_nonneg_right hcoefficient (by positivity)

theorem power_le_number_iff {power : Int} (h : decimal.coefficient ≠ 0) :
    (10 : ℚ) ^ power ≤ decimal.number ↔ power < decimal.point := by
  constructor
  · intro hle
    exact (zpow_lt_zpow_iff_right₀ (by decide)).mp (hle.trans_lt decimal.number_lt)
  · intro hlt
    exact le_trans ((zpow_le_zpow_iff_right₀ (by decide)).mpr (by omega)) (le_number h)

end Digits

theorem coefficient_ne_zero_of_reads (hreads : decimal.magnitude = index) (hnonzero : index ≠ 0) :
    decimal.coefficient ≠ 0 := by
  intro hzero
  rw [magnitude_eq, if_pos hzero] at hreads
  exact hnonzero hreads.symm

/-- If a power of ten is the shortest decimal of its double, the doubles from this one on are those
whose shortest decimals have the point above the power. -/
theorem magnitude_power_le_iff {power : Int} (hpower : shortest (magnitude ⟨1, power⟩) = ⟨1, power⟩)
    (hindex : index < infinity) (hnonzero : index ≠ 0) :
    magnitude ⟨1, power⟩ ≤ index ↔ power < (shortest index).point := by
  have hreads := magnitude_shortest hindex
  have hcoefficient := coefficient_ne_zero_of_reads hreads hnonzero
  have hnumber : number ⟨1, power⟩ = 10 ^ power := by simp [number]
  rw [← power_le_number_iff hcoefficient, ← hnumber]
  constructor
  · intro hle
    by_contra hlt
    have hbelow := magnitude_mono (le_of_not_ge hlt)
    rw [hreads] at hbelow
    rw [← Nat.le_antisymm hle hbelow, hpower] at hlt
    exact hlt (le_refl _)
  · intro hle
    have habove := magnitude_mono hle
    rwa [hreads] at habove

/-- One digit before the point, and a power of ten that always shows its sign. -/
def scientific (decimal : Decimal) : List Char :=
  let power := decimal.point - 1
  let fraction := decimal.digits.drop 1
  decimal.digits.take 1 ++ (if fraction = [] then [] else '.' :: fraction)
    ++ 'e' :: (if power < 0 then '-' else '+') :: Nat.toDigits 10 power.natAbs

/-- The notation that the place of the point decides. -/
def natural (decimal : Decimal) : List Char :=
  if -6 < decimal.point ∧ decimal.point ≤ 21 then decimal.positional else decimal.scientific

end Decimal

namespace Number

open Magnitude

theorem signPower_append {front power : List Char} (h : ∀ c ∈ front, c ≠ 'e') :
    signPower (front ++ 'e' :: power) =
      front ++ 'e' :: if power.head? = some '-' then power else '+' :: power := by
  have hdrop : (front ++ 'e' :: power).dropWhile (· ≠ 'e') = 'e' :: power := by
    rw [List.dropWhile_append_of_pos (by simpa using h)]
    simp
  have htake : (front ++ 'e' :: power).takeWhile (· ≠ 'e') = front := by
    rw [List.takeWhile_append_of_pos (by simpa using h)]
    simp
  rw [signPower, hdrop]
  simp only [htake]
  split <;> rfl

theorem ne_exponent_of_isDigit {c : Char} (h : c.isDigit = true) : c ≠ 'e' := by
  rintro rfl
  exact absurd h (by decide)

theorem digits_ne_exponent (decimal : Decimal) : ∀ c ∈ decimal.digits, c ≠ 'e' :=
  fun c hc => ne_exponent_of_isDigit (decimal.isDigit_of_digits c hc)

/-- With the sign of the power added, one notation becomes the other. -/
theorem signPower_exponential {sign : List Char} (h : ∀ c ∈ sign, c ≠ 'e') (decimal : Decimal) :
    signPower (sign ++ decimal.exponential) = sign ++ decimal.scientific := by
  have hfront : ∀ c ∈ sign ++ (decimal.digits.take 1 ++
      if decimal.digits.drop 1 = [] then [] else '.' :: decimal.digits.drop 1), c ≠ 'e' := by
    intro c hc
    rcases List.mem_append.mp hc with hsign | hmantissa
    · exact h c hsign
    · rcases List.mem_append.mp hmantissa with hfirst | hfraction
      · exact digits_ne_exponent decimal c (List.mem_of_mem_take hfirst)
      · split at hfraction
        · simp at hfraction
        · rcases List.mem_cons.mp hfraction with rfl | hdigit
          · decide
          · exact digits_ne_exponent decimal c (List.mem_of_mem_drop hdigit)
  simp only [Decimal.exponential, Decimal.scientific]
  rw [← List.append_assoc, signPower_append hfront, List.append_assoc]
  congr 3
  by_cases hnegative : decimal.point - 1 < 0
  · simp [hnegative]
  · have hhead : (Nat.toDigits 10 (decimal.point - 1).natAbs).head? ≠ some '-' := by
      intro hminus
      have hdigit := Nat.isDigit_of_mem_toDigits (by decide) (by decide)
        (List.mem_of_mem_head? (Option.mem_def.mpr hminus))
      exact absurd hdigit (by decide)
    simp [hnegative, hhead]

theorem sign_ne_exponent (value : Float) : ∀ c ∈ sign value, c ≠ 'e' := by
  intro c hc
  rw [sign] at hc
  split at hc
  · rw [List.mem_singleton.mp hc]
    decide
  · simp at hc

section Bounds

variable {value : Float}

theorem shortest_minPositional : Decimal.shortest (Decimal.magnitude ⟨1, -6⟩) = ⟨1, -6⟩ := by
  decide +kernel

theorem shortest_maxPositional : Decimal.shortest (Decimal.magnitude ⟨1, 21⟩) = ⟨1, 21⟩ := by
  decide +kernel

theorem minPositional_eq : minPositional = toFloat (Decimal.magnitude ⟨1, -6⟩) :=
  float_ext (by decide +kernel)

theorem maxPositional_eq : maxPositional = toFloat (Decimal.magnitude ⟨1, 21⟩) :=
  float_ext (by decide +kernel)

theorem minPositional_le_iff (finite : value.isFinite = true) (nonzero : ofFloat value ≠ 0) :
    minPositional ≤ value.abs ↔ -6 < (Decimal.shortest (ofFloat value)).point := by
  have hindex := isFinite_iff.mp finite
  rw [minPositional_eq, abs_eq finite, toFloat_le_iff (by decide +kernel) hindex,
    Decimal.magnitude_power_le_iff shortest_minPositional hindex nonzero]

theorem lt_maxPositional_iff (finite : value.isFinite = true) (nonzero : ofFloat value ≠ 0) :
    value.abs < maxPositional ↔ (Decimal.shortest (ofFloat value)).point ≤ 21 := by
  have hindex := isFinite_iff.mp finite
  rw [maxPositional_eq, abs_eq finite, toFloat_lt_iff hindex (by decide +kernel), ← Nat.not_le,
    Decimal.magnitude_power_le_iff shortest_maxPositional hindex nonzero, Int.not_lt]

theorem plain_of_isFinite (finite : value.isFinite = true) (nonzero : ofFloat value ≠ 0) :
    plain value = String.ofList (sign value ++ (Decimal.shortest (ofFloat value)).positional) := by
  have hinfinity : ofFloat value ≠ infinity := (isFinite_iff.mp finite).ne
  simp only [plain, isNaN_of_isFinite finite, Bool.false_eq_true, if_false, if_neg hinfinity,
    if_neg nonzero]

/-- The comparisons with the two bounds choose the notation that the place of the point decides. -/
theorem text_eq_natural (finite : value.isFinite = true) (nonzero : ofFloat value ≠ 0) :
    text value = String.ofList (sign value ++ (Decimal.shortest (ofFloat value)).natural) := by
  simp only [text, if_neg nonzero, finite, Bool.not_true, Bool.false_eq_true, if_false,
    minPositional_le_iff finite nonzero, lt_maxPositional_iff finite nonzero, Decimal.natural]
  split
  · exact plain_of_isFinite finite nonzero
  · rw [signPower_exponential (sign_ne_exponent value)]

theorem text_of_zero (zero : ofFloat value = 0) : text value = "0" := by
  rw [text, zero]
  rfl

end Bounds

end Number
end Calculator
