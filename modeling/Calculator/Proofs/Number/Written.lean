import Calculator.Proofs.Number.Notation
import Calculator.Proofs.Number.Numerals

/-!
What a decimal is written as, with or without an exponent, is a numeral that reads as the same
double. The zeros that place the point are the only difference between the two decimals.
-/

namespace Calculator
namespace Decimal

variable (decimal : Decimal)

/-- A text is a numeral that reads as the same double as a decimal. -/
def Spells (numeral : Numeral) (text : List Char) : Prop :=
  numeral.WellFormed ∧ numeral.text = text ∧ numeral.decimal.magnitude = decimal.magnitude

theorem digits_ne_nil : decimal.digits ≠ [] :=
  Nat.toDigits_ne_nil

theorem value_of_digits : Nat.ofDigitChars 10 decimal.digits 0 = decimal.coefficient :=
  Nat.ofDigitChars_ten_toDigits

theorem isDigit_of_zeros {zeros : Nat} : ∀ c ∈ List.replicate zeros '0', c.isDigit = true := by
  intro c hc
  rw [List.eq_of_mem_replicate hc]
  rfl

theorem value_of_leading_zeros (zeros : Nat) (digits : List Char) :
    Nat.ofDigitChars 10 ('0' :: (List.replicate zeros '0' ++ digits)) 0 =
      Nat.ofDigitChars 10 digits 0 := by
  have hzeros : '0' :: (List.replicate zeros '0' ++ digits) =
      List.replicate (zeros + 1) '0' ++ digits := rfl
  rw [hzeros, Nat.ofDigitChars_append, Nat.ofDigitChars_replicate_zero, Nat.mul_zero]

theorem value_of_trailing_zeros (zeros : Nat) :
    Nat.ofDigitChars 10 (decimal.digits ++ List.replicate zeros '0') 0 =
      decimal.coefficient * 10 ^ zeros := by
  rw [Nat.ofDigitChars_append, Nat.ofDigitChars_replicate_zero, value_of_digits, Nat.mul_comm]

theorem decimal_eq {coefficient : Nat} {exponent : Int}
    (hcoefficient : coefficient = decimal.coefficient) (hexponent : exponent = decimal.exponent) :
    (⟨coefficient, exponent⟩ : Decimal) = decimal := by
  subst hcoefficient hexponent
  rfl

variable {decimal}

/-- Only zeros stand before the point, and some may stand behind it. -/
theorem spells_below_one (h : decimal.point ≤ 0) :
    decimal.Spells
      ⟨['0'], some (List.replicate (-decimal.point).toNat '0' ++ decimal.digits), none⟩
      ('0' :: '.' :: (List.replicate (-decimal.point).toNat '0' ++ decimal.digits)) := by
  have hpoint := decimal.point_eq
  refine ⟨⟨by simp, ?_, by simp, by simp⟩, by simp [Numeral.text], ?_⟩
  · rintro _ ⟨⟩ c hc
    exact (List.mem_append.mp hc).elim (isDigit_of_zeros c) (decimal.isDigit_of_digits c)
  · refine congrArg magnitude (decimal_eq decimal ?_ ?_)
    · exact (value_of_leading_zeros _ _).trans decimal.value_of_digits
    · simp only [Option.elim_none, Option.getD_some, List.length_append, List.length_replicate]
      omega

/-- A whole number, whose zeros become a part of the coefficient. -/
theorem spells_whole (h : decimal.digits.length ≤ decimal.point) :
    decimal.Spells
      ⟨decimal.digits ++ List.replicate (decimal.point - decimal.digits.length).toNat '0', none,
        none⟩
      (decimal.digits ++ List.replicate (decimal.point - decimal.digits.length).toNat '0') := by
  have hpoint := decimal.point_eq
  refine ⟨⟨?_, by simp, by simp, by simp [decimal.digits_ne_nil]⟩, by simp [Numeral.text], ?_⟩
  · intro c hc
    exact (List.mem_append.mp hc).elim (decimal.isDigit_of_digits c) (isDigit_of_zeros c)
  · simp only [Numeral.decimal, Option.getD_none, List.append_nil, value_of_trailing_zeros,
      Option.elim_none, List.length_nil]
    rw [magnitude_shift]
    exact congrArg magnitude (decimal_eq decimal rfl (by omega))

/-- The point stands between two digits. -/
theorem spells_mixed (hpositive : 0 < decimal.point) (h : decimal.point < decimal.digits.length) :
    decimal.Spells
      ⟨decimal.digits.take decimal.point.toNat, some (decimal.digits.drop decimal.point.toNat),
        none⟩
      (decimal.digits.take decimal.point.toNat ++ '.' ::
        decimal.digits.drop decimal.point.toNat) := by
  have hpoint := decimal.point_eq
  refine ⟨⟨?_, ?_, by simp, ?_⟩, by simp [Numeral.text], ?_⟩
  · exact fun c hc => decimal.isDigit_of_digits c (List.mem_of_mem_take hc)
  · rintro _ ⟨⟩ c hc
    exact decimal.isDigit_of_digits c (List.mem_of_mem_drop hc)
  · intro hempty
    have hlength := congrArg List.length hempty.1
    simp only [List.length_take, List.length_nil] at hlength
    omega
  · refine congrArg magnitude (decimal_eq decimal ?_ ?_)
    · simp [value_of_digits]
    · simp only [Option.elim_none, Option.getD_some, List.length_drop]
      omega

theorem spells_positional : ∃ numeral, decimal.Spells numeral decimal.positional := by
  rw [positional]
  split
  · rename_i hbelow
    exact ⟨_, spells_below_one hbelow⟩
  · split
    · rename_i hwhole
      exact ⟨_, spells_whole hwhole⟩
    · exact ⟨_, spells_mixed (by omega) (by omega)⟩

/-- A power of ten that always shows its sign. -/
def signedPower (power : Int) : PowerOfTen :=
  ⟨'e', some (if power < 0 then '-' else '+'), Nat.toDigits 10 power.natAbs⟩

theorem wellFormed_signedPower (power : Int) : (signedPower power).WellFormed where
  mark := .inl rfl
  sign := by
    rintro _ ⟨⟩
    split <;> simp
  digits := fun _ hc => Nat.isDigit_of_mem_toDigits (by decide) (by decide) hc
  nonempty := Nat.toDigits_ne_nil

theorem exponent_signedPower (power : Int) : (signedPower power).exponent = power := by
  simp only [PowerOfTen.exponent, signedPower, Nat.ofDigitChars_ten_toDigits]
  by_cases hnegative : power < 0
  · simp only [hnegative, if_true]
    omega
  · simp only [hnegative, if_false]
    simp
    omega

/-- The digits behind a point, which is left out if there are none. -/
def fraction? (digits : List Char) : Option (List Char) :=
  if digits = [] then none else some digits

theorem getD_fraction? (digits : List Char) : (fraction? digits).getD [] = digits := by
  rw [fraction?]
  split
  · rename_i hempty
    rw [hempty]
    rfl
  · rfl

theorem text_fraction? (digits : List Char) :
    (fraction? digits).elim [] ('.' :: ·) = if digits = [] then [] else '.' :: digits := by
  rw [fraction?]
  split <;> rfl

theorem mem_fraction? {digits found : List Char} (h : found ∈ fraction? digits) :
    found = digits := by
  rw [fraction?] at h
  split at h
  · simp at h
  · exact (Option.some.inj h).symm

theorem spells_scientific :
    decimal.Spells
      ⟨decimal.digits.take 1, fraction? (decimal.digits.drop 1),
        some (signedPower (decimal.point - 1))⟩
      decimal.scientific := by
  have hpoint := decimal.point_eq
  have hlength := List.length_pos_iff.mpr decimal.digits_ne_nil
  refine ⟨⟨?_, ?_, ?_, ?_⟩, ?_, ?_⟩
  · exact fun c hc => decimal.isDigit_of_digits c (List.mem_of_mem_take hc)
  · intro found hfound c hc
    rw [mem_fraction? hfound] at hc
    exact decimal.isDigit_of_digits c (List.mem_of_mem_drop hc)
  · rintro _ ⟨⟩
    exact wellFormed_signedPower _
  · intro hempty
    have htake := congrArg List.length hempty.1
    simp only [List.length_take, List.length_nil] at htake
    omega
  · simp only [Numeral.text, text_fraction?, scientific]
    rfl
  · refine congrArg magnitude (decimal_eq decimal ?_ ?_)
    · rw [getD_fraction?, List.take_append_drop, value_of_digits]
    · rw [getD_fraction?, List.length_drop, Option.elim_some, exponent_signedPower]
      omega

theorem spells_natural (decimal : Decimal) : ∃ numeral, decimal.Spells numeral decimal.natural := by
  rw [natural]
  split
  · exact spells_positional
  · exact ⟨_, spells_scientific⟩

end Decimal

namespace Number

open Magnitude

/-- A finite double without a sign is written as a numeral that has it as its value. -/
theorem exists_numeral_of_plain {value : Float} (finite : value.isFinite = true)
    (unsigned : isNegative value = false) :
    ∃ numeral : Numeral, numeral.WellFormed ∧ numeral.text = (plain value).toList ∧
      numeral.value = value := by
  by_cases hzero : ofFloat value = 0
  · obtain rfl : value = 0 := by rw [← toFloat_ofFloat finite unsigned, hzero]; rfl
    exact ⟨⟨['0'], none, none⟩, ⟨by simp, by simp, by simp, by simp⟩, by decide +kernel, rfl⟩
  · obtain ⟨numeral, hwell, htext, hmagnitude⟩ :=
      (Decimal.shortest (ofFloat value)).spells_positional
    refine ⟨numeral, hwell, ?_, ?_⟩
    · rw [htext, plain_of_isFinite finite hzero, sign, unsigned]
      simp
    · rw [Numeral.value, Decimal.toFloat, hmagnitude,
        Decimal.magnitude_shortest (isFinite_iff.mp finite), toFloat_ofFloat finite unsigned]

end Number
end Calculator
