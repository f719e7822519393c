import Calculator.Proofs.Number.Fewest

/-!
The text of every finite number.

It consists of the digits of the shortest decimal, and the number of digits and the place of the
point alone say how they are laid out: as a whole number, around a point, behind zeros, or with a
power of ten.
-/

namespace Calculator
namespace Number

open Magnitude

/-- Digits with a point behind the first so many of them. A point behind the 21st place, or more
than five zeros between the point and the digits, is expressed as a power of ten. -/
def layout (digits : List Char) (point : Int) : List Char :=
  if digits.length ≤ point ∧ point ≤ 21 then
    digits ++ List.replicate (point - digits.length).toNat '0'
  else if 0 < point ∧ point ≤ 21 then
    digits.take point.toNat ++ '.' :: digits.drop point.toNat
  else if -6 < point ∧ point ≤ 0 then
    '0' :: '.' :: (List.replicate (-point).toNat '0' ++ digits)
  else
    digits.take 1 ++ (if digits.length = 1 then [] else '.' :: digits.drop 1) ++
      'e' :: (if 0 < point - 1 then '+' else '-') :: Nat.toDigits 10 (point - 1).natAbs

theorem positional_eq_layout {decimal : Decimal} (hlow : -6 < decimal.point)
    (hhigh : decimal.point ≤ 21) :
    decimal.positional = layout decimal.digits decimal.point := by
  have hlength := decimal.length_digits_pos
  simp only [Decimal.positional, layout]
  split
  · rename_i hbelow
    rw [if_neg (by omega), if_neg (by omega), if_pos ⟨hlow, hbelow⟩]
  · rename_i habove
    split
    · rename_i hwhole
      rw [if_pos ⟨hwhole, hhigh⟩]
    · rename_i hmixed
      rw [if_neg (fun h => hmixed h.1), if_pos ⟨by omega, hhigh⟩]

theorem scientific_eq_layout {decimal : Decimal} (h : ¬ (-6 < decimal.point ∧ decimal.point ≤ 21)) :
    decimal.scientific = layout decimal.digits decimal.point := by
  have hlength := decimal.length_digits_pos
  have hfraction : decimal.digits.drop 1 = [] ↔ decimal.digits.length = 1 := by
    rw [List.drop_eq_nil_iff]
    omega
  have hsign : decimal.point - 1 < 0 ↔ ¬ 0 < decimal.point - 1 := by omega
  rw [layout, if_neg (by omega), if_neg (by omega), if_neg (by omega)]
  simp only [Decimal.scientific, hfraction, hsign, ite_not]

theorem natural_eq_layout (decimal : Decimal) :
    decimal.natural = layout decimal.digits decimal.point := by
  rw [Decimal.natural]
  split
  · rename_i h
    exact positional_eq_layout h.1 h.2
  · rename_i h
    exact scientific_eq_layout h

theorem sign_eq {value : Float} (finite : value.isFinite = true) (nonzero : ofFloat value ≠ 0) :
    sign value = if value < 0 then ['-'] else [] := by
  have hnegative : value < 0 ↔ isNegative value = true := by
    rw [lt_zero_iff finite]
    exact and_iff_left nonzero
  simp only [sign, hnegative]

/-- Zero is written without its sign. Every other finite number has one shortest decimal, and its
text is a minus sign, if it is negative, and the digits of this decimal around the point. -/
theorem text_lays_out_shortest_digits (value : Float) (finite : value.isFinite = true) :
    ((value == 0) = true → text value = "0") ∧
      ((value == 0) = false →
        (∃! decimal, Decimal.IsShortest value decimal) ∧
          ∀ decimal, Decimal.IsShortest value decimal →
            (text value).toList =
              (if value < 0 then ['-'] else []) ++ layout decimal.digits decimal.point) := by
  have hzero : (value == 0) = true ↔ ofFloat value = 0 := by
    rw [← mem_zeros_iff_beq, mem_zeros_iff]
  constructor
  · exact fun h => text_of_zero (hzero.mp h)
  · intro h
    have nonzero : ofFloat value ≠ 0 := by
      rw [Ne, ← hzero, h]
      decide
    have hshortest := Decimal.isShortest_shortest finite nonzero
    refine ⟨⟨_, hshortest, fun other hother => hother.unique hshortest⟩, fun decimal hdecimal => ?_⟩
    rw [text_eq_natural finite nonzero, String.toList_ofList, natural_eq_layout,
      sign_eq finite nonzero, hdecimal.unique hshortest]

theorem text_of_negative_power :
    (-1.5e-7 : Float).isFinite = true ∧ Decimal.IsShortest (-1.5e-7) ⟨15, -8⟩ ∧
      (∃! decimal, Decimal.IsShortest (-1.5e-7) decimal) ∧
      (text (-1.5e-7)).toList = "-1.5e-7".toList := by
  have finite : (-1.5e-7 : Float).isFinite = true := by decide +kernel
  have hshortest : Decimal.IsShortest (-1.5e-7) ⟨15, -8⟩ := by
    have hdecimal : Decimal.shortest (ofFloat (-1.5e-7)) = ⟨15, -8⟩ := by decide +kernel
    rw [← hdecimal]
    exact Decimal.isShortest_shortest finite (by decide +kernel)
  have hnonzero : ((-1.5e-7 : Float) == 0) = false := by decide +kernel
  obtain ⟨hunique, htext⟩ := (text_lays_out_shortest_digits (-1.5e-7) finite).2 hnonzero
  refine ⟨finite, hshortest, hunique, (htext _ hshortest).trans ?_⟩
  decide +kernel

end Number
end Calculator
