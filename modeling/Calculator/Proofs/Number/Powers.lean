import Calculator.Number.Text
import Mathlib.Tactic.Ring

/-!
What the numbers are made of, in terms of powers as they are calculated with.
-/

namespace Calculator
namespace Magnitude

theorem infinity_eq : infinity = 2047 * 2 ^ 52 := rfl

theorem significand_eq (index : Nat) :
    significand index = if index < 2 ^ 52 then index else 2 ^ 52 + index % 2 ^ 52 := rfl

theorem shift_eq (index : Nat) : shift index = index / 2 ^ 52 - 1 := rfl

theorem units_eq (index : Nat) : units index = significand index * 2 ^ shift index := rfl

theorem indexBelow_eq (count : Nat) :
    indexBelow count = (count.log2 - 52) * 2 ^ 52 + count / 2 ^ (count.log2 - 52) := rfl

theorem nearest_eq (numerator denominator : Nat) :
    nearest numerator denominator =
      let index := indexBelow (numerator * 2 ^ unitExponent / denominator)
      let doubled := 2 * (numerator * 2 ^ unitExponent)
      let middle := (units index + units (index + 1)) * denominator
      min (if middle < doubled ∨ (middle = doubled ∧ index % 2 = 1) then index + 1 else index)
        infinity := by
  simp only [nearest, Nat.pow_eq]

theorem ofFloat_eq (value : Float) : ofFloat value = value.toBits.toNat % 2 ^ 63 := rfl

theorem isNegative_iff {value : Float} :
    Number.isNegative value = true ↔ 2 ^ 63 ≤ value.toBits.toNat :=
  decide_eq_true_iff

end Magnitude

namespace Decimal

theorem magnitude_eq (decimal : Decimal) :
    decimal.magnitude =
      if decimal.coefficient = 0 then 0
      else if 309 ≤ decimal.exponent then Magnitude.infinity
      else if decimal.exponent + (decimal.coefficient.log2 + 1) ≤ -324 then 0
      else
        Magnitude.nearest (decimal.coefficient * 10 ^ decimal.exponent.toNat)
          (10 ^ (-decimal.exponent).toNat) := rfl

theorem exact_eq (index : Nat) :
    exact index =
      if Magnitude.unitExponent ≤ Magnitude.shift index then
        ⟨Magnitude.significand index * 2 ^ (Magnitude.shift index - Magnitude.unitExponent), 0⟩
      else
        ⟨Magnitude.significand index * 5 ^ (Magnitude.unitExponent - Magnitude.shift index),
          -((Magnitude.unitExponent - Magnitude.shift index : Nat) : Int)⟩ := rfl

end Decimal
end Calculator
