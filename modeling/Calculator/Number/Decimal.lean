import Calculator.Number.Magnitude

/-!
Decimal numbers with a natural coefficient and a power of ten, the double that each of them reads
as, and back: every finite double is itself such a decimal, and `shortest` is the one with the
fewest digits that still reads as it, the nearer of two, the larger when both are equally near.
-/

namespace Calculator

structure Decimal where
  coefficient : Nat
  exponent : Int
deriving DecidableEq, Repr

namespace Decimal

/-- The index of the double nearest to a decimal. Numbers from ten to the 309th on are infinite and
numbers up to ten to the minus 324th are zero; deciding these two ranges first bounds the powers of
ten that are computed. -/
def magnitude (decimal : Decimal) : Nat :=
  if decimal.coefficient = 0 then 0
  else if 309 ≤ decimal.exponent then Magnitude.infinity
  else if decimal.exponent + (decimal.coefficient.log2 + 1) ≤ -324 then 0
  else
    Magnitude.nearest (decimal.coefficient * Nat.pow 10 decimal.exponent.toNat)
      (Nat.pow 10 (-decimal.exponent).toNat)

def toFloat (decimal : Decimal) : Float :=
  Magnitude.toFloat decimal.magnitude

/-- The exact value of the double at an index. Dividing by a power of two is multiplying by the same
power of five and moving the decimal point. -/
def exact (index : Nat) : Decimal :=
  let significand := Magnitude.significand index
  let shift := Magnitude.shift index
  if Magnitude.unitExponent ≤ shift then
    ⟨significand * Nat.pow 2 (shift - Magnitude.unitExponent), 0⟩
  else
    let places := Magnitude.unitExponent - shift
    ⟨significand * Nat.pow 5 places, -(places : Int)⟩

/-- Drops trailing digits, rounding down. -/
def floor (decimal : Decimal) (dropped : Nat) : Decimal :=
  ⟨decimal.coefficient / Nat.pow 10 dropped, decimal.exponent + dropped⟩

/-- Drops trailing digits, rounding to the next decimal above. -/
def above (decimal : Decimal) (dropped : Nat) : Decimal :=
  ⟨decimal.coefficient / Nat.pow 10 dropped + 1, decimal.exponent + dropped⟩

/-- Drops trailing digits in the way that still reads as the double at an index, if there is one;
if there are two, in the nearer way, and at the same distance upwards. -/
def coarsen? (index : Nat) (decimal : Decimal) (dropped : Nat) : Option Decimal :=
  let floor := decimal.floor dropped
  let above := decimal.above dropped
  if floor.magnitude = index then
    let unit := Nat.pow 10 dropped
    if above.magnitude = index ∧ unit ≤ 2 * (decimal.coefficient % unit) then some above
    else some floor
  else if above.magnitude = index then some above
  else none

/-- Drops as many trailing digits as it can, at most the given number. -/
def coarsest (index : Nat) (decimal : Decimal) : Nat → Decimal
  | 0 => decimal
  | dropped + 1 =>
    match decimal.coarsen? index (dropped + 1) with
    | some coarse => coarse
    | none => decimal.coarsest index dropped

/-- The same decimal without trailing zeros. -/
def normalize (decimal : Decimal) : Decimal :=
  if decimal.coefficient ≠ 0 ∧ decimal.coefficient % 10 = 0 then
    normalize ⟨decimal.coefficient / 10, decimal.exponent + 1⟩
  else decimal
termination_by decimal.coefficient
decreasing_by omega

/-- The digits of the coefficient. -/
def digits (decimal : Decimal) : List Char :=
  Nat.toDigits 10 decimal.coefficient

/-- How many digits stand before the decimal point, when the first digit is not zero. -/
def point (decimal : Decimal) : Int :=
  decimal.digits.length + decimal.exponent

/-- The decimal with the fewest digits that reads as the double at an index. -/
def shortest (index : Nat) : Decimal :=
  let exact := exact index
  (exact.coarsest index (exact.digits.length - 1)).normalize

end Decimal
end Calculator
