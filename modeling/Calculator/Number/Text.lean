import Calculator.Number.Decimal

/-!
How doubles are written: with the fewest digits that read back, and a sign in front of negative
ones. `plain` never uses an exponent. `text` uses one, with its sign, for numbers below a millionth
and for those from ten to the 21st on, and does not show the sign of a zero.
-/

namespace Calculator
namespace Decimal

/-- The digits with the decimal point in its place, which is not shown at the end of a whole
number. -/
def positional (decimal : Decimal) : List Char :=
  let digits := decimal.digits
  let point := decimal.point
  if point ≤ 0 then '0' :: '.' :: (List.replicate (-point).toNat '0' ++ digits)
  else if digits.length ≤ point then digits ++ List.replicate (point - digits.length).toNat '0'
  else digits.take point.toNat ++ '.' :: digits.drop point.toNat

/-- One digit before the point, and a power of ten that shows its sign if it is negative. -/
def exponential (decimal : Decimal) : List Char :=
  let power := decimal.point - 1
  let fraction := decimal.digits.drop 1
  decimal.digits.take 1 ++ (if fraction = [] then [] else '.' :: fraction)
    ++ 'e' :: ((if power < 0 then ['-'] else []) ++ Nat.toDigits 10 power.natAbs)

end Decimal

namespace Number

def isNegative (value : Float) : Bool :=
  Nat.pow 2 63 ≤ value.toBits.toNat

def sign (value : Float) : List Char :=
  if isNegative value then ['-'] else []

def plain (value : Float) : String :=
  if value.isNaN then "NaN"
  else
    let magnitude := Magnitude.ofFloat value
    String.ofList <| sign value ++
      if magnitude = Magnitude.infinity then "inf".toList
      else if magnitude = 0 then ['0']
      else (Decimal.shortest magnitude).positional

/-- Puts a plus sign in front of the power of ten that a text ends in, if there is one and it is not
negative. -/
def signPower (text : List Char) : List Char :=
  match text.dropWhile (· ≠ 'e') with
  | [] => text
  | mark :: power =>
    if power.head? = some '-' then text else text.takeWhile (· ≠ 'e') ++ mark :: '+' :: power

/-- The smallest size that is written without a power of ten. -/
def minPositional : Float := 1e-6

/-- The smallest size above it that is written with one. -/
def maxPositional : Float := 1e21

def text (value : Float) : String :=
  let magnitude := Magnitude.ofFloat value
  if magnitude = 0 then "0"
  else if !value.isFinite then plain value
  else if minPositional ≤ value.abs ∧ value.abs < maxPositional then plain value
  else String.ofList (signPower (sign value ++ (Decimal.shortest magnitude).exponential))

end Number
end Calculator
