/-!
The finite non-negative doubles in ascending order. Zero has index zero, each double's index is the
number its bit pattern spells, and the index after the largest finite one belongs to infinity. All
of them are whole multiples of the smallest positive double, so comparing a fraction with a double
is a comparison of natural numbers, and rounding to nearest needs one rule for subnormal numbers,
normal numbers and overflow alike.
-/

namespace Calculator
namespace Magnitude

/-- The smallest positive double is two to the power of minus this. -/
def unitExponent : Nat := 1074

def infinity : Nat := 2047 * Nat.pow 2 52

def significand (index : Nat) : Nat :=
  if index < Nat.pow 2 52 then index else Nat.pow 2 52 + index % Nat.pow 2 52

def shift (index : Nat) : Nat :=
  index / Nat.pow 2 52 - 1

/-- The double at an index, counted in smallest positive doubles. Infinity's index gets the value
that the next double would have if the exponents did not end. -/
def units (index : Nat) : Nat :=
  significand index * Nat.pow 2 (shift index)

/-- The index of the largest double that has at most this many units. -/
def indexBelow (count : Nat) : Nat :=
  let shift := count.log2 - 52
  shift * Nat.pow 2 52 + count / Nat.pow 2 shift

/-- The index of the double nearest to a fraction; half way between two of them the even index is
taken. -/
def nearest (numerator denominator : Nat) : Nat :=
  let index := indexBelow (numerator * Nat.pow 2 unitExponent / denominator)
  let doubled := 2 * (numerator * Nat.pow 2 unitExponent)
  let middle := (units index + units (index + 1)) * denominator
  let upwards := middle < doubled ∨ (middle = doubled ∧ index % 2 = 1)
  min (if upwards then index + 1 else index) infinity

/-- The index of a float without its sign. -/
def ofFloat (value : Float) : Nat :=
  value.toBits.toNat % Nat.pow 2 63

def toFloat (index : Nat) : Float :=
  Float.ofBits index.toUInt64

end Magnitude
end Calculator
