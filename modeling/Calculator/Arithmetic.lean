import Calculator.Constant

/-!
The operations on doubles that evaluation is built on. Evaluation takes them as a value, so what it
does with their results can be studied for any arithmetic; `binary64` is the one that runs.
-/

namespace Calculator

structure Arithmetic where
  add : Float → Float → Float
  subtract : Float → Float → Float
  multiply : Float → Float → Float
  divide : Float → Float → Float
  power : Float → Float → Float
  /-- The angle in radians of an angle in degrees. -/
  radians : Float → Float
  squareRoot : Float → Float
  exp : Float → Float
  sin : Float → Float
  cos : Float → Float
  tan : Float → Float
  /-- The natural logarithm. -/
  log : Float → Float
  /-- The logarithm to base ten. -/
  log10 : Float → Float

/-- The arithmetic of the machine. Degrees are multiplied by the rounded length of one degree. -/
def Arithmetic.binary64 : Arithmetic where
  add x y := x + y
  subtract x y := x - y
  multiply x y := x * y
  divide x y := x / y
  power := Float.pow
  radians angle := angle * (Constant.pi.value / 180)
  squareRoot := Float.sqrt
  exp := Float.exp
  sin := Float.sin
  cos := Float.cos
  tan := Float.tan
  log := Float.log
  log10 := Float.log10

end Calculator
