import Calculator.Arithmetic
import Calculator.Error

/-!
The functions that a call can name. All take one argument; the logarithms and the square root are
undefined for a part of the numbers.
-/

namespace Calculator

inductive BuiltIn where
  | sin
  | cos
  | tan
  | exp
  | log
  | log10
  | squareRoot
deriving DecidableEq, Repr

namespace BuiltIn

def name : BuiltIn → String
  | sin => "sin"
  | cos => "cos"
  | tan => "tan"
  | exp => "exp"
  | log => "log"
  | log10 => "log10"
  | squareRoot => "sqrt"

/-- The beginning of a call. -/
def opening (builtIn : BuiltIn) : String :=
  builtIn.name ++ "("

def all : List BuiltIn :=
  [sin, cos, tan, exp, log, log10, squareRoot]

def named? (name : String) : Option BuiltIn :=
  all.find? (·.name = name)

def ofName (name : String) (position : Nat) : Except EvaluationError BuiltIn :=
  match named? name with
  | some builtIn => .ok builtIn
  | none => .error (.unknownFunction name position)

/-- Whether a function has no value at an argument. -/
def isUndefinedAt (argument : Float) : BuiltIn → Bool
  | log | log10 => argument ≤ 0
  | squareRoot => argument < 0
  | sin | cos | tan | exp => false

def compute (arithmetic : Arithmetic) : BuiltIn → Float → Float
  | sin => arithmetic.sin
  | cos => arithmetic.cos
  | tan => arithmetic.tan
  | exp => arithmetic.exp
  | log => arithmetic.log
  | log10 => arithmetic.log10
  | squareRoot => arithmetic.squareRoot

def apply (arithmetic : Arithmetic) (builtIn : BuiltIn) (argument : Float) (position : Nat) :
    Except EvaluationError Float :=
  if builtIn.isUndefinedAt argument then
    .error (.undefinedResult builtIn.name [argument] position)
  else .ok (builtIn.compute arithmetic argument)

end BuiltIn
end Calculator
