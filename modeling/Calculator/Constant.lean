/-!
The constants that expressions can name.
-/

namespace Calculator

inductive Constant where
  | pi
  | e
deriving DecidableEq, Repr

namespace Constant

def name : Constant → String
  | pi => "pi"
  | e => "e"

/-- What a keypad types for a constant. -/
def symbol : Constant → String
  | pi => "π"
  | e => "e"

/-- The double nearest to a constant. -/
def value : Constant → Float
  | pi => 3.141592653589793
  | e => 2.718281828459045

def all : List Constant :=
  [pi, e]

def named? (name : String) : Option Constant :=
  all.find? (·.name = name)

end Constant
end Calculator
