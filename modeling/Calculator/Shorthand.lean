import Calculator.Shorthand.Degrees
import Calculator.Shorthand.Substitution

/-!
Shorthands of the input language. Expressions may use keypad signs, symbols for the constants,
percents and trigonometric calls in degrees; `expand` replaces all of them, one kind after the
other, by the plain expressions they abbreviate.
-/

namespace Calculator

inductive Shorthand where
  | operators
  | constants
  | degrees
  | percents
deriving DecidableEq, Repr

namespace Shorthand

/-- Expands one kind of shorthand and leaves the others alone. -/
def expandIn : Shorthand → List Char → List Char
  | operators => expandOperators
  | constants => expandConstants
  | degrees => markDegrees
  | percents => expandPercents

/-- All kinds, in the order in which they are expanded. -/
def all : List Shorthand :=
  [operators, constants, degrees, percents]

def expandAll (text : List Char) : List Char :=
  all.foldl (fun text shorthand => shorthand.expandIn text) text

def expand (text : String) : String :=
  String.ofList (expandAll text.toList)

end Shorthand
end Calculator
