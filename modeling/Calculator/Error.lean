import Calculator.Number.Text

/-!
What can be wrong with an expression, and how it is reported. Positions count the bytes of the
expanded text before the character or token that the error is about.
-/

namespace Calculator

/-- What the grammar admits at a place where something else was found. -/
inductive Expectation where
  | operand
  | closing
  | separator
deriving DecidableEq, Repr

inductive SyntaxError where
  | unexpectedCharacter (character : Char) (position : Nat)
  | emptyExpression
  | unexpectedToken (token : String) (expected : Expectation) (position : Nat)
  | unexpectedEnd (expected : Expectation)
  | unclosedParenthesis (position : Nat)
  | trailingToken (token : String) (position : Nat)
  | argumentCount (function : String) (found : Nat) (position : Nat)
  | tooDeep (position : Nat)
deriving DecidableEq, Repr

inductive EvaluationError where
  | unknownReference (name : String) (position : Nat)
  | unknownFunction (name : String) (position : Nat)
  | undefinedResult (operation : String) (operands : List Float) (position : Nat)
  | nonFiniteResult (position : Nat)
  | nonFiniteRegister (value : Float)
deriving DecidableEq

inductive CalculationError where
  | inSyntax (error : SyntaxError)
  | inEvaluation (error : EvaluationError)
deriving DecidableEq

def Expectation.text : Expectation → String
  | operand => "a number, name or '('"
  | closing => "')'"
  | separator => "',' or ')'"

def SyntaxError.message : SyntaxError → String
  | unexpectedCharacter character position =>
    s!"Error at {position}: Unexpected character '{character}'."
  | emptyExpression => "Error: Empty expression."
  | unexpectedToken token expected position =>
    s!"Error at {position}: Unexpected token '{token}', expected {expected.text}."
  | unexpectedEnd expected => s!"Error: Unexpected end of input, expected {expected.text}."
  | unclosedParenthesis position =>
    s!"Error at {position}: Expected closing parenthesis ')' but none found."
  | trailingToken token position =>
    s!"Error at {position}: Extra tokens after expression. Check your input: {token}"
  | argumentCount function found position =>
    s!"Error at {position}: Function {function} takes exactly one argument, found {found}."
  | tooDeep position => s!"Error at {position}: Expression is nested too deeply."

def EvaluationError.message : EvaluationError → String
  | unknownReference name position => s!"Error at {position}: Unknown reference '{name}'."
  | unknownFunction name position => s!"Error at {position}: Unknown function '{name}'."
  | undefinedResult operation operands position =>
    let written := String.intercalate ", " (operands.map Number.text)
    s!"Error at {position}: {operation} is undefined for ({written})."
  | nonFiniteResult position => s!"Error at {position}: Result is not a finite number."
  | nonFiniteRegister value =>
    s!"Error: Registers only hold finite numbers, got {Number.plain value}."

def CalculationError.message : CalculationError → String
  | inSyntax error => error.message
  | inEvaluation error => error.message

end Calculator
