import Calculator.Expression.Evaluation
import Calculator.Expression.Grammar
import Calculator.Shorthand
import Calculator.Token.Lexeme

/-!
From text to number: shorthands are expanded, the expanded text is read as tokens, the tokens as an
expression, and the expression is evaluated. The first of these that fails decides the error.
-/

namespace Calculator

/-- The expression that a text spells, once its shorthands are expanded. -/
def Expression.ofText (text : String) : Except SyntaxError Expression := do
  let tokens ← tokenize (Shorthand.expand text)
  Expression.ofTokens tokens

def evaluate (arithmetic : Arithmetic) (registers : Registers) (text : String) :
    Except CalculationError Float :=
  match Expression.ofText text with
  | .error error => .error (.inSyntax error)
  | .ok expression =>
    match expression.evaluate arithmetic registers with
    | .error error => .error (.inEvaluation error)
    | .ok value => .ok value

end Calculator
