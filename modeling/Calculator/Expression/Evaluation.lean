import Calculator.BuiltIn
import Calculator.Expression
import Calculator.Registers

/-!
The value of an expression. Operands are evaluated from left to right and the first failure is the
result. A call's name is looked up before its argument is evaluated. Every node has to have a finite
value, so an overflow is reported where it happens.
-/

namespace Calculator

def UnaryOperator.apply (arithmetic : Arithmetic) (operator : UnaryOperator) (value : Float) :
    Float :=
  match operator with
  | negate => -value
  | keep => value
  | degrees => arithmetic.radians value

namespace BinaryOperator

def compute (arithmetic : Arithmetic) : BinaryOperator → Float → Float → Float
  | add => arithmetic.add
  | subtract => arithmetic.subtract
  | multiply => arithmetic.multiply
  | divide => arithmetic.divide
  | power => arithmetic.power

/-- Whether an operator has no value at two operands. Some powers show this only by their result:
those that have no real value are not a number. -/
def isUndefinedAt (arithmetic : Arithmetic) (left right : Float) : BinaryOperator → Bool
  | divide => right == 0
  | power => (left == 0 && right < 0) || (arithmetic.power left right).isNaN
  | add | subtract | multiply => false

def apply (arithmetic : Arithmetic) (operator : BinaryOperator) (left right : Float)
    (position : Nat) : Except EvaluationError Float :=
  if operator.isUndefinedAt arithmetic left right then
    .error (.undefinedResult operator.text [left, right] position)
  else .ok (operator.compute arithmetic left right)

end BinaryOperator

/-- What a name that is not called stands for. -/
def Registers.valueOf (registers : Registers) (name : String) (position : Nat) :
    Except EvaluationError Float :=
  if name = answerName then .ok registers.lastAnswer
  else
    match Constant.named? name with
    | some constant => .ok constant.value
    | none => .error (.unknownReference name position)

def checkFinite (value : Float) (position : Nat) : Except EvaluationError Float :=
  if value.isFinite then .ok value else .error (.nonFiniteResult position)

def Expression.evaluate (arithmetic : Arithmetic) (registers : Registers) :
    Expression → Except EvaluationError Float
  | literal value position => checkFinite value position
  | reference name position => do
    let value ← registers.valueOf name position
    checkFinite value position
  | unary operator operand position => do
    let value ← operand.evaluate arithmetic registers
    checkFinite (operator.apply arithmetic value) position
  | binary operator left right position => do
    let leftValue ← left.evaluate arithmetic registers
    let rightValue ← right.evaluate arithmetic registers
    let value ← operator.apply arithmetic leftValue rightValue position
    checkFinite value position
  | call function argument position => do
    let builtIn ← BuiltIn.ofName function position
    let argumentValue ← argument.evaluate arithmetic registers
    let value ← builtIn.apply arithmetic argumentValue position
    checkFinite value position

end Calculator
