import Calculator.Token

/-!
Expressions as trees. Every node carries the position of the token it comes from: the literal, the
name, the operator or the degree mark. Parentheses leave no node behind.
-/

namespace Calculator

inductive UnaryOperator where
  | negate
  | keep
  /-- Reads its operand as an angle in degrees and gives it in radians. -/
  | degrees
deriving DecidableEq, Repr

inductive BinaryOperator where
  | add
  | subtract
  | multiply
  | divide
  | power
deriving DecidableEq, Repr

inductive Expression where
  | literal (value : Float) (position : Nat)
  | reference (name : String) (position : Nat)
  | unary (operator : UnaryOperator) (operand : Expression) (position : Nat)
  | binary (operator : BinaryOperator) (left right : Expression) (position : Nat)
  | call (function : String) (argument : Expression) (position : Nat)
deriving DecidableEq

def BinaryOperator.symbol : BinaryOperator → Symbol
  | add => .plus
  | subtract => .minus
  | multiply => .star
  | divide => .slash
  | power => .caret

def BinaryOperator.text (operator : BinaryOperator) : String :=
  operator.symbol.char.toString

namespace Expression

/-- The name that marks the expression before it as an angle in degrees. -/
def degreeName : String := "deg"

def position : Expression → Nat
  | literal _ position | reference _ position | unary _ _ position | binary _ _ _ position
  | call _ _ position => position

/-- The number of nodes on the longest way down. -/
def height : Expression → Nat
  | literal _ _ | reference _ _ => 1
  | unary _ operand _ => operand.height + 1
  | binary _ left right _ => max left.height right.height + 1
  | call _ argument _ => argument.height + 1

end Expression

namespace Token

def binaryOperator? : Token → Option BinaryOperator
  | symbol .plus => some .add
  | symbol .minus => some .subtract
  | symbol .star => some .multiply
  | symbol .slash => some .divide
  | symbol .caret => some .power
  | _ => none

/-- The operators that join terms. -/
def additive? (token : Token) : Option BinaryOperator :=
  token.binaryOperator?.filter fun operator => operator = .add ∨ operator = .subtract

/-- The operators that join factors. -/
def multiplicative? (token : Token) : Option BinaryOperator :=
  token.binaryOperator?.filter fun operator => operator = .multiply ∨ operator = .divide

def sign? : Token → Option UnaryOperator
  | symbol .plus => some .keep
  | symbol .minus => some .negate
  | _ => none

end Token
end Calculator
