import Calculator.Expression.Grammar

/-!
The grammar of expressions as a relation between lists of tokens and trees, and what a derivation
says about the tokens it covers.

A derivation also counts its nesting: how many constructs enclose the most deeply nested of its
signed operands. Parentheses, calls, signs and exponents count; chains of operators do not. The two
limits of the reader are not part of the relation.
-/

namespace Calculator
namespace Grammar

/-- The kinds of phrase, each built from the ones after it. -/
inductive Phrase where
  | expression
  | sum
  | product
  | signed
  | power
  | primary
deriving DecidableEq, Repr

def sumOperators : List BinaryOperator := [.add, .subtract]

def productOperators : List BinaryOperator := [.multiply, .divide]

def signOperators : List (Symbol × UnaryOperator) := [(.minus, .negate), (.plus, .keep)]

/-- A phrase that is spelled by tokens, has a tree and nests to a depth. -/
inductive Derives : Phrase → List PlacedToken → Expression → Nat → Prop where
  | literal (value : Float) (position : Nat) :
      Derives .primary [⟨position, .number value⟩] (.literal value position) 0
  | reference (name : String) (position : Nat) :
      Derives .primary [⟨position, .identifier name⟩] (.reference name position) 0
  | call (name : String) (position opening closing : Nat) {tokens : List PlacedToken}
      {argument : Expression} {nesting : Nat}
      (inner : Derives .expression tokens argument nesting) :
      Derives .primary
        (⟨position, .identifier name⟩ :: ⟨opening, .symbol .opening⟩ ::
          (tokens ++ [⟨closing, .symbol .closing⟩]))
        (.call name argument position) (nesting + 1)
  | group (opening closing : Nat) {tokens : List PlacedToken} {node : Expression} {nesting : Nat}
      (inner : Derives .expression tokens node nesting) :
      Derives .primary
        (⟨opening, .symbol .opening⟩ :: (tokens ++ [⟨closing, .symbol .closing⟩]))
        node (nesting + 1)
  | base {tokens : List PlacedToken} {node : Expression} {nesting : Nat}
      (primary : Derives .primary tokens node nesting) : Derives .power tokens node nesting
  | raise (position : Nat) {tokens exponentTokens : List PlacedToken} {base exponent : Expression}
      {nesting exponentNesting : Nat} (left : Derives .primary tokens base nesting)
      (right : Derives .signed exponentTokens exponent exponentNesting) :
      Derives .power (tokens ++ ⟨position, .symbol .caret⟩ :: exponentTokens)
        (.binary .power base exponent position) (max nesting (exponentNesting + 1))
  | unsigned {tokens : List PlacedToken} {node : Expression} {nesting : Nat}
      (power : Derives .power tokens node nesting) : Derives .signed tokens node nesting
  | sign (position : Nat) {symbol : Symbol} {operator : UnaryOperator} {tokens : List PlacedToken}
      {operand : Expression} {nesting : Nat} (known : (symbol, operator) ∈ signOperators)
      (inner : Derives .signed tokens operand nesting) :
      Derives .signed (⟨position, .symbol symbol⟩ :: tokens) (.unary operator operand position)
        (nesting + 1)
  | factor {tokens : List PlacedToken} {node : Expression} {nesting : Nat}
      (signed : Derives .signed tokens node nesting) : Derives .product tokens node nesting
  | multiply (position : Nat) {operator : BinaryOperator} {tokens rightTokens : List PlacedToken}
      {left right : Expression} {nesting rightNesting : Nat} (known : operator ∈ productOperators)
      (first : Derives .product tokens left nesting)
      (second : Derives .signed rightTokens right rightNesting) :
      Derives .product (tokens ++ ⟨position, .symbol operator.symbol⟩ :: rightTokens)
        (.binary operator left right position) (max nesting rightNesting)
  | term {tokens : List PlacedToken} {node : Expression} {nesting : Nat}
      (product : Derives .product tokens node nesting) : Derives .sum tokens node nesting
  | add (position : Nat) {operator : BinaryOperator} {tokens rightTokens : List PlacedToken}
      {left right : Expression} {nesting rightNesting : Nat} (known : operator ∈ sumOperators)
      (first : Derives .sum tokens left nesting)
      (second : Derives .product rightTokens right rightNesting) :
      Derives .sum (tokens ++ ⟨position, .symbol operator.symbol⟩ :: rightTokens)
        (.binary operator left right position) (max nesting rightNesting)
  | plain {tokens : List PlacedToken} {node : Expression} {nesting : Nat}
      (sum : Derives .sum tokens node nesting) : Derives .expression tokens node nesting
  | marked (position : Nat) {tokens : List PlacedToken} {node : Expression} {nesting : Nat}
      (sum : Derives .sum tokens node nesting) :
      Derives .expression (tokens ++ [⟨position, .identifier Expression.degreeName⟩])
        (.unary .degrees node position) nesting

variable {phrase : Phrase} {tokens : List PlacedToken} {node : Expression} {nesting : Nat}

/-- A phrase has a first token. It is no closing parenthesis, and it is a sign only where a signed
operand may stand. -/
theorem Derives.first (h : Derives phrase tokens node nesting) :
    ∃ next rest, tokens = next :: rest ∧ next.token ≠ .symbol .closing ∧
      (phrase = .power ∨ phrase = .primary → next.token.sign? = none) := by
  induction h with
  | literal | reference | call | group => exact ⟨_, _, rfl, by simp, fun _ => rfl⟩
  | sign position known =>
      refine ⟨_, _, rfl, ?_, by simp⟩
      intro closing
      cases closing
      simp [signOperators] at known
  | base _ ih =>
      obtain ⟨next, rest, rfl, hnext, hsign⟩ := ih
      exact ⟨next, rest, rfl, hnext, fun _ => hsign (.inr rfl)⟩
  | raise _ _ _ ih _ =>
      obtain ⟨next, rest, rfl, hnext, hsign⟩ := ih
      exact ⟨next, _, rfl, hnext, fun _ => hsign (.inr rfl)⟩
  | unsigned _ ih | factor _ ih | term _ ih | plain _ ih =>
      obtain ⟨next, rest, rfl, hnext, -⟩ := ih
      exact ⟨next, rest, rfl, hnext, by simp⟩
  | multiply _ _ _ _ ih _ | add _ _ _ _ ih _ | marked _ _ ih =>
      obtain ⟨next, rest, rfl, hnext, -⟩ := ih
      exact ⟨next, _, rfl, hnext, by simp⟩

theorem eq_of_mem_signOperators {symbol : Symbol} {operator : UnaryOperator}
    (h : (symbol, operator) ∈ signOperators) :
    symbol = .minus ∧ operator = .negate ∨ symbol = .plus ∧ operator = .keep := by
  simpa [signOperators] using h

theorem binaryOperator?_eq_some {token : Token} {operator : BinaryOperator} :
    token.binaryOperator? = some operator ↔ token = .symbol operator.symbol := by
  cases operator <;> cases token with
  | symbol sign => cases sign <;> simp [Token.binaryOperator?, BinaryOperator.symbol]
  | _ => simp [Token.binaryOperator?]

theorem additive?_eq_some {token : Token} {operator : BinaryOperator} :
    token.additive? = some operator ↔
      operator ∈ sumOperators ∧ token = .symbol operator.symbol := by
  rw [Token.additive?, Option.filter_eq_some_iff, binaryOperator?_eq_some, and_comm]
  simp [sumOperators]

theorem multiplicative?_eq_some {token : Token} {operator : BinaryOperator} :
    token.multiplicative? = some operator ↔
      operator ∈ productOperators ∧ token = .symbol operator.symbol := by
  rw [Token.multiplicative?, Option.filter_eq_some_iff, binaryOperator?_eq_some, and_comm]
  simp [productOperators]

theorem sign?_eq_some {token : Token} {operator : UnaryOperator} :
    token.sign? = some operator ↔
      ∃ symbol, (symbol, operator) ∈ signOperators ∧ token = .symbol symbol := by
  cases operator <;> cases token with
  | symbol sign => cases sign <;> simp [Token.sign?, signOperators]
  | _ => simp [Token.sign?, signOperators]

end Grammar
end Calculator
