import Calculator.Proofs.Evaluation
import Calculator.Proofs.Grammar.Derivation

/-!
What the tokens of a derivation look like from outside.

The parentheses of a phrase begin with an opening one and end with a closing one. So a name with a
parenthesis behind it that reaches to the end, and none in between, is a single call. A phrase that
ends in a name refers to it, unless the name is its degree mark.
-/

namespace Calculator

def Token.parentheses : Token → List Char
  | .symbol .opening => ['(']
  | .symbol .closing => [')']
  | _ => []

namespace Grammar

def parentheses (tokens : List PlacedToken) : List Char :=
  tokens.flatMap (·.token.parentheses)

theorem parentheses_cons (next : PlacedToken) (rest : List PlacedToken) :
    parentheses (next :: rest) = next.token.parentheses ++ parentheses rest := rfl

theorem parentheses_append (tokens rest : List PlacedToken) :
    parentheses (tokens ++ rest) = parentheses tokens ++ parentheses rest :=
  List.flatMap_append

/-- Parentheses that do not begin with a closing one and do not end with an opening one. -/
def Enclosed (parentheses : List Char) : Prop :=
  parentheses.head? ≠ some ')' ∧ parentheses.getLast? ≠ some '('

theorem enclosed_nil : Enclosed [] := by
  simp [Enclosed]

theorem Enclosed.append {first second : List Char} (hfirst : Enclosed first)
    (hsecond : Enclosed second) : Enclosed (first ++ second) := by
  cases first with
  | nil => exact hsecond
  | cons c rest =>
      refine ⟨hfirst.1, ?_⟩
      rw [List.getLast?_append]
      cases hlast : second.getLast? with
      | none => exact hfirst.2
      | some last => simpa [hlast] using hsecond.2

theorem enclosed_wrap (inner : List Char) : Enclosed ('(' :: (inner ++ [')'])) := by
  refine ⟨by simp, ?_⟩
  rw [← List.cons_append, List.getLast?_append]
  simp

theorem parentheses_operator {operator : BinaryOperator} :
    (Token.symbol operator.symbol).parentheses = [] := by
  cases operator <;> rfl

theorem parentheses_sign {symbol : Symbol} {operator : UnaryOperator}
    (known : (symbol, operator) ∈ signOperators) : (Token.symbol symbol).parentheses = [] := by
  rcases eq_of_mem_signOperators known with ⟨rfl, -⟩ | ⟨rfl, -⟩ <;> rfl

theorem enclosed_join {tokens rest : List PlacedToken} (operator : BinaryOperator) {position : Nat}
    (hleft : Enclosed (parentheses tokens)) (hright : Enclosed (parentheses rest)) :
    Enclosed (parentheses (tokens ++ ⟨position, .symbol operator.symbol⟩ :: rest)) := by
  rw [parentheses_append, parentheses_cons, parentheses_operator]
  exact hleft.append hright

variable {phrase : Phrase} {tokens : List PlacedToken} {node : Expression} {nesting : Nat}

theorem Derives.enclosed (h : Derives phrase tokens node nesting) :
    Enclosed (parentheses tokens) := by
  induction h with
  | literal | reference => exact enclosed_nil
  | call _ _ _ _ _ _ | group _ _ _ _ =>
      simp only [parentheses_cons, parentheses_append]
      exact enclosed_wrap _
  | base _ ih | unsigned _ ih | factor _ ih | term _ ih | plain _ ih => exact ih
  | raise position _ _ ihLeft ihRight =>
      exact enclosed_join .power ihLeft ihRight
  | sign position known _ ih =>
      rw [parentheses_cons, parentheses_sign known]
      exact ih
  | multiply position _ _ _ ihLeft ihRight | add position _ _ _ ihLeft ihRight =>
      exact enclosed_join _ ihLeft ihRight
  | marked position _ ih =>
      rw [parentheses_append]
      exact ih.append enclosed_nil

/-- The tokens of a call with an argument. -/
def callTokens (name : String) (position opening closing : Nat) (inner : List PlacedToken) :
    List PlacedToken :=
  ⟨position, .identifier name⟩ :: ⟨opening, .symbol .opening⟩ ::
    (inner ++ [⟨closing, .symbol .closing⟩])

variable {name : String} {position opening closing : Nat} {inner : List PlacedToken}

/-- A call whose argument has no parentheses is not the two sides of an operator: the left side
would end with its opening parenthesis. -/
theorem callTokens_ne_join {left right : List PlacedToken} (operator : BinaryOperator) {place : Nat}
    (flat : parentheses inner = []) (hleft : left ≠ []) (enclosed : Enclosed (parentheses left)) :
    left ++ ⟨place, .symbol operator.symbol⟩ :: right ≠
      callTokens name position opening closing inner := by
  intro shape
  have hoperator : (Token.symbol operator.symbol).parentheses = [] := parentheses_operator
  cases left with
  | nil => exact hleft rfl
  | cons next more =>
      obtain ⟨rfl, hmore⟩ := List.cons.inj shape
      cases more with
      | nil =>
          obtain ⟨heq, -⟩ := List.cons.inj hmore
          rw [(PlacedToken.mk.inj heq).2] at hoperator
          simp [Token.parentheses] at hoperator
      | cons next more =>
          obtain ⟨rfl, hinner⟩ := List.cons.inj hmore
          rcases List.append_eq_append_iff.mp hinner with
            ⟨between, rfl, -⟩ | ⟨between, -, hclosing⟩
          · rw [parentheses_append] at flat
            obtain ⟨hmore, -⟩ := List.append_eq_nil_iff.mp flat
            simp [parentheses_cons, Token.parentheses, hmore, Enclosed] at enclosed
          · cases between with
            | nil =>
                obtain ⟨heq, -⟩ := List.cons.inj hclosing
                rw [← (PlacedToken.mk.inj heq).2] at hoperator
                simp [Token.parentheses] at hoperator
            | cons _ _ => simp at hclosing

/-- A call whose argument has no parentheses can only be derived as a call. -/
theorem Derives.of_callTokens (h : Derives phrase tokens node nesting)
    (shape : tokens = callTokens name position opening closing inner)
    (flat : parentheses inner = []) :
    ∃ argument depth, Derives .expression inner argument depth ∧
      node = .call name argument position ∧ nesting = depth + 1 := by
  induction h with
  | literal | reference | group => simp [callTokens] at shape
  | call _ _ _ _ argument _ =>
      simp only [callTokens, List.cons.injEq, PlacedToken.mk.injEq, Token.identifier.injEq] at shape
      obtain ⟨⟨rfl, rfl⟩, -, shape⟩ := shape
      obtain ⟨rfl, -⟩ := List.append_inj' shape rfl
      exact ⟨_, _, argument, rfl, rfl⟩
  | base _ ih | unsigned _ ih | factor _ ih | term _ ih | plain _ ih => exact ih shape
  | raise _ left _ _ _ =>
      obtain ⟨_, _, hne, -⟩ := left.first
      exact absurd shape (callTokens_ne_join .power flat (by simp [hne]) left.enclosed)
  | sign => simp [callTokens] at shape
  | multiply _ _ left _ _ _ | add _ _ left _ _ _ =>
      obtain ⟨_, _, hne, -⟩ := left.first
      exact absurd shape (callTokens_ne_join _ flat (by simp [hne]) left.enclosed)
  | marked _ _ _ =>
      have := congrArg List.getLast? shape
      simp [callTokens, List.getLast?_cons, List.getLast?_append] at this

theorem getLast?_join {left right : List PlacedToken} {next : PlacedToken} (h : right ≠ []) :
    (left ++ next :: right).getLast? = right.getLast? := by
  cases right with
  | nil => exact absurd rfl h
  | cons => rw [List.getLast?_append, List.getLast?_cons_cons, List.getLast?_cons, Option.some_or]

/-- Where a phrase without a degree mark ends in a name and has a value, the name has one. -/
theorem Derives.valueOf_last {arithmetic : Arithmetic} {registers : Registers} {value : Float}
    (h : Derives phrase tokens node nesting) (unmarked : phrase ≠ .expression)
    (last : tokens.getLast? = some ⟨position, .identifier name⟩)
    (evaluated : node.evaluate arithmetic registers = .ok value) :
    ∃ named, registers.valueOf name position = .ok named := by
  induction h generalizing value with
  | literal => simp at last
  | reference =>
      simp only [List.getLast?_singleton, Option.some.injEq, PlacedToken.mk.injEq,
        Token.identifier.injEq] at last
      obtain ⟨rfl, rfl⟩ := last
      exact ⟨value, (Expression.evaluate_reference_eq_ok.mp evaluated).1⟩
  | call | group => simp [List.getLast?_cons, List.getLast?_append] at last
  | base _ ih | unsigned _ ih | factor _ ih | term _ ih => exact ih (by simp) last evaluated
  | raise _ _ right _ ih | multiply _ _ _ right _ ih | add _ _ _ right _ ih =>
      obtain ⟨_, _, hne, -⟩ := right.first
      rw [getLast?_join (by simp [hne])] at last
      obtain ⟨_, _, _, hright, -⟩ := Expression.evaluate_binary_eq_ok.mp evaluated
      exact ih (by simp) last hright
  | sign _ _ inner ih =>
      obtain ⟨_, _, hne, -⟩ := inner.first
      rw [hne, List.getLast?_cons_cons, ← hne] at last
      obtain ⟨_, hoperand, -⟩ := Expression.evaluate_unary_eq_ok.mp evaluated
      exact ih (by simp) last hoperand
  | plain | marked => exact absurd rfl unmarked

end Grammar
end Calculator
