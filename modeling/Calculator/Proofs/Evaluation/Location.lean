import Calculator.Proofs.Calculation
import Calculator.Proofs.Evaluation.Errors
import Calculator.Proofs.Grammar.Location
import Calculator.Proofs.Token.Cut

/-!
Where the errors of an evaluation point, from the text to the value.

Every node of an expression has the position of the token that it was made from, so an error that a
node reports points at this token and names it. With the errors of the grammar and those of the
tokens this covers all errors of a calculation: each points into the expanded text, at what it is
about.
-/

namespace Calculator

open Grammar (Phrase Derives bind_eq_ok bind_eq_error)

variable {tokens whole : List PlacedToken} {node : Expression} {name : String} {position : Nat}

def UnaryOperator.token : UnaryOperator → Token
  | negate => .symbol .minus
  | keep => .symbol .plus
  | degrees => .identifier Expression.degreeName

theorem Called.mem (h : Called tokens name position) : ⟨position, .identifier name⟩ ∈ tokens := by
  obtain ⟨opening, hcalled⟩ := h
  exact hcalled.subset List.mem_cons_self

namespace Expression

/-- The token that a node is made from stands at its position. -/
def StandsIn (tokens : List PlacedToken) : Expression → Prop
  | literal value position => ⟨position, .number value⟩ ∈ tokens
  | reference name position => ⟨position, .identifier name⟩ ∈ tokens
  | unary operator _ position => ⟨position, operator.token⟩ ∈ tokens
  | binary operator _ _ position => ⟨position, .symbol operator.symbol⟩ ∈ tokens
  | call function _ position => Called tokens function position

theorem StandsIn.widen (h : node.StandsIn tokens) (inside : tokens <:+: whole) :
    node.StandsIn whole := by
  cases node with
  | literal | reference | unary | binary => exact inside.subset h
  | call => exact Called.widen h inside

theorem StandsIn.token_at (h : node.StandsIn tokens) :
    ∃ token, ⟨node.position, token⟩ ∈ tokens := by
  cases node with
  | literal | reference | unary | binary => exact ⟨_, h⟩
  | call => exact ⟨_, Called.mem h⟩

theorem standsIn_join {operator : BinaryOperator} {left right : Expression}
    {leftTokens rightTokens : List PlacedToken}
    (hleft : ∀ part ∈ left.parts, part.StandsIn leftTokens)
    (hright : ∀ part ∈ right.parts, part.StandsIn rightTokens) :
    ∀ part ∈ (binary operator left right position).parts,
      part.StandsIn (leftTokens ++ ⟨position, .symbol operator.symbol⟩ :: rightTokens) := by
  intro part hpart
  rcases List.mem_cons.mp hpart with rfl | hpart
  · exact List.mem_append_right leftTokens List.mem_cons_self
  rcases List.mem_append.mp hpart with hpart | hpart
  · exact (hleft part hpart).widen (List.prefix_append _ _).isInfix
  · refine StandsIn.widen ?_ (List.suffix_append leftTokens _).isInfix
    exact (hright part hpart).widen (List.suffix_cons _ rightTokens).isInfix

/-- All nodes of an expression stand in the tokens that derive it. -/
theorem standsIn_of_derives {phrase : Phrase} {nesting : Nat}
    (h : Derives phrase tokens node nesting) : ∀ part ∈ node.parts, part.StandsIn tokens := by
  induction h with
  | literal | reference =>
      intro part hpart
      obtain rfl := List.mem_singleton.mp hpart
      exact List.mem_cons_self
  | call name position opening closing _ ih =>
      intro part hpart
      rcases List.mem_cons.mp hpart with rfl | hpart
      · exact ⟨opening, [], _, rfl⟩
      · exact (ih part hpart).widen ⟨[_, _], [_], rfl⟩
  | group opening closing _ ih =>
      exact fun part hpart => (ih part hpart).widen ⟨[_], [_], rfl⟩
  | base _ ih | unsigned _ ih | factor _ ih | term _ ih | plain _ ih => exact ih
  | raise _ _ _ ihLeft ihRight => exact standsIn_join ihLeft ihRight
  | multiply _ _ _ _ ihLeft ihRight | add _ _ _ _ ihLeft ihRight =>
      exact standsIn_join ihLeft ihRight
  | sign position known _ ih =>
      intro part hpart
      rcases List.mem_cons.mp hpart with rfl | hpart
      · rcases Grammar.eq_of_mem_signOperators known with ⟨rfl, rfl⟩ | ⟨rfl, rfl⟩ <;>
          exact List.mem_cons_self
      · exact (ih part hpart).widen (List.suffix_cons _ _).isInfix
  | marked position _ ih =>
      intro part hpart
      rcases List.mem_cons.mp hpart with rfl | hpart
      · exact List.mem_append_right _ List.mem_cons_self
      · exact (ih part hpart).widen (List.prefix_append _ _).isInfix

end Expression

/-- What the tokens have where an error is. Evaluation writes no register and has no error about
one. -/
def EvaluationError.PointsAt (tokens : List PlacedToken) : EvaluationError → Prop
  | unknownReference name position => ⟨position, .identifier name⟩ ∈ tokens
  | unknownFunction name position => Called tokens name position
  | undefinedResult operation _ position =>
    ∃ token, ⟨position, token⟩ ∈ tokens ∧ token.text = operation
  | nonFiniteResult position => ∃ token, ⟨position, token⟩ ∈ tokens
  | nonFiniteRegister _ => False

theorem Expression.Reports.pointsAt {error : EvaluationError} (h : node.Reports error)
    (stands : node.StandsIn tokens) : error.PointsAt tokens := by
  cases h with
  | reference | function => exact stands
  | argument name => exact ⟨.identifier name, Called.mem stands, rfl⟩
  | operands operator => exact ⟨.symbol operator.symbol, stands, rfl⟩
  | result => exact stands.token_at

/-- What a text has where an error is. A character that begins no token has a text in front of it
that is read without an error; for all other errors the whole text is read as tokens. -/
def CalculationError.PointsInto (text : String) : CalculationError → Prop
  | inSyntax (.unexpectedCharacter c position) =>
    ∃ before after tokens, text = before ++ String.singleton c ++ after ∧
      before.utf8ByteSize = position ∧ tokenize before = .ok tokens
  | inSyntax error => ∃ tokens, tokenize text = .ok tokens ∧ error.PointsAt tokens
  | inEvaluation error => ∃ tokens, tokenize text = .ok tokens ∧ error.PointsAt tokens

variable {arithmetic : Arithmetic} {registers : Registers} {text : String}

theorem pointsInto_of_tokenize {error : SyntaxError} (h : tokenize text = .error error) :
    (CalculationError.inSyntax error).PointsInto text := by
  obtain ⟨before, c, after, htext, rfl, tokens, htokens⟩ := error_of_tokensFrom h
  refine ⟨String.ofList before, String.ofList after, tokens, ?_, ?_, ?_⟩
  · rw [← String.ofList_toList (s := text), htext, String.ofList_append, String.ofList_cons,
      String.append_assoc]
  · rw [← byteCount_eq, Nat.zero_add]
  · rw [tokenize, String.toList_ofList, htokens]

/-- Every error of a calculation points at the character or the token of the expanded text that it
is about. -/
theorem pointsInto_of_evaluate {error : CalculationError}
    (h : evaluate arithmetic registers text = .error error) :
    error.PointsInto (Shorthand.expand text) := by
  cases error with
  | inSyntax error =>
      rcases bind_eq_error.mp (evaluate_eq_inSyntax.mp h) with htokens | ⟨tokens, htokens, hread⟩
      · exact pointsInto_of_tokenize htokens
      · have hpoints := Grammar.pointsAt_of_ofTokens hread
        cases error with
        | unexpectedCharacter => exact hpoints.elim
        | _ => exact ⟨tokens, htokens, hpoints⟩
  | inEvaluation error =>
      obtain ⟨node, hnode, hvalue⟩ := evaluate_eq_inEvaluation h
      obtain ⟨tokens, htokens, hread⟩ := bind_eq_ok.mp hnode
      obtain ⟨nesting, derives, -, -⟩ := Grammar.ofTokens_eq_ok.mp hread
      obtain ⟨part, hpart, reports⟩ := Expression.reports_of_evaluate hvalue
      have stands := Expression.standsIn_of_derives derives part hpart
      exact ⟨tokens, htokens, reports.pointsAt stands⟩

/-- The first parenthesis stays open, not the second. -/
theorem pointsInto_of_open_parenthesis :
    evaluate .binary64 {} "(1+(2)" = .error (.inSyntax (.unclosedParenthesis 0)) ∧
    (CalculationError.inSyntax (.unclosedParenthesis 0)).PointsInto
      (Shorthand.expand "(1+(2)") := by
  have hopen : evaluate .binary64 {} "(1+(2)" = .error (.inSyntax (.unclosedParenthesis 0)) := by
    decide +kernel
  exact ⟨hopen, pointsInto_of_evaluate hopen⟩

end Calculator
