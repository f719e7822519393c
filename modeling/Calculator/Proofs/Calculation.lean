import Calculator.Calculation
import Calculator.Proofs.Grammar.Relocation
import Calculator.Proofs.Token.Boundary

/-!
The value of a text, in terms of its tokens and of the expression that they derive.

A text has a value if its tokens derive an expression within the limits that has one. The other way
round, an expression that its tokens derive is the one that is evaluated, unless a limit is broken.
Where the tokens stand in the text does not matter for the value.
-/

namespace Calculator

open Grammar (Derives bind_eq_ok)

variable {arithmetic : Arithmetic} {registers : Registers} {text : String} {value : Float}
  {tokens : List PlacedToken} {node : Expression} {nesting : Nat}

/-- The evaluation of a text is given up because its expression breaks a limit. -/
def ExceedsLimits (arithmetic : Arithmetic) (registers : Registers) (text : String) : Prop :=
  ∃ position, evaluate arithmetic registers text = .error (.inSyntax (.tooDeep position))

theorem ofText_of_tokens (htokens : tokensFrom 0 (Shorthand.expandAll text.toList) = .ok tokens) :
    Expression.ofText text = Expression.ofTokens tokens := by
  rw [Expression.ofText, tokenize, Shorthand.expand, String.toList_ofList, htokens]
  rfl

theorem evaluate_of_derives
    (htokens : tokensFrom 0 (Shorthand.expandAll text.toList) = .ok tokens)
    (derives : Derives .expression tokens node nesting)
    (shallow : ¬ ExceedsLimits arithmetic registers text) :
    evaluate arithmetic registers text =
      (node.evaluate arithmetic registers).mapError .inEvaluation := by
  rcases Grammar.ofTokens_within derives with ⟨-, hok⟩ | ⟨-, position, deep⟩
  · rw [evaluate, ofText_of_tokens htokens, hok]
    cases hvalue : node.evaluate arithmetic registers <;> simp only [hvalue] <;> rfl
  · refine absurd ⟨position, ?_⟩ shallow
    rw [evaluate, ofText_of_tokens htokens, deep]

theorem evaluate_eq_ok :
    evaluate arithmetic registers text = .ok value ↔
      ∃ tokens node, tokensFrom 0 (Shorthand.expandAll text.toList) = .ok tokens ∧
        Expression.ofTokens tokens = .ok node ∧
        node.evaluate arithmetic registers = .ok value := by
  constructor
  · intro h
    rw [evaluate] at h
    split at h
    · simp at h
    · rename_i node hnode
      rw [Expression.ofText, tokenize, Shorthand.expand, String.toList_ofList] at hnode
      obtain ⟨tokens, htokens, hread⟩ := bind_eq_ok.mp hnode
      split at h
      · simp at h
      · rename_i hvalue
        obtain rfl := Except.ok.inj h
        exact ⟨tokens, node, htokens, hread, hvalue⟩
  · rintro ⟨tokens, node, htokens, hread, hvalue⟩
    rw [evaluate, ofText_of_tokens htokens, hread]
    simp only [hvalue]

/-- An error of the evaluation is one of the expression that the text spells. -/
theorem evaluate_eq_inEvaluation {error : EvaluationError}
    (h : evaluate arithmetic registers text = .error (.inEvaluation error)) :
    ∃ node, Expression.ofText text = .ok node ∧
      node.evaluate arithmetic registers = .error error := by
  rw [evaluate] at h
  split at h
  · simp at h
  · rename_i node hnode
    split at h
    · rename_i found hfound
      obtain rfl := CalculationError.inEvaluation.inj (Except.error.inj h)
      exact ⟨node, hnode, hfound⟩
    · simp at h

theorem evaluate_eq_inSyntax {error : SyntaxError} :
    evaluate arithmetic registers text = .error (.inSyntax error) ↔
      Expression.ofText text = .error error := by
  rw [evaluate]
  split
  · rename_i found hfound
    simp [hfound]
  · rename_i node hnode
    rw [hnode]
    split <;> simp

/-- A text that spells an expression breaks no limit, whatever its value. -/
theorem shallow_of_ofText (h : (Expression.ofText text).isOk = true) :
    ¬ ExceedsLimits arithmetic registers text := by
  rintro ⟨position, hdeep⟩
  rw [evaluate_eq_inSyntax.mp hdeep] at h
  simp [Except.isOk, Except.toBool] at h

theorem derives_of_evaluate (h : evaluate arithmetic registers text = .ok value) :
    ∃ tokens node nesting, tokensFrom 0 (Shorthand.expandAll text.toList) = .ok tokens ∧
      Derives .expression tokens node nesting ∧ nesting ≤ Grammar.depthLimit ∧
      node.height ≤ Grammar.heightLimit ∧ node.evaluate arithmetic registers = .ok value := by
  obtain ⟨tokens, node, htokens, hread, hvalue⟩ := evaluate_eq_ok.mp h
  obtain ⟨nesting, derives, hnesting, hheight⟩ := Grammar.ofTokens_eq_ok.mp hread
  exact ⟨tokens, node, nesting, htokens, derives, hnesting, hheight, hvalue⟩

theorem isFinite_of_evaluate (h : evaluate arithmetic registers text = .ok value) :
    value.isFinite = true := by
  obtain ⟨_, _, _, _, hvalue⟩ := evaluate_eq_ok.mp h
  exact Expression.isFinite_of_evaluate hvalue

theorem evaluate_of_limits
    (htokens : tokensFrom 0 (Shorthand.expandAll text.toList) = .ok tokens)
    (derives : Derives .expression tokens node nesting) (hnesting : nesting ≤ Grammar.depthLimit)
    (hheight : node.height ≤ Grammar.heightLimit)
    (hvalue : node.evaluate arithmetic registers = .ok value) :
    evaluate arithmetic registers text = .ok value :=
  evaluate_eq_ok.mpr ⟨tokens, node, htokens,
    Grammar.ofTokens_eq_ok.mpr ⟨nesting, derives, hnesting, hheight⟩, hvalue⟩

end Calculator
