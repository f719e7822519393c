import Calculator.Proofs.Evaluation.Location
import Calculator.Proofs.Session.Independence

/-!
The last answer is all that an evaluation takes from the registers.

Writing the last answer into an expression, in the place of every reference to it, gives an
expression that has the same value or the same error whatever the registers hold. A name that is
called is no reference. References come from the names in the text, so a text in which the last
answer is not named does not depend on the registers at all.
-/

namespace Calculator

open Grammar (bind_eq_ok)

variable {arithmetic : Arithmetic} {registers others : Registers} {tokens : List PlacedToken}

namespace Expression

/-- The expression with a number in the place of every reference to the last answer. -/
def withAnswer (answer : Float) : Expression → Expression
  | literal value position => literal value position
  | reference name position =>
    if name = Registers.answerName then literal answer position else reference name position
  | unary operator operand position => unary operator (operand.withAnswer answer) position
  | binary operator left right position =>
    binary operator (left.withAnswer answer) (right.withAnswer answer) position
  | call function argument position => call function (argument.withAnswer answer) position

/-- Nowhere in an expression is the last answer referred to. -/
def Answerless (node : Expression) : Prop :=
  ∀ position, reference Registers.answerName position ∉ node.parts

theorem valueOf_answerName (position : Nat) :
    registers.valueOf Registers.answerName position = .ok registers.lastAnswer :=
  if_pos rfl

theorem valueOf_other {name : String} (h : name ≠ Registers.answerName) (position : Nat) :
    registers.valueOf name position = others.valueOf name position := by
  simp only [Registers.valueOf, if_neg h]

/-- A literal has the value and the error that the reference in its place would have. -/
theorem evaluate_withAnswer (node : Expression) :
    (node.withAnswer registers.lastAnswer).evaluate arithmetic others =
      node.evaluate arithmetic registers := by
  induction node with
  | literal => rfl
  | reference name position =>
      by_cases h : name = Registers.answerName
      · subst h
        simp only [withAnswer, if_true, evaluate, valueOf_answerName]
        rfl
      · rw [withAnswer, if_neg h, evaluate, evaluate, valueOf_other h]
  | unary _ _ _ ih | call _ _ _ ih => simp only [withAnswer, evaluate, ih]
  | binary _ _ _ _ ihLeft ihRight => simp only [withAnswer, evaluate, ihLeft, ihRight]

theorem Answerless.withAnswer_eq {node : Expression} (h : node.Answerless) (answer : Float) :
    node.withAnswer answer = node := by
  induction node with
  | literal => rfl
  | reference name position =>
      refine if_neg ?_
      rintro rfl
      exact h position List.mem_cons_self
  | unary operator operand position ih | call function operand position ih =>
      rw [withAnswer, ih fun place hmem => h place (List.mem_cons_of_mem _ hmem)]
  | binary operator left right position ihLeft ihRight =>
      have hleft : left.Answerless := fun place hmem =>
        h place (List.mem_cons_of_mem _ (List.mem_append_left _ hmem))
      have hright : right.Answerless := fun place hmem =>
        h place (List.mem_cons_of_mem _ (List.mem_append_right _ hmem))
      rw [withAnswer, ihLeft hleft, ihRight hright]

/-- An expression without references to the last answer has the same value under all registers. -/
theorem Answerless.evaluate_eq {node : Expression} (h : node.Answerless) :
    node.evaluate arithmetic registers = node.evaluate arithmetic others :=
  calc
    node.evaluate arithmetic registers
    _ = (node.withAnswer registers.lastAnswer).evaluate arithmetic others :=
        (evaluate_withAnswer node).symm
    _ = node.evaluate arithmetic others := by rw [h.withAnswer_eq]

/-- Tokens that do not name the last answer spell no reference to it. -/
theorem answerless_of_ofTokens {node : Expression} (h : ofTokens tokens = .ok node)
    (unnamed : ∀ placed ∈ tokens, placed.token ≠ .identifier Registers.answerName) :
    node.Answerless := by
  intro position hpart
  obtain ⟨_, derives⟩ := Grammar.derives_of_ofTokens h
  exact unnamed _ (standsIn_of_derives derives _ hpart) rfl

theorem evaluate_call_answerName (argument : Expression) (position : Nat) :
    (call Registers.answerName argument position).evaluate arithmetic registers =
      .error (.unknownFunction Registers.answerName position) :=
  rfl

end Expression

variable {text : String}

theorem evaluate_of_ofText {node : Expression} (h : Expression.ofText text = .ok node) :
    evaluate arithmetic registers text =
      (node.evaluate arithmetic registers).mapError .inEvaluation := by
  rw [evaluate, h]
  cases hvalue : node.evaluate arithmetic registers <;> simp only [hvalue] <;> rfl

theorem evaluate_of_unnamed
    (unnamed : ∀ tokens, tokenize (Shorthand.expand text) = .ok tokens →
      ∀ placed ∈ tokens, placed.token ≠ .identifier Registers.answerName) :
    evaluate arithmetic registers text = evaluate arithmetic others text := by
  cases hnode : Expression.ofText text with
  | error error => rw [evaluate_eq_inSyntax.mpr hnode, evaluate_eq_inSyntax.mpr hnode]
  | ok node =>
      obtain ⟨tokens, htokens, hread⟩ := bind_eq_ok.mp hnode
      have answerless := Expression.answerless_of_ofTokens hread (unnamed tokens htokens)
      have hvalue : node.evaluate arithmetic registers = node.evaluate arithmetic others :=
        answerless.evaluate_eq
      rw [evaluate_of_ofText hnode, evaluate_of_ofText hnode, hvalue]

/-- A text is evaluated as if the last answer were written in the places where it is referred to,
and no register has any other influence. So memory has none, and no register has one where the last
answer is not named. A call of its name is a call of an unknown function. -/
theorem evaluates_with_answer_in_place (arithmetic : Arithmetic) (registers others : Registers)
    (text : String) :
    (evaluate arithmetic registers text =
      match Expression.ofText text with
      | .error error => .error (.inSyntax error)
      | .ok node =>
        ((node.withAnswer registers.lastAnswer).evaluate arithmetic others).mapError
          .inEvaluation) ∧
    (∀ memory, evaluate arithmetic { registers with memory } text =
      evaluate arithmetic registers text) ∧
    ((∀ tokens, tokenize (Shorthand.expand text) = .ok tokens →
        ∀ placed ∈ tokens, placed.token ≠ .identifier Registers.answerName) →
      evaluate arithmetic registers text = evaluate arithmetic others text) ∧
    ∀ argument position,
      (Expression.call Registers.answerName argument position).evaluate arithmetic registers =
        .error (.unknownFunction Registers.answerName position) := by
  refine ⟨?_, fun memory => evaluate_congr (by rfl) text, evaluate_of_unnamed,
    Expression.evaluate_call_answerName⟩
  cases hnode : Expression.ofText text with
  | error error => exact evaluate_eq_inSyntax.mpr hnode
  | ok node => simp only [Expression.evaluate_withAnswer, evaluate_of_ofText hnode]

/-- Two registers that differ in both cells, and a text whose only name is that of a constant. -/
theorem evaluates_alike_without_answer :
    let registers : Registers := { memory := 1, lastAnswer := 2 }
    (∀ tokens, tokenize (Shorthand.expand "2×π") = .ok tokens →
      ∀ placed ∈ tokens, placed.token ≠ .identifier Registers.answerName) ∧
    evaluate .binary64 registers "2×π" = evaluate .binary64 {} "2×π" ∧
    evaluate .binary64 registers "2×ans" ≠ evaluate .binary64 {} "2×ans" := by
  intro registers
  have unnamed : ∀ tokens, tokenize (Shorthand.expand "2×π") = .ok tokens →
      ∀ placed ∈ tokens, placed.token ≠ .identifier Registers.answerName := by
    have htokens : tokenize (Shorthand.expand "2×π") =
        .ok [⟨0, .number 2⟩, ⟨1, .symbol .star⟩, ⟨2, .identifier "pi"⟩] := by decide +kernel
    rintro _ h
    obtain rfl := Except.ok.inj (htokens.symm.trans h)
    decide +kernel
  exact ⟨unnamed, (evaluates_with_answer_in_place .binary64 registers {} "2×π").2.2.1 unnamed,
    by decide +kernel⟩

end Calculator
