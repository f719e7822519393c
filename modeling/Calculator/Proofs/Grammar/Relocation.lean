import Calculator.Expression.Evaluation
import Calculator.Proofs.Grammar.Acceptance

/-!
Positions are carried along and never looked at.

Moving the positions of the tokens moves those of the tree and of the errors and changes nothing
else: a derivation stays one, with the same height and nesting, and a tree keeps its value.
-/

namespace Calculator

def PlacedToken.relocate (move : Nat → Nat) (token : PlacedToken) : PlacedToken :=
  { token with position := move token.position }

/-- Tokens of the same words are moved ones, if no two of them are at the same position. -/
theorem exists_move {tokens tokens' : List PlacedToken}
    (placed : tokens.Pairwise (·.position < ·.position))
    (same : tokens'.map (·.token) = tokens.map (·.token)) :
    ∃ move, tokens' = tokens.map (·.relocate move) := by
  induction tokens generalizing tokens' with
  | nil => exact ⟨id, by simpa using same⟩
  | cons first tokens ih =>
      obtain ⟨first', rest', rfl⟩ := List.exists_cons_of_ne_nil (show tokens' ≠ [] by
        rintro rfl
        simp at same)
      simp only [List.map_cons, List.cons.injEq] at same
      obtain ⟨hbehind, hrest⟩ := List.pairwise_cons.mp placed
      obtain ⟨move, rfl⟩ := ih hrest same.2
      refine ⟨fun position => if position = first.position then first'.position else move position,
        ?_⟩
      have hfirst : first' = ⟨first'.position, first.token⟩ := by rw [← same.1]
      have hmoved : tokens.map (·.relocate move) = tokens.map (·.relocate fun position =>
          if position = first.position then first'.position else move position) := by
        refine List.map_congr_left fun token htoken => ?_
        have hposition := Nat.ne_of_gt (hbehind token htoken)
        simp [PlacedToken.relocate, hposition]
      rw [List.map_cons, ← hmoved]
      refine congrArg (· :: _) (hfirst.trans ?_)
      simp [PlacedToken.relocate]

namespace Expression

def relocate (move : Nat → Nat) : Expression → Expression
  | literal value position => .literal value (move position)
  | reference name position => .reference name (move position)
  | unary operator operand position => .unary operator (operand.relocate move) (move position)
  | binary operator left right position =>
    .binary operator (left.relocate move) (right.relocate move) (move position)
  | call function argument position => .call function (argument.relocate move) (move position)

theorem height_relocate (move : Nat → Nat) (node : Expression) :
    (node.relocate move).height = node.height := by
  induction node with
  | literal | reference => rfl
  | unary _ _ _ ih | call _ _ _ ih => simp only [relocate, height, ih]
  | binary _ _ _ _ ihLeft ihRight => simp only [relocate, height, ihLeft, ihRight]

end Expression

namespace EvaluationError

def relocate (move : Nat → Nat) : EvaluationError → EvaluationError
  | unknownReference name position => .unknownReference name (move position)
  | unknownFunction name position => .unknownFunction name (move position)
  | undefinedResult operation operands position =>
    .undefinedResult operation operands (move position)
  | nonFiniteResult position => .nonFiniteResult (move position)
  | nonFiniteRegister value => .nonFiniteRegister value

end EvaluationError

namespace Relocation

variable {α β : Type} {move : Nat → Nat}

/-- The same result with the position of its error moved. -/
def moved (move : Nat → Nat) : Except EvaluationError α → Except EvaluationError α :=
  Except.mapError (·.relocate move)

theorem moved_eq_ok {result : Except EvaluationError α} {value : α} :
    moved move result = .ok value ↔ result = .ok value := by
  cases result with
  | ok => exact Iff.rfl
  | error => exact ⟨nofun, nofun⟩

theorem moved_bind {result : Except EvaluationError α} {next : α → Except EvaluationError β} :
    moved move (result >>= next) = moved move result >>= fun value => moved move (next value) := by
  cases result <;> rfl

theorem valueOf_moved {registers : Registers} {name : String} {position : Nat} :
    registers.valueOf name (move position) = moved move (registers.valueOf name position) := by
  simp only [Registers.valueOf]
  split
  · rfl
  · split <;> rfl

theorem checkFinite_moved {value : Float} {position : Nat} :
    checkFinite value (move position) = moved move (checkFinite value position) := by
  simp only [checkFinite]
  split <;> rfl

theorem binary_moved {arithmetic : Arithmetic} {operator : BinaryOperator} {left right : Float}
    {position : Nat} :
    operator.apply arithmetic left right (move position) =
      moved move (operator.apply arithmetic left right position) := by
  simp only [BinaryOperator.apply]
  split <;> rfl

theorem ofName_moved {name : String} {position : Nat} :
    BuiltIn.ofName name (move position) = moved move (BuiltIn.ofName name position) := by
  simp only [BuiltIn.ofName]
  split <;> rfl

theorem builtIn_moved {arithmetic : Arithmetic} {builtIn : BuiltIn} {argument : Float}
    {position : Nat} :
    builtIn.apply arithmetic argument (move position) =
      moved move (builtIn.apply arithmetic argument position) := by
  simp only [BuiltIn.apply]
  split <;> rfl

/-- A relocated tree has the same value, or fails with the same error at the new position. -/
theorem evaluate_relocate (arithmetic : Arithmetic) (registers : Registers) (move : Nat → Nat)
    (node : Expression) :
    (node.relocate move).evaluate arithmetic registers =
      moved move (node.evaluate arithmetic registers) := by
  induction node with
  | literal => exact checkFinite_moved
  | reference =>
      simp only [Expression.relocate, Expression.evaluate, moved_bind, valueOf_moved,
        checkFinite_moved]
  | unary _ _ _ ih =>
      simp only [Expression.relocate, Expression.evaluate, moved_bind, ih, checkFinite_moved]
  | binary _ _ _ _ ihLeft ihRight =>
      simp only [Expression.relocate, Expression.evaluate, moved_bind, ihLeft, ihRight,
        binary_moved, checkFinite_moved]
  | call _ _ _ ih =>
      simp only [Expression.relocate, Expression.evaluate, moved_bind, ofName_moved, ih,
        builtIn_moved, checkFinite_moved]

theorem evaluate_relocate_eq_ok {arithmetic : Arithmetic} {registers : Registers}
    {node : Expression} {value : Float} :
    (node.relocate move).evaluate arithmetic registers = .ok value ↔
      node.evaluate arithmetic registers = .ok value := by
  rw [evaluate_relocate, moved_eq_ok]

end Relocation

namespace Grammar

theorem Derives.relocate {phrase : Phrase} {tokens : List PlacedToken} {node : Expression}
    {nesting : Nat} (move : Nat → Nat) (h : Derives phrase tokens node nesting) :
    Derives phrase (tokens.map (·.relocate move)) (node.relocate move) nesting := by
  induction h with
  | literal value position => exact .literal value (move position)
  | reference name position => exact .reference name (move position)
  | call name position opening closing _ ih =>
      rw [List.map_cons, List.map_cons, List.map_append]
      exact .call name (move position) (move opening) (move closing) ih
  | group opening closing _ ih =>
      rw [List.map_cons, List.map_append]
      exact .group (move opening) (move closing) ih
  | base _ ih => exact .base ih
  | raise position _ _ ihLeft ihRight =>
      rw [List.map_append, List.map_cons]
      exact .raise (move position) ihLeft ihRight
  | unsigned _ ih => exact .unsigned ih
  | sign position known _ ih => exact .sign (move position) known ih
  | factor _ ih => exact .factor ih
  | multiply position known _ _ ihLeft ihRight =>
      rw [List.map_append, List.map_cons]
      exact .multiply (move position) known ihLeft ihRight
  | term _ ih => exact .term ih
  | add position known _ _ ihLeft ihRight =>
      rw [List.map_append, List.map_cons]
      exact .add (move position) known ihLeft ihRight
  | plain _ ih => exact .plain ih
  | marked position _ ih =>
      rw [List.map_append]
      exact .marked (move position) ih

end Grammar
end Calculator
