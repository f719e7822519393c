import Calculator.Expression.Evaluation
import Calculator.Expression.Grammar

/-!
When an expression has a value: every operand has one, the operator or function is defined there,
and the result is finite.
-/

namespace Calculator

open Grammar (bind_eq_ok)

variable {arithmetic : Arithmetic} {registers : Registers} {value : Float} {position : Nat}

theorem checkFinite_eq_ok {result : Float} :
    checkFinite value position = .ok result ↔ value.isFinite = true ∧ value = result := by
  simp only [checkFinite]
  split <;> simp_all

theorem BinaryOperator.apply_eq_ok {operator : BinaryOperator} {left right : Float} :
    operator.apply arithmetic left right position = .ok value ↔
      operator.isUndefinedAt arithmetic left right = false ∧
        operator.compute arithmetic left right = value := by
  simp only [BinaryOperator.apply]
  split <;> simp_all

namespace Expression

theorem evaluate_reference_eq_ok {name : String} :
    (reference name position).evaluate arithmetic registers = .ok value ↔
      registers.valueOf name position = .ok value ∧ value.isFinite = true := by
  simp only [evaluate, bind_eq_ok, checkFinite_eq_ok]
  constructor
  · rintro ⟨_, hvalue, hfinite, heq⟩
    exact heq ▸ ⟨hvalue, hfinite⟩
  · rintro ⟨hvalue, hfinite⟩
    exact ⟨_, hvalue, hfinite, rfl⟩

theorem evaluate_unary_eq_ok {operator : UnaryOperator} {operand : Expression} :
    (unary operator operand position).evaluate arithmetic registers = .ok value ↔
      ∃ x, operand.evaluate arithmetic registers = .ok x ∧
        (operator.apply arithmetic x).isFinite = true ∧ operator.apply arithmetic x = value := by
  simp only [evaluate, bind_eq_ok, checkFinite_eq_ok]

theorem evaluate_binary_eq_ok {operator : BinaryOperator} {left right : Expression} :
    (binary operator left right position).evaluate arithmetic registers = .ok value ↔
      ∃ x, left.evaluate arithmetic registers = .ok x ∧
        ∃ y, right.evaluate arithmetic registers = .ok y ∧
          operator.apply arithmetic x y position = .ok value ∧ value.isFinite = true := by
  simp only [evaluate, bind_eq_ok, checkFinite_eq_ok]
  constructor
  · rintro ⟨x, hx, y, hy, _, hvalue, hfinite, heq⟩
    exact heq ▸ ⟨x, hx, y, hy, hvalue, hfinite⟩
  · rintro ⟨x, hx, y, hy, hvalue, hfinite⟩
    exact ⟨x, hx, y, hy, _, hvalue, hfinite, rfl⟩

theorem evaluate_call_eq_ok {function : String} {argument : Expression} :
    (call function argument position).evaluate arithmetic registers = .ok value ↔
      ∃ builtIn, BuiltIn.ofName function position = .ok builtIn ∧
        ∃ x, argument.evaluate arithmetic registers = .ok x ∧
          builtIn.apply arithmetic x position = .ok value ∧ value.isFinite = true := by
  simp only [evaluate, bind_eq_ok, checkFinite_eq_ok]
  constructor
  · rintro ⟨builtIn, hname, x, hx, _, hvalue, hfinite, heq⟩
    exact heq ▸ ⟨builtIn, hname, x, hx, hvalue, hfinite⟩
  · rintro ⟨builtIn, hname, x, hx, hvalue, hfinite⟩
    exact ⟨builtIn, hname, x, hx, _, hvalue, hfinite, rfl⟩

theorem isFinite_of_evaluate {node : Expression}
    (h : node.evaluate arithmetic registers = .ok value) : value.isFinite = true := by
  cases node with
  | literal =>
      obtain ⟨hfinite, rfl⟩ := checkFinite_eq_ok.mp h
      exact hfinite
  | reference => exact (evaluate_reference_eq_ok.mp h).2
  | unary =>
      obtain ⟨_, _, hfinite, rfl⟩ := evaluate_unary_eq_ok.mp h
      exact hfinite
  | binary =>
      obtain ⟨_, _, _, _, _, hfinite⟩ := evaluate_binary_eq_ok.mp h
      exact hfinite
  | call =>
      obtain ⟨_, _, _, _, _, hfinite⟩ := evaluate_call_eq_ok.mp h
      exact hfinite

end Expression
end Calculator
