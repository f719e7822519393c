import Calculator.Proofs.Evaluation.Errors

/-!
Evaluation on a stack.

The code of an expression has one instruction for every literal, name and operator, in the order in
which they get their values, and two for a call: its name is looked up before the code of its
argument, and the function is applied after it. A machine that runs this code with a stack stops at
the first instruction that fails. It ends with the value of the expression, or stops with its
error, whatever the arithmetic.
-/

namespace Calculator

open Grammar (bind_eq_ok)

inductive Instruction where
  | literal (value : Float) (position : Nat)
  | reference (name : String) (position : Nat)
  | unary (operator : UnaryOperator) (position : Nat)
  | binary (operator : BinaryOperator) (position : Nat)
  | resolve (function : String) (position : Nat)
  | call (position : Nat)
deriving DecidableEq

/-- What a place of the stack holds. -/
inductive Cell where
  | number (value : Float)
  | function (builtIn : BuiltIn)
deriving DecidableEq

/-- Why a machine stops before the end of its code. -/
inductive Halt where
  | failed (error : EvaluationError)
  /-- The stack does not hold what the instruction takes from it. -/
  | stuck
deriving DecidableEq

namespace Expression

def code : Expression → List Instruction
  | literal value position => [.literal value position]
  | reference name position => [.reference name position]
  | unary operator operand position => operand.code ++ [.unary operator position]
  | binary operator left right position => left.code ++ (right.code ++ [.binary operator position])
  | call function argument position =>
    .resolve function position :: (argument.code ++ [.call position])

end Expression

namespace Machine

/-- A value on top of the stack. Only a finite one gets there, any other is reported with the node
that made it. -/
def push (value : Float) (position : Nat) (stack : List Cell) : Except Halt (List Cell) :=
  if value.isFinite then .ok (.number value :: stack)
  else .error (.failed (.nonFiniteResult position))

section Execution

variable (arithmetic : Arithmetic) (registers : Registers)

/-- Runs one instruction. All of them but the look-up of a function make a value. -/
def step : Instruction → List Cell → Except Halt (List Cell)
  | .literal value position, stack => push value position stack
  | .reference name position, stack => do
    let value ← (registers.valueOf name position).mapError .failed
    push value position stack
  | .unary operator position, .number value :: stack =>
    push (operator.apply arithmetic value) position stack
  | .binary operator position, .number right :: .number left :: stack => do
    let value ← (operator.apply arithmetic left right position).mapError .failed
    push value position stack
  | .resolve function position, stack => do
    let builtIn ← (BuiltIn.ofName function position).mapError .failed
    .ok (.function builtIn :: stack)
  | .call position, .number argument :: .function builtIn :: stack => do
    let value ← (builtIn.apply arithmetic argument position).mapError .failed
    push value position stack
  | _, _ => .error .stuck

def run : List Instruction → List Cell → Except Halt (List Cell)
  | [], stack => .ok stack
  | instruction :: code, stack => do
    let stack ← step arithmetic registers instruction stack
    run code stack

end Execution

variable {arithmetic : Arithmetic} {registers : Registers} {stack : List Cell}
  {code : List Instruction} {error : EvaluationError}

theorem run_append (first second : List Instruction) (stack : List Cell) :
    run arithmetic registers (first ++ second) stack =
      run arithmetic registers first stack >>= run arithmetic registers second := by
  induction first generalizing stack with
  | nil => rfl
  | cons instruction first ih =>
      simp only [List.cons_append, run, bind_assoc]
      congr
      funext stack
      exact ih stack

/-- What the code of an expression leaves behind: its value on top of the stack, or its error. -/
def leave (outcome : Except EvaluationError Float) (stack : List Cell) : Except Halt (List Cell) :=
  match outcome with
  | .ok value => .ok (.number value :: stack)
  | .error error => .error (.failed error)

theorem leave_eq_ok {outcome : Except EvaluationError Float} {value : Float} :
    leave outcome stack = .ok (.number value :: stack) ↔ outcome = .ok value := by
  cases outcome <;> simp [leave]

theorem leave_eq_error {outcome : Except EvaluationError Float} :
    leave outcome stack = .error (.failed error) ↔ outcome = .error error := by
  cases outcome <;> simp [leave]

theorem push_eq_leave (value : Float) (position : Nat) (stack : List Cell) :
    push value position stack = leave (checkFinite value position) stack := by
  rw [push, checkFinite]
  split <;> rfl

/-- An instruction that may have no value leaves what it has behind. -/
theorem push_of_result (result : Except EvaluationError Float) (position : Nat)
    (stack : List Cell) :
    (result.mapError .failed >>= fun value => push value position stack) =
      leave (result >>= fun value => checkFinite value position) stack := by
  cases result with
  | error => rfl
  | ok value => exact push_eq_leave value position stack

/-- The code of an expression leaves its value or its error behind, whatever is on the stack and
whatever follows. -/
theorem run_code (node : Expression) (code : List Instruction) (stack : List Cell) :
    run arithmetic registers (node.code ++ code) stack =
      leave (node.evaluate arithmetic registers) stack >>= run arithmetic registers code := by
  induction node generalizing code stack with
  | literal value position =>
      rw [Expression.code, List.singleton_append, run, step, push_eq_leave, Expression.evaluate]
  | reference name position =>
      rw [Expression.code, List.singleton_append, run, step, push_of_result, Expression.evaluate]
  | unary operator operand position ih =>
      rw [Expression.code, List.append_assoc, ih, Expression.evaluate]
      cases operand.evaluate arithmetic registers with
      | error => rfl
      | ok x =>
          show run arithmetic registers (.unary operator position :: code) (.number x :: stack) = _
          rw [run, step, push_eq_leave]
          rfl
  | binary operator left right position ihLeft ihRight =>
      rw [Expression.code, List.append_assoc, List.append_assoc, ihLeft, Expression.evaluate]
      cases left.evaluate arithmetic registers with
      | error => rfl
      | ok x =>
          show run arithmetic registers (right.code ++ _) (.number x :: stack) = _
          rw [ihRight]
          cases right.evaluate arithmetic registers with
          | error => rfl
          | ok y =>
              show run arithmetic registers (.binary operator position :: code)
                (.number y :: .number x :: stack) = _
              rw [run, step, push_of_result]
              rfl
  | call function argument position ih =>
      rw [Expression.code, List.cons_append, List.append_assoc, run, step, Expression.evaluate]
      cases BuiltIn.ofName function position with
      | error => rfl
      | ok builtIn =>
          show run arithmetic registers (argument.code ++ _) (.function builtIn :: stack) = _
          rw [ih]
          cases argument.evaluate arithmetic registers with
          | error => rfl
          | ok x =>
              show run arithmetic registers (.call position :: code)
                (.number x :: .function builtIn :: stack) = _
              rw [run, step, push_of_result]
              rfl

theorem run_whole_code (node : Expression) :
    run arithmetic registers node.code [] = leave (node.evaluate arithmetic registers) [] := by
  have h := @run_code arithmetic registers node [] []
  rw [List.append_nil] at h
  rw [h]
  cases node.evaluate arithmetic registers <;> rfl

/-- A machine that stops does so at one instruction, behind code that it has run to the end. -/
theorem stops_at_instruction {halt : Halt} (h : run arithmetic registers code stack = .error halt) :
    ∃ before instruction after reached, code = before ++ instruction :: after ∧
      run arithmetic registers before stack = .ok reached ∧
      step arithmetic registers instruction reached = .error halt := by
  induction code generalizing stack with
  | nil => simp [run] at h
  | cons instruction code ih =>
      rcases Grammar.bind_eq_error.mp h with hstep | ⟨next, hstep, hrest⟩
      · exact ⟨[], instruction, code, stack, rfl, rfl, hstep⟩
      · obtain ⟨before, failing, after, reached, rfl, hbefore, hfailing⟩ := ih hrest
        refine ⟨instruction :: before, failing, after, reached, rfl, ?_, hfailing⟩
        exact bind_eq_ok.mpr ⟨next, hstep, hbefore⟩

/-- Every part of an expression that has a value has a finite one itself. -/
theorem finite_parts {node : Expression} {value : Float}
    (h : node.evaluate arithmetic registers = .ok value) :
    ∀ part ∈ node.parts, ∃ x, part.evaluate arithmetic registers = .ok x ∧ x.isFinite = true := by
  induction node generalizing value with
  | literal | reference =>
      intro part hpart
      obtain rfl := List.mem_singleton.mp hpart
      exact ⟨value, h, Expression.isFinite_of_evaluate h⟩
  | unary operator operand position ih =>
      obtain ⟨x, hx, -⟩ := Expression.evaluate_unary_eq_ok.mp h
      intro part hpart
      rcases List.mem_cons.mp hpart with rfl | hpart
      · exact ⟨value, h, Expression.isFinite_of_evaluate h⟩
      · exact ih hx part hpart
  | binary operator left right position ihLeft ihRight =>
      obtain ⟨x, hx, y, hy, -⟩ := Expression.evaluate_binary_eq_ok.mp h
      intro part hpart
      rcases List.mem_cons.mp hpart with rfl | hpart
      · exact ⟨value, h, Expression.isFinite_of_evaluate h⟩
      rcases List.mem_append.mp hpart with hpart | hpart
      · exact ihLeft hx part hpart
      · exact ihRight hy part hpart
  | call function argument position ih =>
      obtain ⟨_, -, x, hx, -⟩ := Expression.evaluate_call_eq_ok.mp h
      intro part hpart
      rcases List.mem_cons.mp hpart with rfl | hpart
      · exact ⟨value, h, Expression.isFinite_of_evaluate h⟩
      · exact ih hx part hpart

/-- Evaluation is the run of the machine: it has the value that is alone on the stack in the end, or
the error of the first instruction that fails. So every part of an expression that has a value has
a finite one, and whatever follows an instruction that fails changes nothing. -/
theorem evaluates_on_stack (arithmetic : Arithmetic) (registers : Registers) (node : Expression) :
    (∀ value, node.evaluate arithmetic registers = .ok value ↔
      run arithmetic registers node.code [] = .ok [.number value]) ∧
    (∀ error, node.evaluate arithmetic registers = .error error ↔
      run arithmetic registers node.code [] = .error (.failed error)) ∧
    (∀ value, node.evaluate arithmetic registers = .ok value →
      ∀ part ∈ node.parts, ∃ x, part.evaluate arithmetic registers = .ok x ∧ x.isFinite = true) ∧
    ∀ error, node.evaluate arithmetic registers = .error error →
      ∃ before instruction after reached, node.code = before ++ instruction :: after ∧
        run arithmetic registers before [] = .ok reached ∧
        step arithmetic registers instruction reached = .error (.failed error) ∧
        ∀ other, run arithmetic registers (before ++ instruction :: other) [] =
          .error (.failed error) := by
  rw [run_whole_code]
  refine ⟨fun _ => leave_eq_ok.symm, fun _ => leave_eq_error.symm, fun _ => finite_parts, ?_⟩
  intro error h
  have hrun := (run_whole_code node).trans (leave_eq_error.mpr h)
  obtain ⟨before, instruction, after, reached, hcode, hbefore, hfailing⟩ :=
    stops_at_instruction hrun
  refine ⟨before, instruction, after, reached, hcode, hbefore, hfailing, fun other => ?_⟩
  rw [run_append, hbefore]
  show run arithmetic registers (instruction :: other) reached = _
  rw [run, hfailing]
  rfl

/-- A division by zero in front of an unknown name. -/
def quotientAndName : Expression :=
  .binary .add (.binary .divide (.literal 1 0) (.literal 0 2) 1) (.reference "x" 4) 3

theorem stops_at_division_by_zero :
    quotientAndName.evaluate .binary64 {} = .error (.undefinedResult "/" [1, 0] 1) ∧
    run .binary64 {} quotientAndName.code [] =
      .error (.failed (.undefinedResult "/" [1, 0] 1)) := by
  have hvalue : quotientAndName.evaluate .binary64 {} =
      .error (.undefinedResult "/" [1, 0] 1) := rfl
  exact ⟨hvalue, ((evaluates_on_stack .binary64 {} quotientAndName).2.1 _).mp hvalue⟩

end Machine
end Calculator
