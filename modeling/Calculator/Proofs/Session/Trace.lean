import Calculator.Proofs.Calculation
import Calculator.Session

/-!
What happens in a session, command by command.

A step is a command with the sessions before and after it and with what it returned. The steps of a
run are listed in order, so what holds of every step of every run holds wherever a session can get.
Evaluations are the steps that can fail, and they fail only when the text of the buffer has no
value: a value is finite, so the register that remembers it takes it.
-/

namespace Calculator
namespace Session

structure Step where
  before : Session
  command : Command
  after : Session
  outcome : Option Outcome
deriving DecidableEq

/-- The step that a command takes. -/
def step (arithmetic : Arithmetic) (session : Session) (command : Command) : Step :=
  let applied := session.apply arithmetic command
  ⟨session, command, applied.1, applied.2⟩

/-- The steps that commands take one after the other. -/
def steps (arithmetic : Arithmetic) (session : Session) : List Command → List Step
  | [] => []
  | command :: rest =>
    let first := session.step arithmetic command
    first :: first.after.steps arithmetic rest

variable {arithmetic : Arithmetic} {session : Session}

theorem outcomes_run (commands : List Command) :
    (session.run arithmetic commands).2 = (session.steps arithmetic commands).map (·.outcome) := by
  induction commands generalizing session with
  | nil => rfl
  | cons command rest ih => exact congrArg _ ih

theorem steps_append (commands more : List Command) :
    session.steps arithmetic (commands ++ more) =
      session.steps arithmetic commands ++
        (session.run arithmetic commands).1.steps arithmetic more := by
  induction commands generalizing session with
  | nil => rfl
  | cons command rest ih => exact congrArg _ ih

theorem run_concat (commands : List Command) (command : Command) :
    (session.run arithmetic (commands ++ [command])).1 =
      ((session.run arithmetic commands).1.step arithmetic command).after := by
  induction commands generalizing session with
  | nil => rfl
  | cons first rest ih => exact ih

theorem steps_concat (commands : List Command) (command : Command) :
    session.steps arithmetic (commands ++ [command]) =
      session.steps arithmetic commands ++
        [(session.run arithmetic commands).1.step arithmetic command] :=
  steps_append commands [command]

theorem length_steps (commands : List Command) :
    (session.steps arithmetic commands).length = commands.length := by
  induction commands generalizing session with
  | nil => rfl
  | cons command rest ih => exact congrArg _ ih

/-- What holds of the session at the start and is kept by every command holds after every step. -/
theorem invariant_steps {invariant : Session → Prop} (start : invariant session)
    (keeps : ∀ session command, invariant session →
      invariant (session.step arithmetic command).after) (commands : List Command) :
    ∀ step ∈ session.steps arithmetic commands, invariant step.after := by
  induction commands generalizing session with
  | nil => simp [steps]
  | cons command rest ih =>
      have hnext := keeps session command start
      intro step hstep
      rcases List.mem_cons.mp hstep with rfl | hrest
      · exact hnext
      · exact ih hnext step hrest

/-- The steps of a run are steps that their commands take. -/
theorem eq_step_of_mem {commands : List Command} {step : Step}
    (h : step ∈ session.steps arithmetic commands) :
    step = step.before.step arithmetic step.command := by
  induction commands generalizing session with
  | nil => simp [steps] at h
  | cons command rest ih =>
      rcases List.mem_cons.mp h with rfl | hrest
      · rfl
      · exact ih hrest

/-- The register takes every value, so only the text can make a calculation fail. -/
theorem calculate_eq :
    session.calculate arithmetic =
      (evaluate arithmetic session.registers session.buffer).map fun value =>
        (value, { session.registers with lastAnswer := value }) := by
  rw [calculate]
  cases h : evaluate arithmetic session.registers session.buffer with
  | error error => rfl
  | ok value =>
      simp only [bind, Except.bind, Registers.setLastAnswer, isFinite_of_evaluate h, if_true]
      rfl

theorem apply_evaluate_of_ok {value : Float}
    (h : evaluate arithmetic session.registers session.buffer = .ok value) :
    session.apply arithmetic .evaluate =
      ({ session with
          buffer := Number.text value
          registers := { session.registers with lastAnswer := value }
          history := session.history.push ⟨session.buffer, Number.text value⟩
          failed := false },
        some (.evaluated session.buffer value)) := by
  simp only [apply, perform, evaluateBuffer, calculate_eq, h, Except.map]

theorem apply_evaluate_of_error {error : CalculationError}
    (h : evaluate arithmetic session.registers session.buffer = .error error) :
    session.apply arithmetic .evaluate =
      ({ session with failed := true }, some (.failed error)) := by
  simp only [apply, perform, evaluateBuffer, calculate_eq, h, Except.map]

theorem step_evaluate_of_ok {value : Float}
    (h : evaluate arithmetic session.registers session.buffer = .ok value) :
    session.step arithmetic .evaluate =
      ⟨session, .evaluate,
        { session with
          buffer := Number.text value
          registers := { session.registers with lastAnswer := value }
          history := session.history.push ⟨session.buffer, Number.text value⟩
          failed := false },
        some (.evaluated session.buffer value)⟩ := by
  rw [step, apply_evaluate_of_ok h]

theorem step_evaluate_of_error {error : CalculationError}
    (h : evaluate arithmetic session.registers session.buffer = .error error) :
    session.step arithmetic .evaluate =
      ⟨session, .evaluate, { session with failed := true }, some (.failed error)⟩ := by
  rw [step, apply_evaluate_of_error h]

end Session
end Calculator
