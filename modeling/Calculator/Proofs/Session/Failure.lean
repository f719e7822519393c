import Calculator.Proofs.Session.Trace

/-!
Evaluations that fail leave no trace.

A failure changes the display and nothing else, and the next command forgets it before it does
anything. So a run with a failing evaluation and the same run without it differ in this one step:
the session after every other command is the same, and so is what every other command returns.
-/

namespace Calculator
namespace Session

/-- What can be seen of a step once its command has been performed. -/
def Step.effect (step : Step) : Command × Session × Option Outcome :=
  (step.command, step.after, step.outcome)

variable {arithmetic : Arithmetic} {session : Session}

/-- Whether an earlier failure is shown makes no difference to a command. -/
theorem apply_forgets (failed : Bool) (command : Command) :
    { session with failed }.apply arithmetic command = session.apply arithmetic command := rfl

/-- The first command makes the two sessions the same, so no induction is needed. -/
theorem effects_forget (failed : Bool) (commands : List Command) :
    ({ session with failed }.steps arithmetic commands).map Step.effect =
      (session.steps arithmetic commands).map Step.effect := by
  cases commands with
  | nil => rfl
  | cons command rest =>
      simp only [steps, step, List.map_cons, Step.effect, apply_forgets failed command]

theorem step_evaluate_of_failed {error : CalculationError}
    (h : (session.step arithmetic .evaluate).outcome = some (.failed error)) :
    session.step arithmetic .evaluate =
      ⟨session, .evaluate, { session with failed := true }, some (.failed error)⟩ := by
  cases hvalue : evaluate arithmetic session.registers session.buffer with
  | ok value => simp [step_evaluate_of_ok hvalue] at h
  | error found =>
      rw [step_evaluate_of_error hvalue] at h ⊢
      simpa using h

/-- A failing evaluation changes the display and nothing else, and fails in the same way when it is
repeated at once. Without it the run is the same but for its step. -/
theorem run_without_failed_evaluation (arithmetic : Arithmetic) (session : Session)
    (earlier later : List Command) (error : CalculationError)
    (failed : ((session.run arithmetic earlier).1.step arithmetic .evaluate).outcome =
      some (.failed error)) :
    let failing := (session.run arithmetic earlier).1.step arithmetic .evaluate
    (failing.after.buffer = failing.before.buffer ∧
      failing.after.registers = failing.before.registers ∧
      failing.after.history = failing.before.history ∧
      failing.after.display = "Error" ∧
      (failing.after.step arithmetic .evaluate).effect = failing.effect) ∧
    (session.steps arithmetic (earlier ++ later)).map Step.effect =
      ((session.steps arithmetic (earlier ++ .evaluate :: later)).map Step.effect).eraseIdx
        earlier.length := by
  have hstep := step_evaluate_of_failed failed
  constructor
  · rw [hstep]
    refine ⟨rfl, rfl, rfl, rfl, ?_⟩
    simp only [Step.effect, step, apply_forgets true]
    exact congrArg Step.effect hstep
  · have hlength :
        earlier.length = ((session.steps arithmetic earlier).map Step.effect).length := by
      rw [List.length_map, length_steps]
    rw [steps_append, steps_append, List.map_append, List.map_append, hlength,
      List.eraseIdx_append_of_length_le (Nat.le_refl _), Nat.sub_self]
    simp only [steps, List.map_cons, List.eraseIdx_cons_zero, hstep, effects_forget]

/-- Division by zero, with a sign and another evaluation after it. -/
theorem run_without_division_by_zero :
    let session := new 4
    let failing := (session.run .binary64 [.append "1/0"]).1.step .binary64 .evaluate
    failing.outcome = some (.failed (.inEvaluation (.undefinedResult "/" [1, 0] 1))) ∧
    (failing.after.buffer = failing.before.buffer ∧
      failing.after.registers = failing.before.registers ∧
      failing.after.history = failing.before.history ∧
      failing.after.display = "Error" ∧
      (failing.after.step .binary64 .evaluate).effect = failing.effect) ∧
    (session.steps .binary64 [.append "1/0", .backspace, .evaluate]).map Step.effect =
      ((session.steps .binary64 [.append "1/0", .evaluate, .backspace, .evaluate]).map
        Step.effect).eraseIdx 1 := by
  have failed : (((new 4).run .binary64 [.append "1/0"]).1.step .binary64 .evaluate).outcome =
      some (.failed (.inEvaluation (.undefinedResult "/" [1, 0] 1))) := by decide +kernel
  exact ⟨failed, run_without_failed_evaluation .binary64 (new 4) [.append "1/0"]
    [.backspace, .evaluate] _ failed⟩

end Session
end Calculator
