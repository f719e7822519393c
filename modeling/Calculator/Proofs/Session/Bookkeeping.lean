import Calculator.Proofs.Evaluation.Errors
import Calculator.Proofs.Session.Trace
import Mathlib.Data.List.DropRight

/-!
What a session keeps of its run.

The registers are finite after every step, so no evaluation fails for the sake of a register. The
last answer is the result of the last evaluation that had one, and the history lists the evaluations
that had one since it was cleared for the last time. Each is first said of one step, and then of
every run by adding its last step.
-/

namespace Calculator

structure Registers.Finite (registers : Registers) : Prop where
  memory : registers.memory.isFinite = true
  lastAnswer : registers.lastAnswer.isFinite = true

theorem isFinite_zero : (0 : Float).isFinite = true := by
  decide +kernel

theorem Registers.finite_default : ({} : Registers).Finite :=
  ⟨isFinite_zero, isFinite_zero⟩

theorem Registers.Finite.clearMemory {registers : Registers} (h : registers.Finite) :
    registers.clearMemory.Finite :=
  ⟨isFinite_zero, h.lastAnswer⟩

theorem Registers.setMemory_eq_ok {registers updated : Registers} {value : Float} :
    registers.setMemory value = .ok updated ↔
      value.isFinite = true ∧ { registers with memory := value } = updated := by
  simp only [Registers.setMemory]
  split <;> simp_all

namespace Session

/-- The result of an evaluation that succeeded. -/
def Step.result? (step : Step) : Option Float :=
  match step.command, step.outcome with
  | .evaluate, some (.evaluated _ result) => some result
  | _, _ => none

/-- What the history has to say about an evaluation that succeeded. -/
def Step.logged? (step : Step) : Option HistoryEntry :=
  step.result?.map fun result => ⟨step.before.buffer, Number.text result⟩

/-- The steps after the last one that cleared the history. -/
def sinceClearing (steps : List Step) : List Step :=
  steps.rtakeWhile (·.command ≠ .clearHistory)

theorem sinceClearing_concat (steps : List Step) (step : Step) :
    sinceClearing (steps ++ [step]) =
      if step.command = .clearHistory then [] else sinceClearing steps ++ [step] := by
  simp only [sinceClearing, List.rtakeWhile_concat, decide_eq_true_eq, ne_eq, ite_not]

variable {arithmetic : Arithmetic} {session : Session} {command : Command}

section Steps

theorem storeMemory_cases (registers : Registers) (buffer : String) :
    storeMemory registers buffer = registers.clearMemory ∨
      ∃ value, value.isFinite = true ∧
        storeMemory registers buffer = { registers with memory := value } := by
  simp only [storeMemory]
  split
  · exact .inl rfl
  · split
    · rename_i value _ _ updated hset
      obtain ⟨hfinite, rfl⟩ := Registers.setMemory_eq_ok.mp hset
      exact .inr ⟨value, hfinite, rfl⟩
    · exact .inl rfl

theorem finite_storeMemory {registers : Registers} (buffer : String) (h : registers.Finite) :
    (storeMemory registers buffer).Finite := by
  rcases storeMemory_cases registers buffer with hcleared | ⟨value, hfinite, hstored⟩
  · rw [hcleared]
    exact h.clearMemory
  · rw [hstored]
    exact ⟨hfinite, h.lastAnswer⟩

theorem lastAnswer_storeMemory (registers : Registers) (buffer : String) :
    (storeMemory registers buffer).lastAnswer = registers.lastAnswer := by
  rcases storeMemory_cases registers buffer with hcleared | ⟨value, -, hstored⟩
  · rw [hcleared]
    rfl
  · rw [hstored]

theorem finite_step (session : Session) (command : Command) (h : session.registers.Finite) :
    (session.step arithmetic command).after.registers.Finite := by
  cases command with
  | evaluate =>
      cases hvalue : evaluate arithmetic session.registers session.buffer with
      | ok value =>
          rw [step_evaluate_of_ok hvalue]
          exact ⟨h.memory, isFinite_of_evaluate hvalue⟩
      | error error =>
          rw [step_evaluate_of_error hvalue]
          exact h
  | memoryStore => exact finite_storeMemory session.buffer h
  | memoryClear => exact h.clearMemory
  | append | clear | backspace | toggleSign | memoryRecall | answer | constant | call | percent
  | power | clearHistory => exact h

/-- Only evaluations have an outcome and change the last answer, and besides them only clearing
changes the history. -/
theorem step_of_ne_evaluate (h : command ≠ .evaluate) :
    (session.step arithmetic command).outcome = none ∧
      (session.step arithmetic command).after.registers.lastAnswer =
        session.registers.lastAnswer ∧
      (session.step arithmetic command).after.history =
        if command = .clearHistory then session.history.clear else session.history := by
  cases command with
  | evaluate => exact absurd rfl h
  | memoryStore => exact ⟨rfl, lastAnswer_storeMemory _ _, rfl⟩
  | append | clear | backspace | toggleSign | memoryRecall | memoryClear | answer | constant | call
  | percent | power | clearHistory => exact ⟨rfl, rfl, rfl⟩

theorem result?_of_ne_evaluate (h : command ≠ .evaluate) :
    (session.step arithmetic command).result? = none := by
  rw [Step.result?, (step_of_ne_evaluate h).1]
  cases (session.step arithmetic command).command <;> rfl

theorem result?_evaluate :
    (session.step arithmetic .evaluate).result? =
      (evaluate arithmetic session.registers session.buffer).toOption := by
  cases hvalue : evaluate arithmetic session.registers session.buffer with
  | ok value =>
      rw [step_evaluate_of_ok hvalue]
      rfl
  | error error =>
      rw [step_evaluate_of_error hvalue]
      rfl

theorem lastAnswer_step :
    (session.step arithmetic command).after.registers.lastAnswer =
      (session.step arithmetic command).result?.getD session.registers.lastAnswer := by
  by_cases h : command = .evaluate
  · subst h
    rw [result?_evaluate]
    cases hvalue : evaluate arithmetic session.registers session.buffer with
    | ok value =>
        rw [step_evaluate_of_ok hvalue]
        rfl
    | error error =>
        rw [step_evaluate_of_error hvalue]
        rfl
  · rw [result?_of_ne_evaluate h, (step_of_ne_evaluate h).2.1]
    rfl

theorem history_step :
    (session.step arithmetic command).after.history =
      { entries := if command = .clearHistory then []
          else session.history.entries ++ (session.step arithmetic command).logged?.toList
        window := session.history.window } := by
  by_cases h : command = .evaluate
  · subst h
    rw [if_neg nofun, Step.logged?, result?_evaluate]
    cases hvalue : evaluate arithmetic session.registers session.buffer with
    | ok value =>
        rw [step_evaluate_of_ok hvalue]
        rfl
    | error error =>
        rw [step_evaluate_of_error hvalue]
        simp [Except.toOption]
  · rw [Step.logged?, result?_of_ne_evaluate h, (step_of_ne_evaluate h).2.2]
    split
    · rfl
    · simp

/-- A text has an error of its own or a value that the register takes. -/
theorem outcome_step_ne_nonFiniteRegister (value : Float) :
    (session.step arithmetic command).outcome ≠
      some (.failed (.inEvaluation (.nonFiniteRegister value))) := by
  intro houtcome
  by_cases h : command = .evaluate
  · subst h
    cases hvalue : evaluate arithmetic session.registers session.buffer with
    | ok result => simp [step_evaluate_of_ok hvalue] at houtcome
    | error error =>
        simp only [step_evaluate_of_error hvalue, Option.some.injEq, Outcome.failed.injEq]
          at houtcome
        subst houtcome
        obtain ⟨node, -, hnode⟩ := evaluate_eq_inEvaluation hvalue
        obtain ⟨_, _, reports⟩ := Expression.reports_of_evaluate hnode
        cases reports
  · simp [(step_of_ne_evaluate h).1] at houtcome

end Steps

section Runs

theorem lastAnswer_run (commands : List Command) :
    (session.run arithmetic commands).1.registers.lastAnswer =
      ((session.steps arithmetic commands).filterMap Step.result?).getLast?.getD
        session.registers.lastAnswer := by
  induction commands using List.reverseRecOn with
  | nil => rfl
  | append_singleton commands command ih =>
      rw [run_concat, steps_concat, lastAnswer_step, List.filterMap_append, List.getLast?_append,
        ih]
      cases hresult : ((session.run arithmetic commands).1.step arithmetic command).result? <;>
        simp [hresult]

theorem window_run (commands : List Command) :
    (session.run arithmetic commands).1.history.window = session.history.window := by
  induction commands using List.reverseRecOn with
  | nil => rfl
  | append_singleton commands command ih => rw [run_concat, history_step, ih]

theorem entries_run (commands : List Command) (start : session.history.entries = []) :
    (session.run arithmetic commands).1.history.entries =
      (sinceClearing (session.steps arithmetic commands)).filterMap Step.logged? := by
  induction commands using List.reverseRecOn with
  | nil => exact start
  | append_singleton commands command ih =>
      rw [run_concat, steps_concat, history_step, sinceClearing_concat]
      show (if command = .clearHistory then _ else _) =
        (if command = .clearHistory then _ else _ : List Step).filterMap Step.logged?
      split
      · rfl
      · rw [List.filterMap_append, ih]
        cases hentry : ((session.run arithmetic commands).1.step arithmetic command).logged? <;>
          simp [hentry]

end Runs

/-- The last entries, as many as the window takes, are shown. -/
theorem render_eq (history : History) :
    ∃ older shown, history.entries = older ++ shown ∧
      shown.length = min history.window history.entries.length ∧
      history.render = String.intercalate " | "
        (shown.map fun entry => entry.expression ++ " = " ++ entry.result) := by
  refine ⟨_, history.recent, (List.take_append_drop _ history.entries).symm, ?_, rfl⟩
  rw [History.recent, List.length_drop]
  omega

/-- After every step of every run the registers are finite, and no outcome is about a register that
is not. At its end, the last answer is the result of the last evaluation that succeeded, or zero;
the history lists the evaluations that succeeded since it was cleared for the last time, with the
text that the buffer had before; and the last of these entries are shown, as many as the window
takes. -/
theorem bookkeeping_of_run (arithmetic : Arithmetic) (window : Nat) (commands : List Command) :
    let steps := (new window).steps arithmetic commands
    let (last, outcomes) := (new window).run arithmetic commands
    (∀ step ∈ steps, step.after.registers.Finite) ∧
      (∀ value, some (.failed (.inEvaluation (.nonFiniteRegister value))) ∉ outcomes) ∧
      last.registers.lastAnswer = (steps.filterMap Step.result?).getLast?.getD 0 ∧
      last.history.entries = (sinceClearing steps).filterMap Step.logged? ∧
      ∃ older shown, last.history.entries = older ++ shown ∧
        shown.length = min window last.history.entries.length ∧
        last.history.render = String.intercalate " | "
          (shown.map fun entry => entry.expression ++ " = " ++ entry.result) := by
  refine ⟨?_, ?_, lastAnswer_run commands, entries_run commands rfl, ?_⟩
  · have start : (new window).registers.Finite := Registers.finite_default
    exact invariant_steps start finite_step commands
  · intro value hmem
    rw [outcomes_run] at hmem
    obtain ⟨step, hstep, houtcome⟩ := List.mem_map.mp hmem
    rw [eq_step_of_mem hstep] at houtcome
    exact outcome_step_ne_nonFiniteRegister value houtcome
  · have hshown := render_eq ((new window).run arithmetic commands).1.history
    rwa [window_run] at hshown

end Session
end Calculator
