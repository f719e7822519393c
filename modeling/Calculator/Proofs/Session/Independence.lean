import Calculator.Proofs.Session.Trace

/-!
What memory and history have no say in.

Two sessions are run side by side. If they differ in memory alone they go on to do the same, as
long as nothing is recalled before something is stored or memory is cleared: from then on they are
one and the same session. If they differ in the history alone, in its entries or in how many are
shown, they do the same whatever is asked of them. Both rest on evaluation, which reads the text of
the buffer and the last answer and nothing else.
-/

namespace Calculator

variable {arithmetic : Arithmetic}

section Registers

variable {first second : Registers} (same : first.lastAnswer = second.lastAnswer)
include same

theorem Registers.valueOf_congr (name : String) (position : Nat) :
    first.valueOf name position = second.valueOf name position := by
  simp only [Registers.valueOf, same]

theorem Expression.evaluate_congr (node : Expression) :
    node.evaluate arithmetic first = node.evaluate arithmetic second := by
  induction node with
  | literal => rfl
  | reference name position => simp only [evaluate, Registers.valueOf_congr same]
  | unary _ _ _ ih | call _ _ _ ih => simp only [evaluate, ih]
  | binary _ _ _ _ ihLeft ihRight => simp only [evaluate, ihLeft, ihRight]

theorem evaluate_congr (text : String) :
    evaluate arithmetic first text = evaluate arithmetic second text := by
  simp only [evaluate, Expression.evaluate_congr same]

end Registers

namespace Session

/-- Sessions that differ in memory at most. -/
structure AgreeButMemory (first second : Session) : Prop where
  buffer : first.buffer = second.buffer
  lastAnswer : first.registers.lastAnswer = second.registers.lastAnswer
  history : first.history = second.history
  failed : first.failed = second.failed

/-- Sessions that differ in their histories at most. -/
structure AgreeButHistory (first second : Session) : Prop where
  buffer : first.buffer = second.buffer
  registers : first.registers = second.registers
  failed : first.failed = second.failed

/-- What a step shows besides the memory. -/
def Step.withoutMemory (step : Step) : Option Outcome × String × String × Float × History :=
  (step.outcome, step.after.buffer, step.after.display, step.after.registers.lastAnswer,
    step.after.history)

/-- What a step shows besides the history. -/
def Step.withoutHistory (step : Step) : Option Outcome × String × String × Registers :=
  (step.outcome, step.after.buffer, step.after.display, step.after.registers)

variable {first second : Session}

theorem AgreeButMemory.display (agree : AgreeButMemory first second) :
    first.display = second.display := by
  simp only [Session.display, agree.failed, agree.buffer]

theorem AgreeButHistory.display (agree : AgreeButHistory first second) :
    first.display = second.display := by
  simp only [Session.display, agree.failed, agree.buffer]

/-- A stored number comes from the buffer, whatever the memory was. -/
theorem storeMemory_congr {first second : Registers} (same : first.lastAnswer = second.lastAnswer)
    (buffer : String) : storeMemory first buffer = storeMemory second buffer := by
  simp only [storeMemory, Registers.setMemory, Registers.clearMemory, same]

variable (arithmetic)

/-- The commands after which the memory is known. -/
def setsMemory : List Command := [.memoryStore, .memoryClear]

theorem step_setsMemory {command : Command} (sets : command ∈ setsMemory)
    (agree : AgreeButMemory first second) :
    (first.step arithmetic command).after = (second.step arithmetic command).after ∧
      (first.step arithmetic command).outcome = (second.step arithmetic command).outcome := by
  obtain ⟨buffer, ⟨_, lastAnswer⟩, history, failed⟩ := first
  obtain ⟨_, ⟨_, _⟩, _, _⟩ := second
  obtain ⟨rfl, rfl, rfl, rfl⟩ := agree
  simp only [setsMemory, List.mem_cons, List.not_mem_nil, or_false] at sets
  rcases sets with rfl | rfl
  · simp only [step, apply, perform]
    rw [storeMemory_congr rfl buffer]
    trivial
  · exact ⟨rfl, rfl⟩

theorem value_agree (buffer : first.buffer = second.buffer)
    (lastAnswer : first.registers.lastAnswer = second.registers.lastAnswer) :
    evaluate arithmetic second.registers second.buffer =
      evaluate arithmetic first.registers first.buffer := by
  rw [buffer, evaluate_congr lastAnswer]

/-- Memory is recalled into the buffer, so recalling is the one command that can show it. -/
theorem step_keeps_memory {command : Command} (known : command ≠ .memoryRecall)
    (agree : AgreeButMemory first second) :
    AgreeButMemory (first.step arithmetic command).after (second.step arithmetic command).after ∧
      (first.step arithmetic command).outcome = (second.step arithmetic command).outcome := by
  cases command with
  | evaluate =>
      have same := value_agree arithmetic agree.buffer agree.lastAnswer
      cases value : evaluate arithmetic first.registers first.buffer with
      | ok result =>
          rw [step_evaluate_of_ok value, step_evaluate_of_ok (same.trans value), agree.buffer,
            agree.history]
          exact ⟨⟨rfl, rfl, rfl, rfl⟩, rfl⟩
      | error error =>
          rw [step_evaluate_of_error value, step_evaluate_of_error (same.trans value)]
          exact ⟨⟨agree.buffer, agree.lastAnswer, agree.history, rfl⟩, rfl⟩
  | memoryRecall => exact absurd rfl known
  | memoryStore =>
      obtain ⟨same, outcome⟩ := step_setsMemory arithmetic
        (List.mem_cons_self : .memoryStore ∈ setsMemory) agree
      rw [same]
      exact ⟨⟨rfl, rfl, rfl, rfl⟩, outcome⟩
  | memoryClear | append | clear | backspace | toggleSign | answer | constant | call | percent
  | power | clearHistory =>
      obtain ⟨buffer, ⟨_, lastAnswer⟩, history, failed⟩ := first
      obtain ⟨_, ⟨_, _⟩, _, _⟩ := second
      obtain ⟨rfl, rfl, rfl, rfl⟩ := agree
      exact ⟨⟨rfl, rfl, rfl, rfl⟩, rfl⟩

theorem step_keeps_history (command : Command) (agree : AgreeButHistory first second) :
    AgreeButHistory (first.step arithmetic command).after (second.step arithmetic command).after ∧
      (first.step arithmetic command).outcome = (second.step arithmetic command).outcome := by
  cases command with
  | evaluate =>
      have same := value_agree arithmetic agree.buffer
        (congrArg Registers.lastAnswer agree.registers)
      cases value : evaluate arithmetic first.registers first.buffer with
      | ok result =>
          rw [step_evaluate_of_ok value, step_evaluate_of_ok (same.trans value), agree.buffer,
            agree.registers]
          exact ⟨⟨rfl, rfl, rfl⟩, rfl⟩
      | error error =>
          rw [step_evaluate_of_error value, step_evaluate_of_error (same.trans value)]
          exact ⟨⟨agree.buffer, agree.registers, rfl⟩, rfl⟩
  | append | clear | backspace | toggleSign | memoryStore | memoryRecall | memoryClear | answer
  | constant | call | percent | power | clearHistory =>
      obtain ⟨buffer, registers, _, failed⟩ := first
      obtain ⟨_, _, _, _⟩ := second
      obtain ⟨rfl, rfl, rfl⟩ := agree
      exact ⟨⟨rfl, rfl, rfl⟩, rfl⟩

/-- Whether memory is stored or cleared before it is recalled for the first time. -/
def KnowsMemory (commands : List Command) : Prop :=
  ∀ earlier later, commands = earlier ++ .memoryRecall :: later →
    .memoryStore ∈ earlier ∨ .memoryClear ∈ earlier

theorem KnowsMemory.ne_memoryRecall {command : Command} {rest : List Command}
    (known : KnowsMemory (command :: rest)) : command ≠ .memoryRecall := by
  rintro rfl
  simpa using known [] rest rfl

theorem KnowsMemory.rest {command : Command} {rest : List Command}
    (known : KnowsMemory (command :: rest)) (unset : command ∉ setsMemory) :
    KnowsMemory rest := by
  rintro earlier later rfl
  have := known (command :: earlier) later rfl
  simp_all [setsMemory, eq_comm]

theorem steps_withoutMemory {commands : List Command} (known : KnowsMemory commands)
    (agree : AgreeButMemory first second) :
    (first.steps arithmetic commands).map Step.withoutMemory =
      (second.steps arithmetic commands).map Step.withoutMemory := by
  induction commands generalizing first second with
  | nil => rfl
  | cons command rest ih =>
      obtain ⟨next, outcome⟩ :=
        step_keeps_memory arithmetic known.ne_memoryRecall agree
      simp only [steps, List.map_cons, Step.withoutMemory, List.cons.injEq, Prod.mk.injEq]
      refine ⟨⟨outcome, next.buffer, next.display, next.lastAnswer, next.history⟩, ?_⟩
      by_cases sets : command ∈ setsMemory
      -- Both are one session now, and may recall what they like.
      · rw [(step_setsMemory arithmetic sets agree).1]
      · exact ih (known.rest sets) next

theorem steps_withoutHistory (commands : List Command) (agree : AgreeButHistory first second) :
    (first.steps arithmetic commands).map Step.withoutHistory =
      (second.steps arithmetic commands).map Step.withoutHistory := by
  induction commands generalizing first second with
  | nil => rfl
  | cons command rest ih =>
      obtain ⟨next, outcome⟩ := step_keeps_history arithmetic command agree
      simp only [steps, List.map_cons, Step.withoutHistory, List.cons.injEq, Prod.mk.injEq]
      exact ⟨⟨outcome, next.buffer, next.display, next.registers⟩, ih next⟩

/-- Sessions that differ in memory alone cannot be told apart by commands that do not recall it
before they have set it, and sessions that differ in their histories alone cannot be told apart by
any commands, as long as nobody looks at the memory or at the histories themselves. -/
theorem runs_agree (arithmetic : Arithmetic) (first second : Session) (commands : List Command) :
    (AgreeButMemory first second → KnowsMemory commands →
      (first.steps arithmetic commands).map Step.withoutMemory =
        (second.steps arithmetic commands).map Step.withoutMemory) ∧
    (AgreeButHistory first second →
      (first.steps arithmetic commands).map Step.withoutHistory =
        (second.steps arithmetic commands).map Step.withoutHistory) :=
  ⟨fun agree known => steps_withoutMemory arithmetic known agree,
    steps_withoutHistory arithmetic commands⟩

/-- A number is stored before memory is recalled, where another number was in memory; and a result
is entered into a history that shows one entry and into one that shows four. -/
theorem runs_agree_on_stored_number :
    let commands : List Command := [.append "3", .memoryStore, .memoryRecall, .evaluate]
    let session : Session := {}
    let reminded : Session := { registers := { memory := 1 } }
    let experienced : Session := { history := { entries := [⟨"1+1", "2"⟩], window := 1 } }
    session.registers.memory ≠ reminded.registers.memory ∧ KnowsMemory commands ∧
      AgreeButMemory session reminded ∧
      (session.steps .binary64 commands).map Step.withoutMemory =
        (reminded.steps .binary64 commands).map Step.withoutMemory ∧
      session.history ≠ experienced.history ∧ AgreeButHistory session experienced ∧
      (session.steps .binary64 commands).map Step.withoutHistory =
        (experienced.steps .binary64 commands).map Step.withoutHistory := by
  intro commands session reminded experienced
  have known : KnowsMemory commands := by
    intro earlier later h
    rcases earlier with _ | ⟨_, _ | ⟨_, more⟩⟩
    · simp [commands] at h
    · simp [commands] at h
    · simp only [commands, List.cons_append, List.cons.injEq] at h
      simp [← h.2.1]
  have besidesMemory : AgreeButMemory session reminded := ⟨rfl, rfl, rfl, rfl⟩
  have besidesHistory : AgreeButHistory session experienced := ⟨rfl, rfl, rfl⟩
  exact ⟨by decide +kernel, known, besidesMemory,
    (runs_agree .binary64 session reminded commands).1 besidesMemory known,
    by decide, besidesHistory,
    (runs_agree .binary64 session experienced commands).2 besidesHistory⟩

end Session
end Calculator
