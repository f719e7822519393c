import Calculator.Console
import Calculator.Proofs.Session.Trace
import Mathlib.Data.List.DropRight

/-!
The three ways to give lines to the calculator.

Lines from files are trimmed, and blank ones are left out, before they are answered; lines given as
arguments are answered as they are. Both come to the same, since every line is trimmed when it is
read and a blank one is answered by nothing. A prompt answers the lines up to the first that asks to
quit, and writes a mark before each read.
-/

namespace Calculator

section Trimming

theorem trimEnd_prefix (text : List Char) : trimEnd text <+: text :=
  List.rdropWhile_prefix isBlank text

theorem trimStart_trimEnd (text : List Char) :
    trimStart (trimEnd (trimStart text)) = trimEnd (trimStart text) := by
  cases h : trimEnd (trimStart text) with
  | nil => rfl
  | cons c rest =>
      obtain ⟨blanks, htext⟩ := trimEnd_prefix (trimStart text)
      have head := List.head?_dropWhile_not isBlank text
      rw [show text.dropWhile isBlank = _ from htext.symm, h] at head
      exact List.dropWhile_cons_of_neg (by simpa using head)

theorem trim_trim (text : List Char) : trim (trim text) = trim text := by
  rw [trim, trim, trimStart_trimEnd]
  exact List.rdropWhile_idempotent isBlank (trimStart text)

theorem Input.ofLine_trim (text : List Char) :
    Input.ofLine (String.ofList (trim text)) = Input.ofLine (String.ofList text) := by
  simp only [Input.ofLine, String.toList_ofList, trim_trim]

theorem Input.ofLine_blank {text : List Char} (h : trim text = []) :
    Input.ofLine (String.ofList text) = .empty := by
  simp only [Input.ofLine, String.toList_ofList, h]

end Trimming

namespace Report

@[simp] theorem nil_append (report : Report) : ({} : Report) ++ report = report := by
  show Report.mk ("" ++ report.output) ("" ++ report.errors) (true && report.succeeded) = report
  simp

/-- What is written for several inputs, one after the other. -/
def join (reports : List Report) : Report :=
  reports.foldr (· ++ ·) {}

theorem output_join (reports : List Report) :
    (join reports).output = String.join (reports.map (·.output)) := by
  induction reports with
  | nil => rfl
  | cons report rest ih => exact (congrArg (report.output ++ ·) ih).trans String.join_cons.symm

theorem errors_join (reports : List Report) :
    (join reports).errors = String.join (reports.map (·.errors)) := by
  induction reports with
  | nil => rfl
  | cons report rest ih => exact (congrArg (report.errors ++ ·) ih).trans String.join_cons.symm

end Report

variable {arithmetic : Arithmetic} {session : Session}

namespace Session

/-- What is written for each of several lines. -/
def responses (arithmetic : Arithmetic) (session : Session) : List String → List Report
  | [] => []
  | input :: rest =>
    let (next, report) := session.respond arithmetic input
    report :: next.responses arithmetic rest

theorem respondAll_eq_join (lines : List String) :
    (session.respondAll arithmetic lines).2 = Report.join (session.responses arithmetic lines) := by
  induction lines generalizing session with
  | nil => rfl
  | cons input rest ih => exact congrArg ((session.respond arithmetic input).2 ++ ·) ih

/-- Trimming lines and leaving out the blank ones changes nothing. -/
theorem respondAll_trimmed (lines : List (List Char)) :
    session.respondAll arithmetic (((lines.map trim).filter (· ≠ [])).map String.ofList) =
      session.respondAll arithmetic (lines.map String.ofList) := by
  induction lines generalizing session with
  | nil => rfl
  | cons line rest ih =>
      rw [List.map_cons, List.map_cons]
      by_cases blank : trim line = []
      · rw [List.filter_cons_of_neg (by simpa using blank), ih]
        simp only [respondAll, respond, Input.ofLine_blank blank, Report.nil_append]
      · rw [List.filter_cons_of_pos (by simpa using blank), List.map_cons]
        simp only [respondAll, respond, Input.ofLine_trim, ih]

/-- An evaluation that fails. -/
def Step.Fails (step : Step) : Prop :=
  step.command = .evaluate ∧ ∃ error, step.outcome = some (.failed error)

theorem fails_of_mem {commands : List Command} {step : Step}
    (h : step ∈ session.steps arithmetic commands) :
    step.Fails ↔ ∃ error, step.outcome.bind Outcome.error? = some error := by
  have command : ∀ outcome, step.outcome = some outcome → step.command = .evaluate := by
    intro outcome houtcome
    rw [eq_step_of_mem h] at houtcome
    cases hcommand : step.command with
    | evaluate => rfl
    | append | clear | backspace | toggleSign | memoryStore | memoryRecall | memoryClear | answer
    | constant | call | percent | power | clearHistory =>
        rw [hcommand] at houtcome
        cases houtcome
  constructor
  · rintro ⟨-, error, houtcome⟩
    exact ⟨error, by rw [houtcome]; rfl⟩
  · rintro ⟨error, herror⟩
    obtain ⟨outcome, houtcome, hfailed⟩ := Option.bind_eq_some_iff.mp herror
    cases outcome with
    | evaluated => cases hfailed
    | failed error => exact ⟨command _ houtcome, error, houtcome⟩

theorem respond_commands {input : String} {commands : List Command}
    (h : Input.ofLine input = .commands commands) :
    (session.respond arithmetic input).1 = (session.run arithmetic commands).1 ∧
      ((session.respond arithmetic input).2.succeeded = false ↔
        ∃ step ∈ session.steps arithmetic commands, step.Fails) := by
  simp only [respond, h, outcomes_run, List.isEmpty_eq_false_iff_exists_mem, List.mem_filterMap,
    List.mem_map]
  refine ⟨trivial, ?_⟩
  constructor
  · rintro ⟨error, _, ⟨step, hstep, rfl⟩, herror⟩
    exact ⟨step, hstep, (fails_of_mem hstep).mpr ⟨error, herror⟩⟩
  · rintro ⟨step, hstep, fails⟩
    obtain ⟨error, herror⟩ := (fails_of_mem hstep).mp fails
    exact ⟨error, _, ⟨step, hstep, rfl⟩, herror⟩

end Session

def Input.given : Input → List Command
  | .commands given => given
  | _ => []

/-- The commands that lines give, one after the other. -/
def Console.commandsOf (lines : List String) : List Command :=
  lines.flatMap fun line => (Input.ofLine line).given

theorem Console.commandsOf_cons (line : String) (rest : List String) :
    commandsOf (line :: rest) = (Input.ofLine line).given ++ commandsOf rest :=
  List.flatMap_cons

namespace Session

theorem respond_given (input : String) :
    (session.respond arithmetic input).1 =
        (session.run arithmetic (Input.ofLine input).given).1 ∧
      ((session.respond arithmetic input).2.succeeded = false ↔
        ∃ step ∈ session.steps arithmetic (Input.ofLine input).given, step.Fails) := by
  cases h : Input.ofLine input with
  | commands commands => exact respond_commands h
  | showHistory | quit | unknown | empty =>
      simp [respond, h, Input.given, run, steps]

theorem succeeded_respondAll (lines : List String) :
    (session.respondAll arithmetic lines).2.succeeded = false ↔
      ∃ step ∈ session.steps arithmetic (Console.commandsOf lines), step.Fails := by
  induction lines generalizing session with
  | nil => simp [respondAll, Console.commandsOf, steps]
  | cons input rest ih =>
      obtain ⟨after, fails⟩ : _ ∧ ((session.respond arithmetic input).2.succeeded = false ↔ _) :=
        respond_given input
      rw [Console.commandsOf_cons, steps_append, ← after]
      simp only [List.mem_append, or_and_right, exists_or, ← fails, ← ih]
      exact Bool.and_eq_false_iff

end Session

namespace Console

theorem linesOfFiles_of_read {read : String → Except FileError String}
    {paths contents : List String}
    (readable : paths.map read = contents.map .ok) :
    linesOfFiles read paths = .ok (contents.flatMap expressionLines) := by
  induction paths generalizing contents with
  | nil =>
      obtain rfl : contents = [] := by simpa using readable.symm
      rfl
  | cons path rest ih =>
      cases contents with
      | nil => simp at readable
      | cons text texts =>
          obtain ⟨hpath, hrest⟩ := List.cons.inj readable
          simp only [linesOfFiles, hpath, ih hrest]
          rfl

theorem respondAll_expressionLines (texts : List String) :
    session.respondAll arithmetic (texts.flatMap expressionLines) =
      session.respondAll arithmetic (texts.flatMap inputLines) := by
  have trimmed : texts.flatMap expressionLines =
      (((texts.flatMap (splitLines ·.toList)).map trim).filter (· ≠ [])).map String.ofList := by
    simp only [List.map_flatMap, List.filter_flatMap]
    rfl
  have whole : texts.flatMap inputLines =
      (texts.flatMap (splitLines ·.toList)).map String.ofList := by
    simp only [List.map_flatMap]
    rfl
  rw [trimmed, whole, Session.respondAll_trimmed]

/-- The output of a prompt that answers with these reports: a mark before each and one at the
end. -/
def marked (reports : List Report) : String :=
  String.join (reports.map fun report => promptMark ++ report.output) ++ promptMark

theorem promptFrom_eq (lines : List String) :
    let responses := session.responses arithmetic (lines.takeWhile (Input.ofLine · ≠ .quit))
    (promptFrom arithmetic session lines).output = marked responses ∧
      (promptFrom arithmetic session lines).errors = String.join (responses.map (·.errors)) := by
  induction lines generalizing session with
  | nil => exact ⟨rfl, rfl⟩
  | cons input rest ih =>
      by_cases quits : Input.ofLine input = .quit
      · rw [List.takeWhile_cons_of_neg (by simpa using quits), promptFrom, if_pos quits]
        exact ⟨rfl, rfl⟩
      · rw [List.takeWhile_cons_of_pos (by simpa using quits), promptFrom, if_neg quits]
        obtain ⟨output, errors⟩ := @ih (session.respond arithmetic input).1
        constructor
        · show promptMark ++ _ ++ _ = _
          rw [output]
          simp [marked, Session.responses, String.join_cons, String.append_assoc]
        · show "" ++ _ ++ _ = _
          rw [errors]
          simp [Session.responses, String.join_cons]

theorem succeeded_batch (window : Option Nat) (lines : List String) :
    (batch arithmetic window lines).succeeded =
      ((start window).respondAll arithmetic lines).2.succeeded := by
  have summary : ∀ last : Session, last.summary.succeeded = true := by
    intro last
    rw [Session.summary]
    split <;> rfl
  simp only [batch]
  split
  · exact (congrArg _ (summary _)).trans (Bool.and_true _)
  · rfl

theorem batch_without_window (lines : List String) :
    batch arithmetic none lines = Report.join ((start none).responses arithmetic lines) :=
  Session.respondAll_eq_join lines

theorem perform_arguments {read : String → Except FileError String} {input : String}
    {window : Option Nat} {lines : List String} (given : lines ≠ []) :
    (Invocation.run { historyWindow := window, expressions := lines }).perform arithmetic
        read input =
      (batch arithmetic window lines, (batch arithmetic window lines).exitCode) := by
  simp [Invocation.perform, run, given]

theorem perform_files {read : String → Except FileError String} {input : String}
    {window : Option Nat} {paths contents : List String} (given : paths ≠ [])
    (readable : paths.map read = contents.map .ok) :
    (Invocation.run { fromFiles := true, historyWindow := window, expressions := paths }).perform
        arithmetic read input =
      (batch arithmetic window (contents.flatMap inputLines),
        (batch arithmetic window (contents.flatMap inputLines)).exitCode) := by
  have same : files arithmetic window read paths =
      batch arithmetic window (contents.flatMap inputLines) := by
    simp only [files, linesOfFiles_of_read readable, batch, respondAll_expressionLines]
  simp only [Invocation.perform, run, if_neg given, if_true, same]

/-- Lines from files that can be read are answered like lines given as arguments. A prompt answers
like a run over the lines before the first that asks to quit, but for its marks, and exits with
zero. A run over lines exits with another code if and only if one of their evaluations fails. -/
theorem lines_are_answered_alike (arithmetic : Arithmetic)
    (read : String → Except FileError String) (window : Option Nat) (lines : List String)
    (given : lines ≠ []) :
    (∀ (paths contents : List String) (input : String), paths.map read = contents.map .ok →
      contents.flatMap inputLines = lines →
      (Invocation.run { fromFiles := true, historyWindow := window, expressions := paths }).perform
          arithmetic read input =
        (Invocation.run { historyWindow := window, expressions := lines }).perform
          arithmetic read input) ∧
    (let answered := lines.takeWhile (Input.ofLine · ≠ .quit)
      let responses := (start none).responses arithmetic answered
      (prompt arithmetic none lines).output = marked responses ∧
      (batch arithmetic none answered).output = String.join (responses.map (·.output)) ∧
      (prompt arithmetic none lines).errors = (batch arithmetic none answered).errors ∧
      (prompt arithmetic none lines).exitCode = 0 ∧
      ∀ input, inputLines input = lines →
        (Invocation.run {}).perform arithmetic read input = (prompt arithmetic none lines, 0)) ∧
    ∀ input, ((Invocation.run { historyWindow := window, expressions := lines }).perform
        arithmetic read input).2 ≠ 0 ↔
      ∃ step ∈ (start window).steps arithmetic (commandsOf lines), step.Fails := by
  refine ⟨?_, ?_, ?_⟩
  · rintro paths contents input readable rfl
    have named : paths ≠ [] := by
      rintro rfl
      obtain rfl : contents = [] := by simpa using readable.symm
      exact given rfl
    rw [perform_files named readable, perform_arguments given]
  · intro answered responses
    obtain ⟨output, errors⟩ := @promptFrom_eq arithmetic (start none) lines
    rw [batch_without_window, Report.output_join, Report.errors_join]
    refine ⟨output, rfl, errors, rfl, ?_⟩
    rintro input rfl
    rfl
  · intro input
    rw [perform_arguments given, ← Session.succeeded_respondAll, ← succeeded_batch]
    simp [Report.exitCode]

/-- A file with a blank line, a division by zero and a line that asks to quit before the end. -/
theorem division_by_zero_is_answered_alike :
    let text := "7 \r\n\n1/0\n:q\n*3"
    let lines := ["7 ", "", "1/0", ":q", "*3"]
    let read := fun path => if path = "sums" then .ok text else .error .notFound
    let options : Options := { historyWindow := some 2 }
    lines ≠ [] ∧ ["sums"].map read = [text].map .ok ∧ [text].flatMap inputLines = lines ∧
      (Invocation.run { options with fromFiles := true, expressions := ["sums"] }).perform
          .binary64 read "" =
        (Invocation.run { options with expressions := lines }).perform .binary64 read "" ∧
      ((Invocation.run { options with expressions := lines }).perform .binary64 read "").2 ≠ 0 ∧
      (Invocation.run {}).perform .binary64 read text = (prompt .binary64 none lines, 0) := by
  intro text lines read options
  have given : lines ≠ [] := by decide
  have readable : ["sums"].map read = [text].map .ok := by decide
  have spelled : inputLines text = lines := by decide +kernel
  have fails : ∃ step ∈ (start (some 2)).steps .binary64 (commandsOf lines),
      step.command = .evaluate ∧
        step.outcome = some (.failed (.inEvaluation (.undefinedResult "/" [1, 0] 1))) := by
    decide +kernel
  obtain ⟨step, hstep, hcommand, houtcome⟩ := fails
  obtain ⟨alike, ⟨-, -, -, -, prompted⟩, exits⟩ :=
    lines_are_answered_alike .binary64 read (some 2) lines given
  have whole : [text].flatMap inputLines = lines := by simpa using spelled
  exact ⟨given, readable, whole, alike ["sums"] [text] "" readable whole,
    (exits "").mpr ⟨step, hstep, hcommand, _, houtcome⟩, prompted text spelled⟩

end Console
end Calculator
