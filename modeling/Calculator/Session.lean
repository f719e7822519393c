import Calculator.Calculation
import Calculator.Command
import Calculator.History

/-!
A session: the text being typed, the registers, the history, and whether the last command was an
evaluation that failed. Commands change a session one after the other, and only evaluations have an
outcome.
-/

namespace Calculator

structure Session where
  buffer : String := ""
  registers : Registers := {}
  history : History := {}
  failed : Bool := false
deriving DecidableEq

inductive Outcome where
  | evaluated (expression : String) (result : Float)
  | failed (error : CalculationError)
deriving DecidableEq

namespace Session

/-- An empty session that shows a number of history entries. -/
def new (window : Nat) : Session :=
  { history := { window } }

def display (session : Session) : String :=
  if session.failed then "Error" else session.buffer

def type (session : Session) (text : String) : Session :=
  { session with buffer := session.buffer ++ text }

def toggleSign (buffer : String) : String :=
  match buffer.toList with
  | [] => ""
  | c :: rest => if c = '-' then String.ofList rest else String.ofList ('-' :: c :: rest)

/-- Stores the number that the buffer starts with, or zero if there is none to store. -/
def storeMemory (registers : Registers) (buffer : String) : Registers :=
  match leadingNumber buffer with
  | none => registers.clearMemory
  | some value =>
    match registers.setMemory value with
    | .ok updated => updated
    | .error _ => registers.clearMemory

/-- The value of the buffer and the registers that remember it. -/
def calculate (arithmetic : Arithmetic) (session : Session) :
    Except CalculationError (Float × Registers) := do
  let value ← evaluate arithmetic session.registers session.buffer
  match session.registers.setLastAnswer value with
  | .ok registers => .ok (value, registers)
  | .error error => .error (.inEvaluation error)

/-- A success replaces the buffer by the result and enters both into the history; a failure only
shows on the display. -/
def evaluateBuffer (arithmetic : Arithmetic) (session : Session) : Session × Outcome :=
  match session.calculate arithmetic with
  | .error error => ({ session with failed := true }, .failed error)
  | .ok (value, registers) =>
    let result := Number.text value
    ({ session with
        buffer := result
        registers
        history := session.history.push ⟨session.buffer, result⟩ },
      .evaluated session.buffer value)

def perform (arithmetic : Arithmetic) (session : Session) :
    Command → Session × Option Outcome
  | .append text => (session.type text, none)
  | .clear => ({ session with buffer := "" }, none)
  | .backspace => ({ session with buffer := String.ofList session.buffer.toList.dropLast }, none)
  | .toggleSign => ({ session with buffer := toggleSign session.buffer }, none)
  | .evaluate =>
    let (session, outcome) := session.evaluateBuffer arithmetic
    (session, some outcome)
  | .memoryStore =>
    ({ session with registers := storeMemory session.registers session.buffer }, none)
  | .memoryRecall => ({ session with buffer := Number.text session.registers.memory }, none)
  | .memoryClear => ({ session with registers := session.registers.clearMemory }, none)
  | .answer => (session.type Registers.answerName, none)
  | .constant constant => (session.type constant.symbol, none)
  | .call builtIn => (session.type builtIn.opening, none)
  | .percent => (session.type "%", none)
  | .power => (session.type "^", none)
  | .clearHistory => ({ session with history := session.history.clear }, none)

/-- Performs a command; whichever it is, an earlier failure is no longer shown. -/
def apply (arithmetic : Arithmetic) (session : Session) (command : Command) :
    Session × Option Outcome :=
  { session with failed := false }.perform arithmetic command

/-- Applies commands in order and collects what each of them returned. -/
def run (arithmetic : Arithmetic) (session : Session) :
    List Command → Session × List (Option Outcome)
  | [] => (session, [])
  | command :: rest =>
    let (next, outcome) := session.apply arithmetic command
    let (last, outcomes) := next.run arithmetic rest
    (last, outcome :: outcomes)

end Session
end Calculator
