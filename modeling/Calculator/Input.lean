import Calculator.Command
import Calculator.Text.Blank

/-!
Lines of input. A line is an expression, the continuation of the last result, or, after a colon, the
name of something else to do.
-/

namespace Calculator

inductive Input where
  | commands (commands : List Command)
  | showHistory
  | quit
  | unknown (name : String)
  | empty
deriving DecidableEq, Repr

namespace Input

/-- A line that starts with one of these goes on from what the buffer holds. A minus sign does not:
it starts a negative number. -/
def continuations : List Char :=
  ['+', '*', '/', '^', '×', '÷', '%']

def ofName (name : String) : Input :=
  match name with
  | "ms" => commands [.memoryStore]
  | "mr" => commands [.memoryRecall]
  | "mc" => commands [.memoryClear]
  | "ans" => commands [.answer]
  | "clear-history" => commands [.clearHistory]
  | "history" => showHistory
  | "quit" | "q" => quit
  | _ => unknown name

def ofLine (line : String) : Input :=
  match trim line.toList with
  | [] => empty
  | c :: rest =>
    let text := String.ofList (c :: rest)
    if c = ':' then ofName (String.ofList (trim rest))
    else if c ∈ continuations then commands [.append text, .evaluate]
    else commands [.clear, .append text, .evaluate]

end Input
end Calculator
