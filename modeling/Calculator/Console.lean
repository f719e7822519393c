import Calculator.Console.Directory
import Calculator.Console.Options
import Calculator.Input
import Calculator.Session
import Calculator.Text.Lines

/-!
The calculator on a console. Lines given as arguments, lines from files and lines typed at the
prompt all go through `Session.respond`; the three differ in where the lines come from and in what
is written around the responses.
-/

namespace Calculator

/-- What is written for some input, and whether all evaluations succeeded. -/
structure Report where
  output : String := ""
  errors : String := ""
  succeeded : Bool := true
deriving DecidableEq, Repr

instance : Append Report where
  append first second :=
    ⟨first.output ++ second.output, first.errors ++ second.errors,
      first.succeeded && second.succeeded⟩

def Outcome.error? : Outcome → Option CalculationError
  | evaluated _ _ => none
  | failed error => some error

def outputLine (text : String) : String :=
  text ++ "\n"

namespace Session

def respond (arithmetic : Arithmetic) (session : Session) (input : String) : Session × Report :=
  match Input.ofLine input with
  | .commands commands =>
    let (session, outcomes) := session.run arithmetic commands
    let failures := outcomes.filterMap fun outcome => outcome.bind Outcome.error?
    (session,
      { output := outputLine session.display
        errors := String.join (failures.map fun error => outputLine error.message)
        succeeded := failures.isEmpty })
  | .showHistory => (session, { output := outputLine session.history.render })
  | .unknown name => (session, { errors := outputLine s!"unknown command ':{name}'" })
  | .quit | .empty => (session, {})

def respondAll (arithmetic : Arithmetic) (session : Session) : List String → Session × Report
  | [] => (session, {})
  | input :: rest =>
    let (next, first) := session.respond arithmetic input
    let (last, others) := next.respondAll arithmetic rest
    (last, first ++ others)

/-- The history at the end of a run that asked for it. -/
def summary (session : Session) : Report :=
  if session.history.entries = [] then {} else { output := outputLine session.history.render }

end Session

namespace Console

def promptMark : String := "> "

/-- The session that a run starts with. -/
def start (window : Option Nat) : Session :=
  Session.new (window.getD History.defaultWindow)

/-- Evaluates lines in one session, and shows the history if a window for it was given. -/
def batch (arithmetic : Arithmetic) (window : Option Nat) (lines : List String) : Report :=
  let (session, report) := (start window).respondAll arithmetic lines
  if window.isSome then report ++ session.summary else report

/-- Answers lines until one asks to quit or there are no more, with a mark before each read. -/
def promptFrom (arithmetic : Arithmetic) (session : Session) : List String → Report
  | [] => { output := promptMark }
  | input :: rest =>
    if Input.ofLine input = .quit then { output := promptMark }
    else
      let (next, report) := session.respond arithmetic input
      { output := promptMark } ++ report ++ promptFrom arithmetic next rest

def prompt (arithmetic : Arithmetic) (window : Option Nat) (lines : List String) : Report :=
  { promptFrom arithmetic (start window) lines with succeeded := true }

def inputLines (text : String) : List String :=
  (splitLines text.toList).map String.ofList

/-- The lines of a text that are not blank, trimmed. -/
def expressionLines (text : String) : List String :=
  (((splitLines text.toList).map trim).filter (· ≠ [])).map String.ofList

def unreadable (path : String) (error : FileError) : Report :=
  { errors := outputLine (s!"Failed to read the input file '{path}'. " ++
      s!"Perhaps this file does not exist? ({error.message})")
    succeeded := false }

/-- The lines of several files, or the first path that cannot be read with the reason. -/
def linesOfFiles (read : String → Except FileError String) :
    List String → Except (String × FileError) (List String)
  | [] => .ok []
  | path :: rest =>
    match read path with
    | .error error => .error (path, error)
    | .ok contents => do
      let others ← linesOfFiles read rest
      return expressionLines contents ++ others

def files (arithmetic : Arithmetic) (window : Option Nat) (read : String → Except FileError String)
    (paths : List String) : Report :=
  match linesOfFiles read paths with
  | .error (path, error) => unreadable path error
  | .ok lines => batch arithmetic window lines

/-- A run; without expressions it is the prompt, which reads the given input. -/
def run (arithmetic : Arithmetic) (options : Options)
    (read : String → Except FileError String) (input : String) : Report :=
  if options.expressions = [] then prompt arithmetic options.historyWindow (inputLines input)
  else if options.fromFiles then
    files arithmetic options.historyWindow read options.expressions
  else batch arithmetic options.historyWindow options.expressions

def usage : String :=
  "Usage: calcrs [OPTIONS] [EXPRESSIONS]..."

/-- What the package says of itself, and then what it says of its arguments. -/
def help : String :=
  String.intercalate "\n"
    ["A scientific calculator core: rewrite, tokenize, parse and evaluate typed expressions",
      "",
      usage,
      "",
      "Arguments:",
      "  [EXPRESSIONS]...  Expressions to evaluate in order. Without any, an interactive prompt " ++
        "starts. Expressions may start with `-`, e.g. `calcrs -2^2`",
      "",
      "Options:",
      "  -f, --file         Read expressions from a file, one per line, instead of the command " ++
        "line",
      "  -H, --history <N>  Number of recent evaluations shown by the history",
      "  -h, --help         Print help",
      "  -V, --version      Print version"]

def version : String :=
  "calcrs 0.1.0"

/-- How an invocation that is refused is answered, but for the argument at fault. -/
def refusal : String :=
  usage ++ "\n\nFor more information, try '--help'."

end Console

/-- The exit code of a run. -/
def Report.exitCode (report : Report) : UInt32 :=
  if report.succeeded then 0 else 1

/-- What an invocation writes, and its exit code. -/
def Invocation.perform (arithmetic : Arithmetic) (read : String → Except FileError String)
    (input : String) : Invocation → Report × UInt32
  | run options =>
    let report := Console.run arithmetic options read input
    (report, report.exitCode)
  | showHelp => ({ output := outputLine Console.help }, 0)
  | showVersion => ({ output := outputLine Console.version }, 0)
  | refused => ({ errors := outputLine Console.refusal, succeeded := false }, 2)

end Calculator
