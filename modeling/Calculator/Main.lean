import Calculator.Console

/-!
The program. With expressions among its arguments it evaluates them, or the files they name, and
exits; without any it answers the lines of standard input at a prompt.
-/

namespace Calculator

/-- Opening a path reports the path with the error; a directory opens, and fails when it is read. -/
def FileError.ofIO : IO.Error → FileError
  | .noFileOrDirectory _ _ _ => .notFound
  | .permissionDenied _ _ _ => .permissionDenied
  | .inappropriateType (some _) _ _ => .notDirectory
  | .inappropriateType none _ _ => .isDirectory
  | .invalidArgument _ _ _ => .nameTooLong
  | .userError _ => .notText
  | error => .other (toString error)

def contentsOf (path : String) : IO (Except FileError String) := do
  try
    return .ok (← IO.FS.readFile path)
  catch error =>
    return .error (FileError.ofIO error)

def write (report : Report) : IO Unit := do
  IO.print report.output
  IO.eprint report.errors
  (← IO.getStdout).flush

/-- Answers lines as they come; `Console.prompt` says what is written for all of them. -/
partial def answerLines (session : Session) : IO Unit := do
  write { output := Console.promptMark }
  let input ← (← IO.getStdin).getLine
  if input.isEmpty || Input.ofLine input = .quit then return
  let (session, report) := session.respond .binary64 input
  write report
  answerLines session

/-- The paths of the files that an invocation reads. -/
def Invocation.paths : Invocation → List String
  | run options => if options.fromFiles then options.expressions else []
  | _ => []

def Invocation.execute (invocation : Invocation) : IO UInt32 := do
  match invocation with
  | run { expressions := [], historyWindow, .. } =>
    answerLines (Console.start historyWindow)
    return 0
  | _ =>
    let contents ← invocation.paths.mapM contentsOf
    let read path := ((invocation.paths.zip contents).lookup path).getD (.error .notFound)
    let (report, code) := invocation.perform .binary64 read ""
    write report
    return code

end Calculator

def main (arguments : List String) : IO UInt32 :=
  (Calculator.Invocation.ofArguments arguments).execute
