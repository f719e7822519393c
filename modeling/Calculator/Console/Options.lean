/-!
Command line arguments. Options come first: whether the expressions are in files, how many history
entries are shown, and the two requests that end a run at once. The first argument that is no option
starts the expressions, and from there on nothing is an option any more, so that negative numbers
need no escape. Letters of options may share one dash, as long as every letter is one of an option.
-/

namespace Calculator

structure Options where
  fromFiles : Bool := false
  historyWindow : Option Nat := none
  expressions : List String := []
deriving DecidableEq, Repr

/-- What the arguments ask for. -/
inductive Invocation where
  | run (options : Options)
  | showHelp
  | showVersion
  | refused
deriving DecidableEq, Repr

/-- One option of an argument. -/
inductive OptionItem where
  | files
  /-- The number of history entries, unless it is the next argument. -/
  | history (attached : Option String)
  | help
  | version
  /-- A value for an option that takes none. -/
  | surplusValue
deriving DecidableEq, Repr

namespace OptionItem

/-- The options that share a dash. A history option takes the letters after it as its value. -/
def ofLetters : List Char → Option (List OptionItem)
  | [] => some []
  | letter :: rest =>
    match letter with
    | 'f' => (ofLetters rest).map (files :: ·)
    | 'h' => (ofLetters rest).map (help :: ·)
    | 'V' => (ofLetters rest).map (version :: ·)
    | 'H' =>
      (ofLetters rest).map fun _ =>
        [history (if rest = [] then none else some (String.ofList rest))]
    | _ => none

/-- An option by its full name, with the value after an equals sign if there is one. -/
def ofName (name : List Char) (value : Option (List Char)) : Option (List OptionItem) :=
  let plain (item : OptionItem) := some [if value.isSome then surplusValue else item]
  match String.ofList name with
  | "file" => plain files
  | "help" => plain help
  | "version" => plain version
  | "history" => some [history (value.map String.ofList)]
  | _ => none

/-- The options in an argument, if it holds nothing else. -/
def ofArgument (argument : String) : Option (List OptionItem) :=
  match argument.toList with
  | '-' :: '-' :: text =>
    ofName (text.takeWhile (· ≠ '=')) ((text.dropWhile (· ≠ '=')).tail?)
  | '-' :: letter :: letters => ofLetters (letter :: letters)
  | _ => none

end OptionItem

namespace Options

/-- The largest number that an option takes. -/
def countLimit : Nat := UInt64.size - 1

/-- A number of entries: decimal digits, after a plus sign if one likes. -/
def count? (text : String) : Option Nat :=
  let digits := match text.toList with
    | [] => []
    | c :: rest => if c = '+' then rest else c :: rest
  if digits ≠ [] ∧ digits.all Char.isDigit ∧ Nat.ofDigitChars 10 digits 0 ≤ countLimit then
    some (Nat.ofDigitChars 10 digits 0)
  else none

/-- Sets the number of history entries, which can be done once. -/
def withWindow (options : Options) (value : String) : Option Options :=
  match options.historyWindow, count? value with
  | none, some window => some { options with historyWindow := some window }
  | _, _ => none

/-- How reading goes on after some options. -/
inductive Progress where
  | further (options : Options)
  | awaitingWindow (options : Options)
  | ended (invocation : Invocation)
deriving DecidableEq, Repr

/-- Follows options in order; the first that cannot be followed, or that ends the run, decides. -/
def follow (options : Options) : List OptionItem → Progress
  | [] => .further options
  | .files :: rest =>
    if options.fromFiles then .ended .refused else { options with fromFiles := true }.follow rest
  | .history none :: _ => .awaitingWindow options
  | .history (some value) :: rest =>
    match options.withWindow value with
    | none => .ended .refused
    | some options => options.follow rest
  | .help :: _ => .ended .showHelp
  | .version :: _ => .ended .showVersion
  | .surplusValue :: _ => .ended .refused

/-- Reads the arguments behind the options read so far. -/
def readFrom (options : Options) : List String → Invocation
  | [] => .run options
  | argument :: rest =>
    if argument = "--" then .run { options with expressions := rest }
    else
      match OptionItem.ofArgument argument with
      | none => .run { options with expressions := argument :: rest }
      | some items =>
        match options.follow items, rest with
        | .ended invocation, _ => invocation
        | .further options, rest => options.readFrom rest
        | .awaitingWindow _, [] => .refused
        | .awaitingWindow options, value :: rest =>
          match options.withWindow value with
          | none => .refused
          | some options => options.readFrom rest

end Options

def Invocation.ofArguments (arguments : List String) : Invocation :=
  Options.readFrom {} arguments

end Calculator
