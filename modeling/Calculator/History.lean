/-!
The record of successful evaluations, oldest first. Only its last entries are shown.
-/

namespace Calculator

structure HistoryEntry where
  expression : String
  result : String
deriving DecidableEq, Repr

/-- How many entries are shown unless another number is asked for. -/
def History.defaultWindow : Nat := 4

structure History where
  entries : List HistoryEntry := []
  /-- How many of the last entries are shown. -/
  window : Nat := History.defaultWindow
deriving DecidableEq, Repr

namespace History

def push (history : History) (entry : HistoryEntry) : History :=
  { history with entries := history.entries ++ [entry] }

def clear (history : History) : History :=
  { history with entries := [] }

def recent (history : History) : List HistoryEntry :=
  history.entries.drop (history.entries.length - history.window)

def render (history : History) : String :=
  String.intercalate " | " (history.recent.map fun entry => s!"{entry.expression} = {entry.result}")

end History
end Calculator
