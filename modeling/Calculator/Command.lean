import Calculator.BuiltIn
import Calculator.Constant

/-!
What a user can do to a session, and the keys that do it.
-/

namespace Calculator

inductive Command where
  | append (text : String)
  | clear
  | backspace
  | toggleSign
  | evaluate
  | memoryStore
  | memoryRecall
  | memoryClear
  | answer
  | constant (constant : Constant)
  | call (builtIn : BuiltIn)
  | percent
  | power
  | clearHistory
deriving DecidableEq, Repr

namespace Command

/-- The keys that do more than type their label. -/
def keys : List (String × Command) :=
  [("C", clear), ("⌫", backspace), ("±", toggleSign), ("=", evaluate), ("MC", memoryClear),
    ("MR", memoryRecall), ("MS", memoryStore), ("ans", answer), ("π", constant .pi),
    ("e", constant .e), ("^", power), ("%", percent), ("√", call .squareRoot), ("sin", call .sin),
    ("cos", call .cos), ("tan", call .tan), ("ln", call .log), ("log", call .log10),
    ("exp", call .exp)]

def ofKey (label : String) : Command :=
  (keys.lookup label).getD (append label)

end Command
end Calculator
