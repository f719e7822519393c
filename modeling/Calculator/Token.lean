import Calculator.Number.Text

/-!
The words of an expression, and how they are written.
-/

namespace Calculator

inductive Symbol where
  | plus
  | minus
  | star
  | slash
  | caret
  | opening
  | closing
  | comma
deriving DecidableEq, Repr

inductive Token where
  | number (value : Float)
  | identifier (name : String)
  | symbol (sign : Symbol)
  /-- Stands for blanks between words; reading a text produces none. -/
  | blank
deriving DecidableEq

/-- A token with the number of bytes in front of it. -/
structure PlacedToken where
  position : Nat
  token : Token
deriving DecidableEq

namespace Symbol

def char : Symbol → Char
  | plus => '+'
  | minus => '-'
  | star => '*'
  | slash => '/'
  | caret => '^'
  | opening => '('
  | closing => ')'
  | comma => ','

def all : List Symbol :=
  [plus, minus, star, slash, caret, opening, closing, comma]

def ofChar? (c : Char) : Option Symbol :=
  all.find? (·.char = c)

theorem ofChar?_char (symbol : Symbol) : ofChar? symbol.char = some symbol := by
  cases symbol <;> rfl

theorem char_of_ofChar {c : Char} {symbol : Symbol} (h : ofChar? c = some symbol) :
    symbol.char = c := by
  simpa using List.find?_some h

end Symbol

def Token.text : Token → String
  | .number value => Number.plain value
  | .identifier name => name
  | .symbol sign => sign.char.toString
  | .blank => ""

end Calculator
