/-!
The shorthands that stand for a fixed text wherever they occur: the operator signs of a keypad, the
names of the constants, and the percent sign.
-/

namespace Calculator
namespace Shorthand

def operatorSign (c : Char) : Char :=
  if c = '÷' then '/' else if c = '×' then '*' else c

def constantName (c : Char) : List Char :=
  if c = 'π' then ['p', 'i'] else if c = 'ℯ' then ['e'] else [c]

def percentDivision (c : Char) : List Char :=
  if c = '%' then ['/', '1', '0', '0'] else [c]

def expandOperators (text : List Char) : List Char :=
  text.map operatorSign

def expandConstants (text : List Char) : List Char :=
  text.flatMap constantName

def expandPercents (text : List Char) : List Char :=
  text.flatMap percentDivision

end Shorthand
end Calculator
