/-!
The lines of a text. A line feed ends a line, together with the carriage return in front of it if
there is one, so at the end of a text it starts no further one.
-/

namespace Calculator

def splitLines : List Char → List (List Char)
  | [] => []
  | c :: rest =>
    if c = '\n' then [] :: splitLines rest
    else if c = '\r' ∧ rest.head? = some '\n' then splitLines rest
    else
      match splitLines rest with
      | [] => [[c]]
      | first :: others => (c :: first) :: others

end Calculator
