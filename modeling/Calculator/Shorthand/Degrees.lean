import Calculator.Text.Blank

/-!
Degree marks. A trigonometric call is flat when its argument is not empty and has no parenthesis in
it; a flat call takes its argument in degrees. `markDegrees` says so in the text, by a mark behind
the argument of every flat call that does not end in one already.
-/

namespace Calculator
namespace Shorthand

structure FlatCall where
  /-- The function's name and the opening parenthesis. -/
  head : List Char
  argument : List Char
deriving DecidableEq, Repr

def isParenthesis (c : Char) : Bool :=
  c = '(' ∨ c = ')'

def trigHeads : List (List Char) :=
  [['s', 'i', 'n', '('], ['c', 'o', 's', '('], ['t', 'a', 'n', '(']]

def degreeMark : List Char := ['d', 'e', 'g']

def endsInDegreeMark (argument : List Char) : Bool :=
  degreeMark.isSuffixOf (trimEnd argument)

/-- The flat call at the front of a text, and the text after its closing parenthesis. -/
def flatCall? (text : List Char) : Option (FlatCall × List Char) :=
  if text.take 4 ∈ trigHeads then
    let body := text.drop 4
    let argument := body.takeWhile (!isParenthesis ·)
    match body.dropWhile (!isParenthesis ·) with
    | ')' :: rest => if argument = [] then none else some (⟨text.take 4, argument⟩, rest)
    | _ => none
  else none

def FlatCall.text (call : FlatCall) : List Char :=
  call.head ++ call.argument ++ [')']

def FlatCall.marked (call : FlatCall) : List Char :=
  if endsInDegreeMark call.argument then call.text
  else call.head ++ call.argument ++ ' ' :: degreeMark ++ [')']

/-- A flat call is a part of the text, and the rest follows it. -/
theorem text_append_of_flatCall {text rest : List Char} {call : FlatCall}
    (h : flatCall? text = some (call, rest)) : call.text ++ rest = text := by
  simp only [flatCall?] at h
  split at h
  · split at h
    · rename_i after hafter
      split at h
      · simp at h
      · obtain ⟨rfl, rfl⟩ := Prod.mk.inj (Option.some.inj h)
        have hbody := List.takeWhile_append_dropWhile (p := (!isParenthesis ·)) (l := text.drop 4)
        rw [hafter] at hbody
        have htext := List.take_append_drop 4 text
        rw [← hbody] at htext
        simpa [FlatCall.text] using htext
    · simp at h
  · simp at h

theorem length_lt_of_flatCall {text rest : List Char} {call : FlatCall}
    (h : flatCall? text = some (call, rest)) : rest.length < text.length := by
  have hlength := congrArg List.length (text_append_of_flatCall h)
  simp only [FlatCall.text, List.length_append, List.length_cons, List.length_nil] at hlength
  omega

def markDegrees : List Char → List Char
  | [] => []
  | c :: rest =>
    match _h : flatCall? (c :: rest) with
    | some (call, after) => call.marked ++ markDegrees after
    | none => c :: markDegrees rest
termination_by text => text.length
decreasing_by
  · exact length_lt_of_flatCall _h
  · simp

end Shorthand
end Calculator
