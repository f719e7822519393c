import Calculator.Error
import Calculator.Number.Numeral
import Calculator.Token

/-!
Reading a text as a list of tokens. A lexeme is the piece of text that a token is read from;
`Lexeme.scan?` takes the longest one off the front of a text, and `tokenize` repeats this until the
text is used up, skipping the blanks between lexemes.
-/

namespace Calculator

structure Lexeme where
  token : Token
  text : List Char
deriving DecidableEq

def isNameStart (c : Char) : Bool :=
  c.isAlpha || c = '_'

def isNamePart (c : Char) : Bool :=
  c.isAlphanum || c = '_'

/-- The number of bytes that a text takes. -/
def byteCount : List Char → Nat
  | [] => 0
  | c :: rest => c.utf8Size + byteCount rest

namespace Lexeme

def scan? : List Char → Option (Lexeme × List Char)
  | [] => none
  | c :: rest =>
    match Symbol.ofChar? c with
    | some symbol => some (⟨.symbol symbol, [c]⟩, rest)
    | none =>
      if isNameStart c then
        let name := c :: rest.takeWhile isNamePart
        some (⟨.identifier (String.ofList name), name⟩, rest.dropWhile isNamePart)
      else
        (Numeral.scan? (c :: rest)).map fun (numeral, rest) =>
          (⟨.number numeral.value, numeral.text⟩, rest)

theorem text_append_of_scan {text rest : List Char} {lexeme : Lexeme}
    (h : scan? text = some (lexeme, rest)) : lexeme.text ++ rest = text := by
  cases text with
  | nil => simp [scan?] at h
  | cons c tail =>
    simp only [scan?] at h
    split at h
    · obtain ⟨rfl, rfl⟩ := Prod.mk.inj (Option.some.inj h)
      rfl
    · split at h
      · obtain ⟨rfl, rfl⟩ := Prod.mk.inj (Option.some.inj h)
        simp
      · obtain ⟨⟨numeral, after⟩, hscan, heq⟩ := Option.map_eq_some_iff.mp h
        obtain ⟨rfl, rfl⟩ := Prod.mk.inj heq
        exact Numeral.text_append_of_scan hscan

theorem length_lt_of_scan {text rest : List Char} {lexeme : Lexeme}
    (h : scan? text = some (lexeme, rest)) : rest.length < text.length := by
  cases text with
  | nil => simp [scan?] at h
  | cons c tail =>
    simp only [scan?] at h
    split at h
    · obtain ⟨-, rfl⟩ := Prod.mk.inj (Option.some.inj h)
      simp
    · split at h
      · obtain ⟨-, rfl⟩ := Prod.mk.inj (Option.some.inj h)
        exact Nat.lt_succ_of_le (List.dropWhile_sublist _).length_le
      · obtain ⟨⟨numeral, after⟩, hscan, heq⟩ := Option.map_eq_some_iff.mp h
        obtain ⟨-, rfl⟩ := Prod.mk.inj heq
        exact Numeral.length_lt_of_scan hscan

end Lexeme

/-- The tokens of a text that starts at a position. -/
def tokensFrom (position : Nat) : List Char → Except SyntaxError (List PlacedToken)
  | [] => .ok []
  | c :: rest =>
    if isBlank c then tokensFrom (position + c.utf8Size) rest
    else
      match _h : Lexeme.scan? (c :: rest) with
      | none => .error (.unexpectedCharacter c position)
      | some (lexeme, after) => do
        let tokens ← tokensFrom (position + byteCount lexeme.text) after
        return ⟨position, lexeme.token⟩ :: tokens
termination_by text => text.length
decreasing_by
  · simp
  · exact Lexeme.length_lt_of_scan _h

def tokenize (text : String) : Except SyntaxError (List PlacedToken) :=
  tokensFrom 0 text.toList

end Calculator
