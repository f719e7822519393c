import Calculator.Proofs.Grammar.Relocation
import Calculator.Proofs.Grammar.Shape
import Calculator.Token.Lexeme

/-!
Texts that are read piece by piece.

No lexeme reaches into a text that begins with a blank, a parenthesis or another character that can
only begin one, so the tokens of a text in front of it and its own are read separately. Where a
text stands only moves the positions of its tokens.
-/

namespace Calculator

/-- A text that no lexeme in front of it can reach into. -/
def Apart (text : List Char) : Prop :=
  ∀ c ∈ text.head?, isNamePart c = false ∧ c ≠ '.' ∧ c ≠ '+' ∧ c ≠ '-'

theorem apart_cons {c : Char} {rest : List Char} :
    Apart (c :: rest) ↔ isNamePart c = false ∧ c ≠ '.' ∧ c ≠ '+' ∧ c ≠ '-' := by
  simp [Apart]

/-- The same scan with more text behind it. -/
def scannedBefore {α : Type} (rest : List Char) (scanned : α × List Char) : α × List Char :=
  (scanned.1, scanned.2 ++ rest)

section Spans

variable {p : Char → Bool} {text rest : List Char}

theorem takeWhile_append_stop (h : ∀ c ∈ rest.head?, p c = false) :
    (text ++ rest).takeWhile p = text.takeWhile p := by
  induction text with
  | nil =>
      cases rest with
      | nil => rfl
      | cons c rest => simp [h c rfl]
  | cons c text ih => by_cases hc : p c <;> simp [hc, ih]

theorem dropWhile_append_stop (h : ∀ c ∈ rest.head?, p c = false) :
    (text ++ rest).dropWhile p = text.dropWhile p ++ rest := by
  induction text with
  | nil =>
      cases rest with
      | nil => rfl
      | cons c rest => simp [h c rfl]
  | cons c text ih => by_cases hc : p c <;> simp [hc, ih]

end Spans

theorem isNamePart_of_isDigit {c : Char} (h : c.isDigit = true) : isNamePart c = true := by
  simp [isNamePart, Char.isAlphanum, h]

namespace Apart

variable {text rest : List Char} (apart : Apart rest)
include apart

theorem head_isDigit : ∀ c ∈ rest.head?, c.isDigit = false := by
  intro c hc
  have hpart := (apart c hc).1
  by_cases hdigit : c.isDigit = true
  · simp [isNamePart_of_isDigit hdigit] at hpart
  · simpa using hdigit

theorem spanDigits_append :
    spanDigits (text ++ rest) = ((spanDigits text).1, (spanDigits text).2 ++ rest) := by
  simp only [spanDigits]
  rw [takeWhile_append_stop apart.head_isDigit, dropWhile_append_stop apart.head_isDigit]

theorem splitSign_append :
    splitSign (text ++ rest) = ((splitSign text).1, (splitSign text).2 ++ rest) := by
  cases text with
  | nil =>
      cases rest with
      | nil => rfl
      | cons c rest => simp [splitSign, (apart_cons.mp apart).2]
  | cons c text => simp only [List.cons_append, splitSign]; split <;> rfl

theorem scanPower_append :
    PowerOfTen.scan? (text ++ rest) = (PowerOfTen.scan? text).map (scannedBefore rest) := by
  cases text with
  | nil =>
      cases rest with
      | nil => rfl
      | cons c rest =>
          have hpart := (apart_cons.mp apart).1
          have hmark : ¬(c = 'e' ∨ c = 'E') := by
            rintro (rfl | rfl) <;> exact absurd hpart (by decide)
          simp [PowerOfTen.scan?, hmark]
  | cons c text =>
      simp only [List.cons_append, PowerOfTen.scan?, apart.splitSign_append,
        apart.spanDigits_append]
      split
      · split <;> rfl
      · rfl

theorem splitFraction_append :
    Numeral.splitFraction (text ++ rest) =
      ((Numeral.splitFraction text).1, (Numeral.splitFraction text).2 ++ rest) := by
  cases text with
  | nil =>
      cases rest with
      | nil => rfl
      | cons c rest => simp [Numeral.splitFraction, (apart_cons.mp apart).2]
  | cons c text =>
      simp only [List.cons_append, Numeral.splitFraction, apart.spanDigits_append]
      split <;> rfl

theorem splitPower_append :
    Numeral.splitPower (text ++ rest) =
      ((Numeral.splitPower text).1, (Numeral.splitPower text).2 ++ rest) := by
  simp only [Numeral.splitPower, apart.scanPower_append]
  cases PowerOfTen.scan? text <;> rfl

theorem scanNumeral_append :
    Numeral.scan? (text ++ rest) = (Numeral.scan? text).map (scannedBefore rest) := by
  simp only [Numeral.scan?, apart.spanDigits_append, apart.splitFraction_append,
    apart.splitPower_append]
  split <;> rfl

theorem scanLexeme_append (c : Char) :
    Lexeme.scan? (c :: (text ++ rest)) = (Lexeme.scan? (c :: text)).map (scannedBefore rest) := by
  have hname : ∀ c ∈ rest.head?, isNamePart c = false := fun c hc => (apart c hc).1
  simp only [Lexeme.scan?, takeWhile_append_stop hname, dropWhile_append_stop hname]
  split
  · rfl
  · split
    · rfl
    · rw [← List.cons_append, apart.scanNumeral_append]
      cases Numeral.scan? (c :: text) <;> rfl

end Apart

theorem byteCount_cons (c : Char) (rest : List Char) :
    byteCount (c :: rest) = c.utf8Size + byteCount rest := rfl

theorem byteCount_append (text rest : List Char) :
    byteCount (text ++ rest) = byteCount text + byteCount rest := by
  induction text with
  | nil => rw [List.nil_append, byteCount, Nat.zero_add]
  | cons c text ih => rw [List.cons_append, byteCount_cons, byteCount_cons, ih, Nat.add_assoc]

/-- The bytes counted are those of the text as a string. -/
theorem byteCount_eq (text : List Char) : byteCount text = (String.ofList text).utf8ByteSize := by
  induction text with
  | nil => rfl
  | cons c text ih =>
      rw [byteCount_cons, ih, String.ofList_cons, String.utf8ByteSize_append,
        String.utf8ByteSize_singleton]

section Reading

variable {c : Char} {rest after : List Char} {lexeme : Lexeme} {position : Nat}

theorem tokensFrom_nil : tokensFrom position [] = .ok [] := by
  rw [tokensFrom]

theorem tokensFrom_blank (h : isBlank c = true) :
    tokensFrom position (c :: rest) = tokensFrom (position + c.utf8Size) rest := by
  rw [tokensFrom, if_pos h]

theorem tokensFrom_unknown (h : isBlank c = false) (hscan : Lexeme.scan? (c :: rest) = none) :
    tokensFrom position (c :: rest) = .error (.unexpectedCharacter c position) := by
  rw [tokensFrom, if_neg (by simp [h])]
  split
  · rfl
  · simp_all

theorem tokensFrom_lexeme (h : isBlank c = false)
    (hscan : Lexeme.scan? (c :: rest) = some (lexeme, after)) :
    tokensFrom position (c :: rest) = (do
      let tokens ← tokensFrom (position + byteCount lexeme.text) after
      return ⟨position, lexeme.token⟩ :: tokens) := by
  rw [tokensFrom, if_neg (by simp [h])]
  split
  · simp_all
  · rename_i hother
    rw [hscan] at hother
    obtain ⟨rfl, rfl⟩ := Prod.mk.inj (Option.some.inj hother)
    rfl

end Reading

theorem byteCount_symbol (symbol : Symbol) : byteCount [symbol.char] = 1 := by
  cases symbol <;> rfl

theorem Lexeme.scan?_symbol (symbol : Symbol) (rest : List Char) :
    Lexeme.scan? (symbol.char :: rest) = some (⟨.symbol symbol, [symbol.char]⟩, rest) := by
  simp only [Lexeme.scan?, Symbol.ofChar?_char]

theorem tokensFrom_symbol (symbol : Symbol) (position : Nat) (rest : List Char) :
    tokensFrom position (symbol.char :: rest) = (do
      let tokens ← tokensFrom (position + 1) rest
      return ⟨position, .symbol symbol⟩ :: tokens) := by
  have hblank : isBlank symbol.char = false := by cases symbol <;> decide
  rw [tokensFrom_lexeme hblank (Lexeme.scan?_symbol symbol rest), byteCount_symbol]

theorem tokensFrom_symbol_eq_ok (symbol : Symbol) {position : Nat} {rest : List Char}
    {tokens : List PlacedToken} (h : tokensFrom (position + 1) rest = .ok tokens) :
    tokensFrom position (symbol.char :: rest) = .ok (⟨position, .symbol symbol⟩ :: tokens) := by
  rw [tokensFrom_symbol, h]
  rfl

/-- The tokens of a text and of one that is apart from it are read separately. -/
theorem tokensFrom_append {rest : List Char} (apart : Apart rest) (position : Nat)
    (text : List Char) :
    tokensFrom position (text ++ rest) = (do
      let first ← tokensFrom position text
      let second ← tokensFrom (position + byteCount text) rest
      return first ++ second) := by
  fun_induction tokensFrom position text with
  | case1 position =>
      simp only [List.nil_append, byteCount, Nat.add_zero]
      cases tokensFrom position rest <;> rfl
  | case2 position c text hblank ih =>
      rw [List.cons_append, tokensFrom_blank hblank, ih, byteCount_cons, Nat.add_assoc]
  | case3 position c text hblank hscan =>
      have hmore : Lexeme.scan? (c :: (text ++ rest)) = none := by
        rw [apart.scanLexeme_append, hscan]
        rfl
      exact tokensFrom_unknown (by simpa using hblank) hmore
  | case4 position c text hblank lexeme after hscan ih =>
      have hmore : Lexeme.scan? (c :: (text ++ rest)) = some (lexeme, after ++ rest) := by
        rw [apart.scanLexeme_append, hscan]
        rfl
      have hcount : byteCount (c :: text) = byteCount lexeme.text + byteCount after := by
        rw [← Lexeme.text_append_of_scan hscan, byteCount_append]
      rw [List.cons_append, tokensFrom_lexeme (by simpa using hblank) hmore, ih, hcount,
        ← Nat.add_assoc]
      simp only [bind_assoc, pure_bind, List.cons_append]

def SyntaxError.relocate (move : Nat → Nat) : SyntaxError → SyntaxError
  | unexpectedCharacter character position => .unexpectedCharacter character (move position)
  | emptyExpression => .emptyExpression
  | unexpectedToken token expected position => .unexpectedToken token expected (move position)
  | unexpectedEnd expected => .unexpectedEnd expected
  | unclosedParenthesis position => .unclosedParenthesis (move position)
  | trailingToken token position => .trailingToken token (move position)
  | argumentCount function found position => .argumentCount function found (move position)
  | tooDeep position => .tooDeep (move position)

/-- The tokens of a text that stands further on, or the error in it. -/
def relocateReading (move : Nat → Nat) :
    Except SyntaxError (List PlacedToken) → Except SyntaxError (List PlacedToken)
  | .ok tokens => .ok (tokens.map (·.relocate move))
  | .error error => .error (error.relocate move)

theorem relocateReading_eq_ok {move : Nat → Nat} {reading : Except SyntaxError (List PlacedToken)}
    {tokens : List PlacedToken} :
    relocateReading move reading = .ok tokens ↔
      ∃ before, reading = .ok before ∧ tokens = before.map (·.relocate move) := by
  cases reading <;> simp [relocateReading, eq_comm]

theorem tokensFrom_shift (shift position : Nat) (text : List Char) :
    tokensFrom (position + shift) text =
      relocateReading (· + shift) (tokensFrom position text) := by
  fun_induction tokensFrom position text with
  | case1 position => rw [tokensFrom_nil]; rfl
  | case2 position c text hblank ih =>
      rw [tokensFrom_blank hblank, Nat.add_right_comm, ih]
  | case3 position c text hblank hscan =>
      rw [tokensFrom_unknown (by simpa using hblank) hscan]
      rfl
  | case4 position c text hblank lexeme after hscan ih =>
      rw [tokensFrom_lexeme (by simpa using hblank) hscan, Nat.add_right_comm, ih]
      cases tokensFrom (position + byteCount lexeme.text) after <;> rfl

theorem tokensFrom_eq_ok_iff {position : Nat} {text : List Char} {tokens : List PlacedToken} :
    tokensFrom position text = .ok tokens ↔
      ∃ before, tokensFrom 0 text = .ok before ∧
        tokens = before.map (·.relocate (· + position)) := by
  rw [← relocateReading_eq_ok, ← tokensFrom_shift, Nat.zero_add]

end Calculator
