import Calculator.Proofs.Token.Pattern

/-!
Tokenizing is maximal munch.

The process takes the longest lexemes off the front of a text, one after the other, and passes over
the blanks between them. The tokens of a text are what the process finds on the way to its end, each
with the bytes in front of its lexeme. There are none if the process gets to a character that is
not blank and begins no lexeme, and this character is the one that is reported.
-/

namespace Calculator

/-- The process reads a text from a position on, finds tokens and leaves a text. -/
inductive Munches : Nat → List Char → List PlacedToken → List Char → Prop
  | stop (position : Nat) (left : List Char) : Munches position left [] left
  | blank {position : Nat} {c : Char} {text left : List Char} {tokens : List PlacedToken}
      (blank : isBlank c = true) (more : Munches (position + c.utf8Size) text tokens left) :
      Munches position (c :: text) tokens left
  | lexeme {position : Nat} {piece text left : List Char} {token : Token}
      {tokens : List PlacedToken} (longest : Longest piece token text)
      (more : Munches (position + byteCount piece) text tokens left) :
      Munches position (piece ++ text) (⟨position, token⟩ :: tokens) left

section Pieces

variable {piece rest : List Char} {token : Token}

theorem Spells.eq_cons (h : Spells piece token) : ∃ c tail, piece = c :: tail := by
  cases piece with
  | nil => exact absurd (Lexeme.scan?_of_spells h) nofun
  | cons c tail => exact ⟨c, tail, rfl⟩

theorem Spells.ne_nil (h : Spells piece token) : piece ≠ [] := by
  obtain ⟨c, tail, rfl⟩ := h.eq_cons
  exact List.cons_ne_nil c tail

theorem isBlank_of_scan {c : Char} {lexeme : Lexeme} {text : List Char}
    (h : Lexeme.scan? (c :: text) = some (lexeme, rest)) : isBlank c = false := by
  have htext := Lexeme.text_append_of_scan h
  rcases Lexeme.text_of_scan h with ⟨symbol, rfl⟩ | ⟨_, _, start, -, rfl⟩ | ⟨_, hnumeral, rfl⟩
  · obtain ⟨rfl, -⟩ := List.cons.inj htext
    cases symbol <;> decide
  · obtain ⟨rfl, -⟩ := List.cons.inj htext
    exact isBlank_of_isNamePart (isNamePart_of_isNameStart start)
  · obtain ⟨d, tail, hcons, hstart⟩ := Numeral.text_eq_cons hnumeral
    rw [hcons] at htext
    obtain ⟨rfl, -⟩ := List.cons.inj htext
    exact isBlank_of_numeralStart hstart

theorem tokensFrom_longest (h : Longest piece token rest) (position : Nat) :
    tokensFrom position (piece ++ rest) = (do
      let tokens ← tokensFrom (position + byteCount piece) rest
      return ⟨position, token⟩ :: tokens) := by
  have hscan := Lexeme.scan?_of_longest h
  obtain ⟨c, tail, rfl⟩ := h.spells.eq_cons
  exact tokensFrom_lexeme (isBlank_of_scan hscan) hscan

theorem Spells.byteCount_pos (h : Spells piece token) : 0 < byteCount piece := by
  obtain ⟨c, tail, rfl⟩ := h.eq_cons
  rw [byteCount_cons]
  exact Nat.add_pos_left c.utf8Size_pos _

/-- A point begins a lexeme only in front of a digit. -/
theorem startsNoLexeme_point :
    StartsNoLexeme ('.' :: rest) ↔ ∀ c ∈ rest.head?, c.isDigit = false := by
  rw [← Lexeme.scan?_eq_none_iff]
  have hsymbol : Symbol.ofChar? '.' = none := by decide
  have hstart : isNameStart '.' = false := by decide
  simp only [Lexeme.scan?, hsymbol, hstart, Bool.false_eq_true, if_false, Option.map_eq_none_iff,
    scanNumeral_eq_none_iff]
  cases rest with
  | nil => simp [spanDigits, Numeral.splitFraction]
  | cons c rest => cases hdigit : c.isDigit <;> simp [spanDigits, Numeral.splitFraction, hdigit]

end Pieces

section Process

variable {position : Nat} {text left : List Char} {tokens : List PlacedToken}

/-- What the process finds and what is read from the text that it leaves are the tokens of the whole
text. -/
theorem Munches.tokensFrom_eq (h : Munches position text tokens left) :
    ∃ before, text = before ++ left ∧ tokensFrom position text = (do
      let more ← tokensFrom (position + byteCount before) left
      return tokens ++ more) := by
  induction h with
  | stop position left => exact ⟨[], rfl, by simp [byteCount]⟩
  | @blank position c text left tokens blank more ih =>
      obtain ⟨before, rfl, hread⟩ := ih
      refine ⟨c :: before, rfl, ?_⟩
      rw [tokensFrom_blank blank, hread, byteCount_cons, Nat.add_assoc]
  | @lexeme position piece text left token tokens longest more ih =>
      obtain ⟨before, rfl, hread⟩ := ih
      refine ⟨piece ++ before, (List.append_assoc ..).symm, ?_⟩
      rw [tokensFrom_longest longest, hread, byteCount_append, Nat.add_assoc]
      simp only [bind_assoc, pure_bind, List.cons_append]

theorem munches_of_tokensFrom (h : tokensFrom position text = .ok tokens) :
    Munches position text tokens [] := by
  fun_induction tokensFrom position text generalizing tokens with
  | case1 position =>
      obtain rfl := Except.ok.inj h
      exact .stop position []
  | case2 position c text blank ih => exact .blank blank (ih h)
  | case3 => simp at h
  | case4 position c text _ lexeme after hscan ih =>
      obtain ⟨more, hmore, htokens⟩ := Grammar.bind_eq_ok.mp h
      obtain rfl := Except.ok.inj htokens
      have hmunches := Munches.lexeme (Lexeme.longest_of_scan hscan) (ih hmore)
      rwa [Lexeme.text_append_of_scan hscan] at hmunches

theorem munches_of_error {error : SyntaxError} (h : tokensFrom position text = .error error) :
    ∃ before c after tokens, text = before ++ c :: after ∧
      error = .unexpectedCharacter c (position + byteCount before) ∧
      Munches position text tokens (c :: after) ∧ isBlank c = false ∧
      StartsNoLexeme (c :: after) := by
  fun_induction tokensFrom position text with
  | case1 => simp at h
  | case2 position c text blank ih =>
      obtain ⟨before, d, after, tokens, rfl, rfl, hmunches, hstuck⟩ := ih h
      refine ⟨c :: before, d, after, tokens, rfl, ?_, .blank blank hmunches, hstuck⟩
      rw [byteCount_cons, Nat.add_assoc]
  | case3 position c text blank hscan =>
      obtain rfl := Except.error.inj h
      exact ⟨[], c, text, [], rfl, rfl, .stop position _, by simpa using blank,
        Lexeme.scan?_eq_none_iff.mp hscan⟩
  | case4 position c text _ lexeme rest hscan ih =>
      rcases Grammar.bind_eq_error.mp h with hrest | ⟨_, _, h⟩
      · obtain ⟨before, d, after, tokens, rfl, rfl, hmunches, hstuck⟩ := ih hrest
        have htext := Lexeme.text_append_of_scan hscan
        have hlexeme := Munches.lexeme (Lexeme.longest_of_scan hscan) hmunches
        rw [htext] at hlexeme
        refine ⟨lexeme.text ++ before, d, after, _, ?_, ?_, hlexeme, hstuck⟩
        · rw [← htext, List.append_assoc]
        · rw [byteCount_append, Nat.add_assoc]
      · simp [pure, Except.pure] at h

theorem tokensFrom_eq_ok_iff_munches :
    tokensFrom position text = .ok tokens ↔ Munches position text tokens [] := by
  refine ⟨munches_of_tokensFrom, fun h => ?_⟩
  obtain ⟨before, -, hread⟩ := h.tokensFrom_eq
  rw [hread, tokensFrom_nil]
  exact congrArg Except.ok (List.append_nil tokens)

theorem tokensFrom_eq_error_iff_munches {error : SyntaxError} :
    tokensFrom position text = .error error ↔
      ∃ before c after tokens, text = before ++ c :: after ∧
        error = .unexpectedCharacter c (position + byteCount before) ∧
        Munches position text tokens (c :: after) ∧ isBlank c = false ∧
        StartsNoLexeme (c :: after) := by
  refine ⟨munches_of_error, ?_⟩
  rintro ⟨before, c, after, tokens, htext, rfl, hmunches, hblank, hstuck⟩
  obtain ⟨passed, hpassed, hread⟩ := hmunches.tokensFrom_eq
  obtain rfl : passed = before := List.append_cancel_right (hpassed.symm.trans htext)
  rw [hread, tokensFrom_unknown hblank (Lexeme.scan?_eq_none_iff.mpr hstuck)]
  rfl

/-- The tokens are placed one behind the other. -/
theorem Munches.positions (h : Munches position text tokens left) :
    (∀ placed ∈ tokens, position ≤ placed.position) ∧
      tokens.Pairwise (·.position < ·.position) := by
  induction h with
  | stop => exact ⟨nofun, .nil⟩
  | blank _ _ ih => exact ⟨fun placed hplaced => Nat.le_of_add_right_le (ih.1 placed hplaced), ih.2⟩
  | lexeme longest _ ih =>
      have hpos := longest.spells.byteCount_pos
      refine ⟨?_, List.pairwise_cons.mpr ⟨fun placed hplaced => ?_, ih.2⟩⟩
      · intro placed hplaced
        rcases List.mem_cons.mp hplaced with rfl | hplaced
        · exact Nat.le_refl _
        · exact Nat.le_of_add_right_le (ih.1 placed hplaced)
      · exact Nat.lt_of_lt_of_le (Nat.lt_add_of_pos_right hpos) (ih.1 placed hplaced)

/-- Every token has its lexeme in the text, behind as many bytes as its position says. -/
theorem Munches.spells {placed : PlacedToken} (h : Munches position text tokens left)
    (hplaced : placed ∈ tokens) :
    ∃ before piece after, text = before ++ (piece ++ after) ∧
      placed.position = position + byteCount before ∧ Longest piece placed.token after := by
  induction h with
  | stop => simp at hplaced
  | @blank position c text left tokens blank more ih =>
      obtain ⟨before, piece, after, rfl, hposition, hlongest⟩ := ih hplaced
      refine ⟨c :: before, piece, after, rfl, ?_, hlongest⟩
      rw [hposition, byteCount_cons, Nat.add_assoc]
  | @lexeme position piece text left token tokens longest more ih =>
      rcases List.mem_cons.mp hplaced with rfl | hplaced
      · exact ⟨[], piece, text, rfl, rfl, longest⟩
      · obtain ⟨before, other, after, rfl, hposition, hlongest⟩ := ih hplaced
        refine ⟨piece ++ before, other, after, (List.append_assoc ..).symm, ?_, hlongest⟩
        rw [hposition, byteCount_append, Nat.add_assoc]

end Process

/-- A token that a text can spell: numbers have no sign, and blanks are no tokens. -/
def Token.IsWord : Token → Prop
  | .number value => Number.isNegative value = false ∧ value.isNaN = false
  | .identifier _ | .symbol _ => True
  | .blank => False

theorem Spells.isWord {piece : List Char} {token : Token} (h : Spells piece token) :
    token.IsWord := by
  cases token with
  | number value =>
      obtain ⟨_, -, -, hvalue⟩ := h.means
      exact hvalue.unsigned
  | identifier | symbol => trivial
  | blank => exact h.means

/-- A text has the tokens that the process finds on its way to the end, and an error exactly where
the process cannot go on. -/
theorem tokenize_is_maximal_munch (text : String) :
    (∀ tokens, tokenize text = .ok tokens ↔ Munches 0 text.toList tokens []) ∧
    (∀ c position, tokenize text = .error (.unexpectedCharacter c position) ↔
      ∃ before after tokens, text.toList = before ++ c :: after ∧ position = byteCount before ∧
        Munches 0 text.toList tokens (c :: after) ∧ isBlank c = false ∧
        StartsNoLexeme (c :: after)) ∧
    (∀ error, tokenize text = .error error →
      ∃ c position, error = .unexpectedCharacter c position) ∧
    (∀ rest, StartsNoLexeme ('.' :: rest) ↔ ∀ c ∈ rest.head?, c.isDigit = false) ∧
    ∀ tokens, tokenize text = .ok tokens →
      tokens.Pairwise (·.position < ·.position) ∧
      ∀ placed ∈ tokens, placed.token.IsWord ∧
        ∃ before piece after, text.toList = before ++ (piece ++ after) ∧
          placed.position = byteCount before ∧ Longest piece placed.token after := by
  refine ⟨fun tokens => tokensFrom_eq_ok_iff_munches, fun c position => ?_, fun error h => ?_,
    fun rest => startsNoLexeme_point, fun tokens h => ?_⟩
  · refine tokensFrom_eq_error_iff_munches.trans ?_
    simp only [Nat.zero_add, SyntaxError.unexpectedCharacter.injEq]
    constructor
    · rintro ⟨before, _, after, tokens, htext, ⟨rfl, rfl⟩, hstuck⟩
      exact ⟨before, after, tokens, htext, rfl, hstuck⟩
    · rintro ⟨before, after, tokens, htext, rfl, hstuck⟩
      exact ⟨before, c, after, tokens, htext, ⟨rfl, rfl⟩, hstuck⟩
  · obtain ⟨_, c, _, _, _, rfl, _⟩ := tokensFrom_eq_error_iff_munches.mp h
    exact ⟨c, _, rfl⟩
  · have hmunches := munches_of_tokensFrom h
    refine ⟨hmunches.positions.2, fun placed hplaced => ?_⟩
    obtain ⟨before, piece, after, htext, hposition, hlongest⟩ := hmunches.spells hplaced
    rw [Nat.zero_add] at hposition
    exact ⟨hlongest.spells.isWord, before, piece, after, htext, hposition, hlongest⟩

/-- A power of ten without digits is not part of the number, and a point is no lexeme of its own. -/
theorem munches_unfinished_power :
    tokenize "1e+ 5." = .ok [⟨0, .number 1⟩, ⟨1, .identifier "e"⟩, ⟨2, .symbol .plus⟩,
      ⟨4, .number 5⟩] ∧
    Munches 0 "1e+ 5.".toList [⟨0, .number 1⟩, ⟨1, .identifier "e"⟩, ⟨2, .symbol .plus⟩,
      ⟨4, .number 5⟩] [] ∧
    StartsNoLexeme ['.', '+'] := by
  have htokens : tokenize "1e+ 5." = .ok [⟨0, .number 1⟩, ⟨1, .identifier "e"⟩,
      ⟨2, .symbol .plus⟩, ⟨4, .number 5⟩] := by decide +kernel
  obtain ⟨hok, -, -, hpoint, -⟩ := tokenize_is_maximal_munch "1e+ 5."
  exact ⟨htokens, (hok _).mp htokens, (hpoint ['+']).mpr (by simp)⟩

end Calculator
