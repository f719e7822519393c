import Calculator.Proofs.Fusion
import Calculator.Proofs.Grammar.Adjacent

/-!
Where lexemes end, and numerals that are broken off.

No lexeme but a sign itself ends in one. A piece of a numeral in front of a parenthesis is read as a
number and something that no expression has behind a number: the parenthesis, or the mark of the
power of ten, which is a name without its digits.
-/

namespace Calculator

section Last

variable {numeral : Numeral} {first piece : List Char} {c : Char}

/-- A text that ends in a symbol's character ends in the symbol. -/
theorem eq_char_of_spells {symbol : Symbol} (h : Spells (piece ++ [c]) (.symbol symbol)) :
    c = symbol.char := by
  have hpiece : piece ++ [c] = [symbol.char] := h.inPattern
  cases piece with
  | nil => exact (List.cons.inj hpiece).1
  | cons _ _ => simp at hpiece

theorem last_of_text (h : numeral.WellFormed) (htext : numeral.text = piece ++ [c]) :
    c.isDigit = true ∨ c = '.' := by
  cases hpower : numeral.power with
  | none =>
      rw [text_of_mantissa hpower] at htext
      exact digit_or_point_of_mantissa h (htext ▸ List.mem_append_right _ List.mem_cons_self)
  | some power =>
      have hwell := h.power power hpower
      obtain ⟨digits, d, hdigits⟩ :=
        (List.eq_nil_or_concat power.digits).resolve_left hwell.nonempty
      have hwhole : numeral.text =
          mantissaText numeral ++ power.mark :: (power.sign.toList ++ digits) ++ [d] := by
        rw [Numeral.text, hpower, mantissaText, Option.elim_some, PowerOfTen.text, hdigits,
          List.concat_eq_append]
        simp
      rw [hwhole] at htext
      obtain ⟨-, hlast⟩ := List.append_inj' htext rfl
      obtain rfl := (List.cons.inj hlast).1
      exact .inl (hwell.digits d (by simp [hdigits]))

/-- A sign at the end of a text goes on with nothing: digits would follow it in a numeral. -/
theorem not_continued_sign (sign : c = '+' ∨ c = '-') : ¬ Continued first [c] := by
  rintro ⟨piece, more, token, -, hpiece, hmore, hprefix, hspells⟩
  obtain rfl : more = [c] := by
    rcases List.prefix_cons_iff.mp hprefix with hnil | ⟨tail, rfl, htail⟩
    · exact absurd hnil hmore
    · rw [List.prefix_nil.mp htail]
  cases token with
  | number value =>
      obtain ⟨numeral, hwell, htext, -⟩ := hspells.means
      rcases sign with rfl | rfl <;> exact absurd (last_of_text hwell htext) (by decide)
  | identifier name =>
      obtain ⟨d, word, hstart, hparts, htext⟩ := Pattern.mem_name.mp hspells.inPattern
      have hmem : c ∈ d :: word := htext ▸ List.mem_append_right _ List.mem_cons_self
      have hpart := Lexeme.isNamePart_of_name hstart hparts c hmem
      rcases sign with rfl | rfl <;> exact absurd hpart (by decide)
  | symbol => exact not_spells_symbol hpiece hmore hspells
  | blank => exact hspells.means

end Last

section Broken

variable {numeral : Numeral} {piece more rest : List Char} {c : Char} {position : Nat}
  {tokens : List PlacedToken}

/-- What goes on with a numeral behind a shorter one is no sign. -/
theorem continues_of_text_append {shorter : Numeral} (h : numeral.WellFormed)
    (hshorter : shorter.WellFormed) (htext : numeral.text = shorter.text ++ c :: more) :
    c.isDigit = true ∨ c = '.' ∨ c = 'e' ∨ c = 'E' := by
  by_contra hother
  simp only [not_or, Bool.not_eq_true] at hother
  have ends : EndsNumeral (c :: more) := by
    rintro d ⟨⟩
    exact hother
  have hscan := Numeral.scan?_text hshorter ends
  have hwhole := Numeral.scan?_text h endsNumeral_nil
  rw [List.append_nil, htext, hscan] at hwhole
  simp at hwhole

/-- A token that begins an operand and is no degree mark. -/
def Token.BeginsOther (token : Token) : Prop :=
  token.BeginsOperand ∧ token ≠ .identifier Expression.degreeName

theorem Spells.number_of_start {token : Token} (h : Spells (c :: piece) token)
    (start : c.isDigit = true ∨ c = '.') :
    ∃ (value : Float) (numeral : Numeral), token = .number value ∧ numeral.WellFormed ∧
      numeral.text = c :: piece := by
  cases token with
  | number value =>
      obtain ⟨numeral, hwell, htext, -⟩ := h.means
      exact ⟨value, numeral, rfl, hwell, htext⟩
  | identifier name =>
      obtain ⟨d, word, hstart, -, htext⟩ := Pattern.mem_name.mp h.inPattern
      obtain ⟨rfl, -⟩ := List.cons.inj htext
      simp [isNameStart_of_numeralStart start] at hstart
  | symbol symbol =>
      have hpiece : c :: piece = [symbol.char] := h.inPattern
      obtain ⟨rfl, -⟩ := List.cons.inj hpiece
      simpa [Symbol.ofChar?_char] using numeralStart_eq_none start
  | blank => exact h.means.elim

/-- What goes on with a numeral begins, read on its own, like another operand. -/
theorem begins_other_of_continuation {shorter : Numeral} (h : numeral.WellFormed)
    (hshorter : shorter.WellFormed) (htext : numeral.text = shorter.text ++ c :: more)
    (htokens : tokensFrom position (c :: rest) = .ok tokens) :
    ∃ token behind, tokens = ⟨position, token⟩ :: behind ∧ token.BeginsOther := by
  have hcontinues := continues_of_text_append h hshorter htext
  have hpart : isNamePart c = true ∨ c = '.' := by
    rcases hcontinues with hdigit | rfl | rfl | rfl
    · exact .inl (isNamePart_of_isDigit hdigit)
    · exact .inr rfl
    · exact .inl (by decide)
    · exact .inl (by decide)
  obtain ⟨token, behind, rfl, hoperand, hname⟩ := exists_first htokens hpart
  refine ⟨token, behind, rfl, hoperand.begins, fun hmark => ?_⟩
  have hd : Expression.degreeName.toList.head? = some c := hname _ hmark
  obtain rfl : c = 'd' := (Option.some.inj hd).symm
  simp at hcontinues

/-- No numeral reaches over a parenthesis. -/
theorem split_before_parenthesis {found after : List Char}
    (parts : ∀ d ∈ found, isNumeralPart d = true)
    (hwhole : piece ++ '(' :: rest = found ++ after) :
    ∃ left, piece = found ++ left ∧ after = left ++ '(' :: rest := by
  rcases List.append_eq_append_iff.mp hwhole with ⟨extra, rfl, hafter⟩ | ⟨left, hleft, hafter⟩
  · cases extra with
    | nil => exact ⟨[], by simp, hafter.symm⟩
    | cons _ extra =>
        obtain ⟨rfl, -⟩ := List.cons.inj hafter
        have hpart := parts '(' (List.mem_append_right _ List.mem_cons_self)
        exact absurd hpart (by decide)
  · exact ⟨left, hleft, hafter⟩

/-- What is read of a numeral that is broken off in front of a parenthesis. -/
theorem tokens_of_broken (h : numeral.WellFormed) (htext : numeral.text = piece ++ more)
    (hpiece : piece ≠ [])
    (htokens : tokensFrom position (piece ++ '(' :: rest) = .ok tokens) :
    ∃ value second behind, tokens = ⟨position, .number value⟩ :: second :: behind ∧
      second.token.BeginsOther := by
  obtain ⟨c, tail, rfl⟩ := List.exists_cons_of_ne_nil hpiece
  have start : c.isDigit = true ∨ c = '.' := by
    obtain ⟨d, text, hcons, hstart⟩ := Numeral.text_eq_cons h
    rw [hcons, List.cons_append] at htext
    rwa [(List.cons.inj htext).1] at hstart
  have hmunches := munches_of_tokensFrom htokens
  generalize hwhole : c :: tail ++ '(' :: rest = whole at hmunches
  cases hmunches with
  | stop => simp at hwhole
  | blank hblank =>
      obtain ⟨rfl, -⟩ := List.cons.inj hwhole
      simp [isBlank_of_numeralStart start] at hblank
  | @lexeme _ found after _ token tokens longest hmore =>
      obtain ⟨d, found, rfl⟩ := longest.spells.eq_cons
      obtain rfl : c = d := (List.cons.inj hwhole).1
      obtain ⟨value, shorter, rfl, hshorter, hfound⟩ := longest.spells.number_of_start start
      have hread := tokensFrom_eq_ok_iff_munches.mpr hmore
      rw [← hfound] at hwhole
      obtain ⟨left, hleft, rfl⟩ := split_before_parenthesis hshorter.parts hwhole
      cases left with
      | nil =>
          rw [List.nil_append, show '(' = Symbol.opening.char from rfl, tokensFrom_symbol] at hread
          obtain ⟨behind, -, hread⟩ := Grammar.bind_eq_ok.mp hread
          obtain rfl := Except.ok.inj hread
          exact ⟨value, _, behind, rfl, trivial, nofun⟩
      | cons d left =>
          have hlonger : numeral.text = shorter.text ++ d :: (left ++ more) := by
            rw [htext, hleft, List.append_assoc, List.cons_append]
          obtain ⟨token, behind, rfl, hother⟩ :=
            begins_other_of_continuation h hshorter hlonger hread
          exact ⟨value, _, behind, rfl, hother⟩

end Broken

end Calculator
