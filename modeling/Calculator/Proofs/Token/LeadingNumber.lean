import Calculator.Proofs.Token.Munch

/-!
The number that a text starts with.

The reader of leading numbers and the reader of tokens know the same numbers. Behind the blanks and
the sign of a text, the first one takes the longest piece that is a single number for the second
one, and it takes none only if there is no such piece. What is taken is a decimal that has a value,
which is the nearest double and infinite beyond the finite ones.
-/

namespace Calculator

open scoped Computability

/-- The sign behind the blanks of a text, if there is one. -/
def leadingSign (text : String) : Option Char :=
  (splitSign (trimStart text.toList)).1

/-- The text behind its blanks and its sign. -/
def unsigned (text : String) : List Char :=
  (splitSign (trimStart text.toList)).2

/-- A text without blanks whose only token is a number, at its front. -/
structure IsNumber (piece : List Char) (value : Float) : Prop where
  nonempty : piece ≠ []
  solid : ∀ c ∈ piece, isBlank c = false
  tokens : tokenize (String.ofList piece) = .ok [⟨0, .number value⟩]

/-- The longest piece at the front of a text that is a number. -/
structure LongestNumber (piece : List Char) (value : Float) (text : List Char) : Prop where
  isNumber : IsNumber piece value
  atFront : piece <+: text
  longest : ∀ other value', other <+: text → IsNumber other value' →
    other.length ≤ piece.length

namespace Pattern

/-- The texts that have a value as a decimal: an optional sign, digits with an optional point in
front of them, among them or behind them, and an optional power of ten. -/
def decimal : Language Char :=
  (1 + sign) *
    ((several Char.isDigit + several Char.isDigit * one (· = '.') * (one Char.isDigit)∗ +
      (one Char.isDigit)∗ * one (· = '.') * several Char.isDigit) * (1 + power))

/-- A number that tokens are read from is a decimal, with a sign or without. -/
theorem number_le_decimal {piece : List Char} (h : piece ∈ number) {sign : Option Char}
    (hsign : ∀ c ∈ sign, c = '+' ∨ c = '-') : sign.toList ++ piece ∈ decimal := by
  have hfront : sign.toList ∈ 1 + Pattern.sign := by
    rw [mem_optional mem_sign]
    exact ⟨sign, hsign, elim_singleton sign⟩
  refine Language.append_mem_mul hfront ?_
  obtain ⟨digits, hdigits, behind, hbehind, rfl⟩ := Language.mem_mul.mp h
  refine Language.append_mem_mul ?_ hbehind
  rw [Language.mem_add, Language.mem_add]
  rcases (Language.mem_add ..).mp hdigits with hmixed | hpoint
  · obtain ⟨whole, hwhole, fraction, hfraction, rfl⟩ := Language.mem_mul.mp hmixed
    rcases (Language.mem_add ..).mp hfraction with rfl | hfraction
    · exact .inl (.inl (by rwa [List.append_nil]))
    · obtain ⟨point, hdot, places, hplaces, rfl⟩ := Language.mem_mul.mp hfraction
      rw [← List.append_assoc]
      exact .inl (.inr (Language.append_mem_mul (Language.append_mem_mul hwhole hdot) hplaces))
  · obtain ⟨point, hdot, places, hplaces, rfl⟩ := Language.mem_mul.mp hpoint
    have hnone : ([] : List Char) ∈ (one Char.isDigit)∗ := Language.nil_mem_kstar _
    exact .inr (Language.append_mem_mul (Language.append_mem_mul hnone hdot) hplaces)

end Pattern

theorem isBlank_of_munches {position : Nat} {text : List Char} (h : Munches position text [] []) :
    ∀ c ∈ text, isBlank c = true :=
  isBlank_of_no_tokens (tokensFrom_eq_ok_iff_munches.mpr h)

section Numbers

variable {piece text rest : List Char} {value : Float} {numeral : Numeral}

/-- The only token of a text is a number if the text spells this number. -/
theorem isNumber_iff : IsNumber piece value ↔ Spells piece (.number value) := by
  constructor
  · rintro ⟨nonempty, solid, tokens⟩
    rw [tokenize, String.toList_ofList, tokensFrom_eq_ok_iff_munches] at tokens
    cases tokens with
    | blank blank more => simp [solid _ List.mem_cons_self] at blank
    | @lexeme _ piece after left _ _ longest more =>
        cases after with
        | nil => simpa using longest.spells
        | cons c after =>
            have hblank := isBlank_of_munches more c List.mem_cons_self
            simp [solid c (List.mem_append_right _ List.mem_cons_self)] at hblank
  · intro h
    obtain ⟨numeral, hnumeral, rfl, -⟩ := h.means
    refine ⟨h.ne_nil, fun c hc => isBlank_of_isNumeralPart (hnumeral.parts c hc), ?_⟩
    have hlongest : Longest numeral.text (.number value) [] :=
      ⟨h, fun other _ hother _ => by simpa using hother.length_le⟩
    have hread := tokensFrom_longest hlongest 0
    rw [List.append_nil, tokensFrom_nil] at hread
    rw [tokenize, String.toList_ofList, hread]
    rfl

theorem Lexeme.scan?_of_numeral (h : Numeral.scan? text = some (numeral, rest)) :
    Lexeme.scan? text = some (⟨.number numeral.value, numeral.text⟩, rest) := by
  obtain ⟨c, tail, htail, hstart⟩ := Numeral.text_eq_cons (Numeral.wellFormed_of_scan h)
  obtain rfl : text = c :: (tail ++ rest) := by
    rw [← Numeral.text_append_of_scan h, htail, List.cons_append]
  simp only [Lexeme.scan?, numeralStart_eq_none hstart, isNameStart_of_numeralStart hstart, h,
    Bool.false_eq_true, if_false, Option.map_some]

/-- The numeral at the front of a text is the longest number there. -/
theorem longestNumber_of_scan (h : Numeral.scan? text = some (numeral, rest)) :
    LongestNumber numeral.text numeral.value text := by
  have hlongest := Lexeme.longest_of_scan (Lexeme.scan?_of_numeral h)
  have htext := Numeral.text_append_of_scan h
  refine ⟨isNumber_iff.mpr hlongest.spells, ⟨rest, htext⟩, fun other value' hother hnumber => ?_⟩
  exact hlongest.longest other _ (by rwa [htext]) (isNumber_iff.mp hnumber)

theorem scan?_ne_none_of_isNumber (h : IsNumber piece value) (front : piece <+: text) :
    Numeral.scan? text ≠ none := by
  obtain ⟨rest, rfl⟩ := front
  obtain ⟨numeral, hnumeral, rfl, -⟩ := (isNumber_iff.mp h).means
  intro hnone
  have hscan := Numeral.scan?_text hnumeral endsNumeral_nil
  rw [List.append_nil, scanNumeral_eq_none_of_append hnone] at hscan
  simp at hscan

end Numbers

/-- A text is its blanks, its sign and the rest. -/
theorem text_eq_unsigned (text : String) :
    ∃ blanks, (∀ c ∈ blanks, isBlank c = true) ∧
      text.toList = blanks ++ ((leadingSign text).toList ++ unsigned text) := by
  refine ⟨text.toList.takeWhile isBlank, fun _ hc => List.mem_takeWhile_imp hc, ?_⟩
  rw [leadingSign, unsigned, Numeral.sign_append_splitSign, trimStart,
    List.takeWhile_append_dropWhile]

theorem leadingNumber_eq (text : String) :
    leadingNumber text = (Numeral.scan? (unsigned text)).map fun (numeral, _) =>
      if leadingSign text = some '-' then -numeral.value else numeral.value := rfl

/-- A text has a leading number if, behind its blanks and its sign, there is a number for the reader
of tokens. Then the blanks, the sign and the longest such number are taken, this is a decimal that
has a value, and the result is the value of the number, with the sign. -/
theorem leadingNumber_reads_longest_number (text : String) :
    ((leadingNumber text).isSome = true ↔
      ∃ piece value, piece <+: unsigned text ∧ IsNumber piece value) ∧
    ∀ result, leadingNumber text = some result →
      ∃ blanks numeral rest, Numeral.scan? (unsigned text) = some (numeral, rest) ∧
        (∀ c ∈ blanks, isBlank c = true) ∧
        text.toList = blanks ++ ((leadingSign text).toList ++ (numeral.text ++ rest)) ∧
        LongestNumber numeral.text numeral.value (unsigned text) ∧
        (leadingSign text).toList ++ numeral.text ∈ Pattern.decimal ∧
        Magnitude.IsRounded numeral.decimal.number numeral.value ∧
        result = if leadingSign text = some '-' then -numeral.value else numeral.value := by
  rw [leadingNumber_eq]
  refine ⟨⟨fun h => ?_, fun ⟨piece, value, front, hnumber⟩ => ?_⟩, fun result h => ?_⟩
  · rw [Option.isSome_map] at h
    obtain ⟨⟨numeral, rest⟩, hscan⟩ := Option.isSome_iff_exists.mp h
    have hlongest := longestNumber_of_scan hscan
    exact ⟨numeral.text, numeral.value, hlongest.atFront, hlongest.isNumber⟩
  · rw [Option.isSome_map, Option.isSome_iff_ne_none]
    exact scan?_ne_none_of_isNumber hnumber front
  · obtain ⟨⟨numeral, rest⟩, hscan, rfl⟩ := Option.map_eq_some_iff.mp h
    obtain ⟨blanks, hblanks, htext⟩ := text_eq_unsigned text
    have hlongest := longestNumber_of_scan hscan
    have hsign : ∀ c ∈ leadingSign text, c = '+' ∨ c = '-' := sign_of_splitSign
    refine ⟨blanks, numeral, rest, hscan, hblanks, ?_, hlongest,
      Pattern.number_le_decimal (isNumber_iff.mp hlongest.isNumber).inPattern hsign,
      numeral.decimal.isRounded_toFloat, rfl⟩
    rw [htext, Numeral.text_append_of_scan hscan]

/-- A power of ten without digits is no part of the number, and a point without digits is. -/
theorem reads_number_before_unfinished_power :
    leadingNumber " -5.e+x" = some (-5) ∧
    ∃ piece value, LongestNumber piece value "5.e+x".toList ∧ -5 = -value := by
  have hread : leadingNumber " -5.e+x" = some (-5) := by decide +kernel
  have hsign : leadingSign " -5.e+x" = some '-' := by decide +kernel
  have hrest : unsigned " -5.e+x" = "5.e+x".toList := by decide +kernel
  obtain ⟨-, numeral, -, -, -, -, hlongest, -, -, hresult⟩ :=
    (leadingNumber_reads_longest_number " -5.e+x").2 _ hread
  rw [hrest] at hlongest
  rw [if_pos hsign] at hresult
  exact ⟨hread, numeral.text, numeral.value, hlongest, hresult⟩

example : leadingNumber "+1e999" = some (1 / 0) ∧ leadingNumber "." = none := by decide +kernel

end Calculator
