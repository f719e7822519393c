import Calculator.Number.Text
import Calculator.Proofs.Number.Shortest
import Calculator.Proofs.Token.Content

/-!
Numerals that are written are read back.

A scan takes a well-formed numeral off the front of a text if nothing behind it continues it. What a
decimal is written as, with or without an exponent, is such a numeral, and it reads as the same
double.
-/

namespace Calculator

/-- A text that does not continue a numeral in front of it. -/
def EndsNumeral (rest : List Char) : Prop :=
  ∀ c ∈ rest.head?, c.isDigit = false ∧ c ≠ '.' ∧ c ≠ 'e' ∧ c ≠ 'E'

theorem endsNumeral_nil : EndsNumeral [] := by
  simp [EndsNumeral]

theorem spanDigits_of_digits {digits rest : List Char} (h : ∀ c ∈ digits, c.isDigit = true)
    (stop : ∀ c ∈ rest.head?, c.isDigit = false) :
    spanDigits (digits ++ rest) = (digits, rest) := by
  have htake : digits.takeWhile Char.isDigit = digits := List.takeWhile_eq_self_iff.mpr h
  have hdrop : digits.dropWhile Char.isDigit = [] := List.dropWhile_eq_nil_iff.mpr h
  rw [spanDigits, takeWhile_append_stop stop, dropWhile_append_stop stop, htake, hdrop,
    List.nil_append]

theorem splitSign_of_sign {sign : Option Char} {rest : List Char}
    (h : ∀ c ∈ sign, c = '+' ∨ c = '-') (unsigned : ∀ c ∈ rest.head?, c ≠ '+' ∧ c ≠ '-') :
    splitSign (sign.toList ++ rest) = (sign, rest) := by
  cases sign with
  | none =>
      cases rest with
      | nil => rfl
      | cons c rest => simp [splitSign, unsigned c rfl]
  | some c => simp [splitSign, h c rfl]

theorem ne_sign_of_isDigit {c : Char} (h : c.isDigit = true) : c ≠ '+' ∧ c ≠ '-' := by
  constructor <;> rintro rfl <;> exact absurd h (by decide)

namespace PowerOfTen

variable {power : PowerOfTen} {rest : List Char}

theorem scan?_text (h : power.WellFormed) (ends : EndsNumeral rest) :
    scan? (power.text ++ rest) = some (power, rest) := by
  obtain ⟨mark, sign, digits⟩ := power
  have hunsigned : ∀ c ∈ (digits ++ rest).head?, c ≠ '+' ∧ c ≠ '-' := by
    cases digits with
    | nil => exact absurd rfl h.nonempty
    | cons d digits =>
        rintro c ⟨⟩
        exact ne_sign_of_isDigit (h.digits d List.mem_cons_self)
  rw [text, List.cons_append, List.append_assoc, scan?, if_pos h.mark,
    splitSign_of_sign h.sign hunsigned]
  simp only [spanDigits_of_digits h.digits fun c hc => (ends c hc).1]
  rw [if_neg h.nonempty]

theorem scan?_eq_none (ends : EndsNumeral rest) : scan? rest = none := by
  cases rest with
  | nil => rfl
  | cons c rest => simp [scan?, (ends c rfl).2.2]

end PowerOfTen

namespace Numeral

variable {numeral : Numeral} {rest : List Char}

/-- What follows the digits of a numeral. -/
def powerAnd (power : Option PowerOfTen) (rest : List Char) : List Char :=
  power.elim [] PowerOfTen.text ++ rest

theorem splitPower_text {power : Option PowerOfTen} (h : ∀ p ∈ power, p.WellFormed)
    (ends : EndsNumeral rest) : splitPower (powerAnd power rest) = (power, rest) := by
  cases power with
  | none => simp [splitPower, powerAnd, PowerOfTen.scan?_eq_none ends]
  | some p => simp [splitPower, powerAnd, PowerOfTen.scan?_text (h p rfl) ends]

theorem head_powerAnd {power : Option PowerOfTen} (h : ∀ p ∈ power, p.WellFormed)
    (ends : EndsNumeral rest) :
    ∀ c ∈ (powerAnd power rest).head?, c.isDigit = false ∧ c ≠ '.' := by
  cases power with
  | none => exact fun c hc => ⟨(ends c hc).1, (ends c hc).2.1⟩
  | some p =>
      rintro c ⟨⟩
      rcases (h p rfl).mark with hmark | hmark <;> rw [hmark] <;> decide

theorem splitFraction_text {fraction : Option (List Char)} {behind : List Char}
    (h : ∀ digits ∈ fraction, ∀ c ∈ digits, c.isDigit = true)
    (stop : ∀ c ∈ behind.head?, c.isDigit = false ∧ c ≠ '.') :
    splitFraction (fraction.elim [] ('.' :: ·) ++ behind) = (fraction, behind) := by
  cases fraction with
  | none =>
      cases behind with
      | nil => rfl
      | cons c rest => simp [splitFraction, (stop c rfl).2]
  | some digits =>
      simp [splitFraction, spanDigits_of_digits (h digits rfl) fun c hc => (stop c hc).1]

theorem scan?_text (h : numeral.WellFormed) (ends : EndsNumeral rest) :
    scan? (numeral.text ++ rest) = some (numeral, rest) := by
  obtain ⟨whole, fraction, power⟩ := numeral
  have hbehind := head_powerAnd h.power ends
  have hfraction := splitFraction_text h.fraction hbehind
  have hstop : ∀ c ∈ (fraction.elim [] ('.' :: ·) ++ powerAnd power rest).head?,
      c.isDigit = false := by
    cases fraction with
    | none => exact fun c hc => (hbehind c hc).1
    | some digits =>
        rintro c ⟨⟩
        rfl
  have hwhole := spanDigits_of_digits h.whole hstop
  have htext : text ⟨whole, fraction, power⟩ ++ rest =
      whole ++ (fraction.elim [] ('.' :: ·) ++ powerAnd power rest) := by
    simp [text, powerAnd]
  simp only [htext, scan?, hwhole, hfraction, splitPower_text h.power ends]
  rw [if_neg h.nonempty]

/-- A numeral begins with a digit or a point. -/
theorem text_eq_cons (h : numeral.WellFormed) :
    ∃ c tail, numeral.text = c :: tail ∧ (c.isDigit = true ∨ c = '.') := by
  obtain ⟨whole, fraction, power⟩ := numeral
  cases whole with
  | cons c whole => exact ⟨c, _, rfl, .inl (h.whole c List.mem_cons_self)⟩
  | nil =>
      cases fraction with
      | none => exact absurd ⟨rfl, rfl⟩ h.nonempty
      | some digits => exact ⟨'.', _, rfl, .inr rfl⟩

end Numeral

section Lexemes

variable {c : Char}

theorem numeralStart_eq_none (h : c.isDigit = true ∨ c = '.') : Symbol.ofChar? c = none := by
  cases hsymbol : Symbol.ofChar? c with
  | none => rfl
  | some symbol =>
      obtain rfl := Symbol.char_of_ofChar hsymbol
      cases symbol <;> exact absurd h (by decide)

theorem isNameStart_of_numeralStart (h : c.isDigit = true ∨ c = '.') : isNameStart c = false := by
  rcases h with h | rfl
  · have hhigh := (isDigit_iff.mp h).2
    cases hstart : isNameStart c with
    | false => rfl
    | true =>
        have := toNat_of_isNameStart hstart
        omega
  · decide

theorem isBlank_of_numeralStart (h : c.isDigit = true ∨ c = '.') : isBlank c = false := by
  rcases h with h | rfl
  · exact isBlank_of_isNamePart (isNamePart_of_isDigit h)
  · decide

end Lexemes

/-- A numeral is one lexeme. -/
theorem Lexeme.scan?_numeral {numeral : Numeral} {rest : List Char} (h : numeral.WellFormed)
    (ends : EndsNumeral rest) :
    Lexeme.scan? (numeral.text ++ rest) =
      some (⟨.number numeral.value, numeral.text⟩, rest) := by
  have hnumeral := Numeral.scan?_text h ends
  obtain ⟨c, tail, htext, hstart⟩ := Numeral.text_eq_cons h
  rw [htext, List.cons_append] at hnumeral ⊢
  simp only [Lexeme.scan?, numeralStart_eq_none hstart, isNameStart_of_numeralStart hstart,
    hnumeral, Option.map_some, htext]
  rfl

/-- A numeral is one token. -/
theorem tokensFrom_numeral {numeral : Numeral} {rest : List Char} (h : numeral.WellFormed)
    (ends : EndsNumeral rest) (position : Nat) :
    tokensFrom position (numeral.text ++ rest) = (do
      let tokens ← tokensFrom (position + byteCount numeral.text) rest
      return ⟨position, .number numeral.value⟩ :: tokens) := by
  have hscan := Lexeme.scan?_numeral h ends
  obtain ⟨c, tail, htext, hstart⟩ := Numeral.text_eq_cons h
  rw [htext, List.cons_append] at hscan ⊢
  exact tokensFrom_lexeme (isBlank_of_numeralStart hstart) hscan

end Calculator
