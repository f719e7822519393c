import Calculator.Proofs.Number.Numerals
import Calculator.Proofs.Number.Rounding
import Calculator.Proofs.Token.Cut
import Mathlib.Computability.Language

/-!
The lexemes of the language.

A token's pattern is the language of the texts that it can be written as, and a text spells a token
if it is in this language and means the token. What a scan takes off the front of a text is the
longest piece of it that spells a token, and it takes nothing only if no piece does.
-/

namespace Calculator

open scoped Computability

namespace Pattern

/-- One character of a class. -/
def one (p : Char → Bool) : Language Char :=
  {text | ∃ c, p c = true ∧ [c] = text}

/-- One character of a class or more. -/
def several (p : Char → Bool) : Language Char :=
  one p * (one p)∗

def sign : Language Char := one fun c => c = '+' ∨ c = '-'

def power : Language Char :=
  one (fun c => c = 'e' ∨ c = 'E') * (1 + sign) * several Char.isDigit

def fraction : Language Char :=
  one (· = '.') * (one Char.isDigit)∗

/-- Digits with an optional point and digits behind it, or a point and digits, and an optional
power of ten. -/
def number : Language Char :=
  (several Char.isDigit * (1 + fraction) + one (· = '.') * several Char.isDigit) * (1 + power)

def name : Language Char :=
  one isNameStart * (one isNamePart)∗

variable {p : Char → Bool} {text : List Char}

theorem mem_many : text ∈ (one p)∗ ↔ ∀ c ∈ text, p c = true := by
  rw [Language.mem_kstar]
  constructor
  · rintro ⟨pieces, rfl, hpieces⟩ c hc
    obtain ⟨piece, hpiece, hc⟩ := List.mem_flatten.mp hc
    obtain ⟨d, hd, rfl⟩ := hpieces piece hpiece
    rwa [List.mem_singleton.mp hc]
  · intro h
    refine ⟨text.map ([·]), by simp [← List.flatMap_def], ?_⟩
    intro piece hpiece
    obtain ⟨c, hc, rfl⟩ := List.mem_map.mp hpiece
    exact ⟨c, h c hc, rfl⟩

theorem mem_one_many {q : Char → Bool} :
    text ∈ one p * (one q)∗ ↔
      ∃ c rest, p c = true ∧ (∀ d ∈ rest, q d = true) ∧ c :: rest = text := by
  rw [Language.mem_mul]
  constructor
  · rintro ⟨_, ⟨c, hc, rfl⟩, rest, hrest, rfl⟩
    exact ⟨c, rest, hc, mem_many.mp hrest, rfl⟩
  · rintro ⟨c, rest, hc, hrest, rfl⟩
    exact ⟨[c], ⟨c, hc, rfl⟩, rest, mem_many.mpr hrest, rfl⟩

theorem mem_several : text ∈ several p ↔ text ≠ [] ∧ ∀ c ∈ text, p c = true := by
  rw [several, mem_one_many]
  cases text with
  | nil => simp
  | cons c rest => simp

/-- A part that may be left out, in the way that the rest of the text is made of its value. -/
theorem mem_optional {α : Type} {language : Language Char} {valid : α → Prop}
    {write : α → List Char} (h : ∀ text, text ∈ language ↔ ∃ a, valid a ∧ write a = text) :
    text ∈ 1 + language ↔
      ∃ part : Option α, (∀ a ∈ part, valid a) ∧ part.elim [] write = text := by
  rw [Language.mem_add, Language.mem_one, h]
  constructor
  · rintro (rfl | ⟨a, ha, rfl⟩)
    · exact ⟨none, nofun, rfl⟩
    · exact ⟨some a, fun _ heq => Option.some.inj heq ▸ ha, rfl⟩
  · rintro ⟨part, hpart, rfl⟩
    cases part with
    | none => exact .inl rfl
    | some a => exact .inr ⟨a, hpart a rfl, rfl⟩

theorem mem_sign (text : List Char) :
    text ∈ sign ↔ ∃ c, (c = '+' ∨ c = '-') ∧ [c] = text := by
  simp only [sign, one, decide_eq_true_eq]
  rfl

theorem mem_fraction (text : List Char) :
    text ∈ fraction ↔ ∃ digits, (∀ c ∈ digits, c.isDigit = true) ∧ '.' :: digits = text := by
  simp [fraction, mem_one_many]

theorem elim_singleton (part : Option Char) : part.elim [] ([·]) = part.toList := by
  cases part <;> rfl

theorem mem_power (text : List Char) :
    text ∈ power ↔ ∃ power : PowerOfTen, power.WellFormed ∧ power.text = text := by
  simp only [power, Language.mem_mul, mem_optional mem_sign, mem_several, elim_singleton]
  constructor
  · rintro ⟨_, ⟨_, ⟨mark, hmark, rfl⟩, _, ⟨sign, hsign, rfl⟩, rfl⟩, digits, ⟨hne, hdigits⟩, rfl⟩
    exact ⟨⟨mark, sign, digits⟩, ⟨by simpa using hmark, hsign, hdigits, hne⟩, rfl⟩
  · rintro ⟨⟨mark, sign, digits⟩, h, rfl⟩
    exact ⟨_, ⟨_, ⟨mark, by simpa using h.mark, rfl⟩, _, ⟨sign, h.sign, rfl⟩, rfl⟩, digits,
      ⟨h.nonempty, h.digits⟩, rfl⟩

/-- The pattern of a number is what a well-formed numeral can be. -/
theorem mem_number :
    text ∈ number ↔ ∃ numeral : Numeral, numeral.WellFormed ∧ numeral.text = text := by
  simp only [number, Language.mem_mul, Language.mem_add, mem_optional mem_fraction,
    mem_optional mem_power, mem_several]
  constructor
  · rintro ⟨_, ⟨whole, ⟨hne, hwhole⟩, _, ⟨fraction, hfraction, rfl⟩, rfl⟩ |
        ⟨_, ⟨c, hc, rfl⟩, digits, ⟨hne, hdigits⟩, rfl⟩, _, ⟨power, hpower, rfl⟩, rfl⟩
    · exact ⟨⟨whole, fraction, power⟩, ⟨hwhole, hfraction, hpower, fun h => hne h.1⟩, rfl⟩
    · obtain rfl : c = '.' := by simpa using hc
      refine ⟨⟨[], some digits, power⟩, ⟨nofun, ?_, hpower, fun h => hne h.2⟩, rfl⟩
      exact fun _ heq => Option.some.inj heq ▸ hdigits
  · rintro ⟨⟨whole, fraction, power⟩, h, rfl⟩
    refine ⟨whole ++ fraction.elim [] ('.' :: ·), ?_, _, ⟨power, h.power, rfl⟩, rfl⟩
    cases whole with
    | cons c whole =>
        exact .inl ⟨_, ⟨List.cons_ne_nil c whole, h.whole⟩, _, ⟨fraction, h.fraction, rfl⟩, rfl⟩
    | nil =>
        cases fraction with
        | none => exact absurd ⟨rfl, rfl⟩ h.nonempty
        | some digits =>
            exact .inr ⟨['.'], ⟨'.', rfl, rfl⟩, digits,
              ⟨fun hnil => h.nonempty ⟨rfl, hnil⟩, h.fraction digits rfl⟩, rfl⟩

theorem mem_name :
    text ∈ name ↔ ∃ c rest, isNameStart c = true ∧ (∀ d ∈ rest, isNamePart d = true) ∧
      c :: rest = text :=
  mem_one_many

end Pattern

/-- What a token can be written as. -/
def Token.pattern : Token → Language Char
  | .number _ => Pattern.number
  | .identifier _ => Pattern.name
  | .symbol sign => {[sign.char]}
  | .blank => 0

/-- Whether a token is the one that a text in its pattern stands for. The value of a number is the
decimal that is written, correctly rounded. -/
def Token.Means (text : List Char) : Token → Prop
  | .number value => ∃ numeral : Numeral, numeral.WellFormed ∧ numeral.text = text ∧
      Magnitude.IsRounded numeral.decimal.number value
  | .identifier name => name = String.ofList text
  | .symbol _ => True
  | .blank => False

structure Spells (text : List Char) (token : Token) : Prop where
  inPattern : text ∈ token.pattern
  means : token.Means text

/-- A text spells a token and is the longest piece at the front of itself and what follows it that
spells one. -/
structure Longest (text : List Char) (token : Token) (rest : List Char) : Prop where
  spells : Spells text token
  longest : ∀ other token', other <+: text ++ rest → Spells other token' →
    other.length ≤ text.length

/-- No piece at the front of a text spells a token. -/
def StartsNoLexeme (text : List Char) : Prop :=
  ∀ piece token, piece <+: text → ¬Spells piece token

namespace Lexeme

variable {text rest piece : List Char} {lexeme : Lexeme} {token : Token}

theorem spells_of_scan (h : scan? text = some (lexeme, rest)) :
    Spells lexeme.text lexeme.token := by
  rcases text_of_scan h with ⟨symbol, rfl⟩ | ⟨c, name, start, parts, rfl⟩ | ⟨numeral, hnumeral, rfl⟩
  · exact ⟨rfl, trivial⟩
  · exact ⟨Pattern.mem_name.mpr ⟨c, name, start, parts, rfl⟩, rfl⟩
  · exact ⟨Pattern.mem_number.mpr ⟨numeral, hnumeral, rfl⟩, numeral, hnumeral, rfl,
      numeral.decimal.isRounded_toFloat⟩

/-- A text that spells a token is scanned as this token, and nothing of it is left. -/
theorem scan?_of_spells (h : Spells piece token) : scan? piece = some (⟨token, piece⟩, []) := by
  obtain ⟨inPattern, means⟩ := h
  cases token with
  | number value =>
      obtain ⟨numeral, hnumeral, rfl, hvalue⟩ := means
      obtain rfl := hvalue.unique numeral.decimal.isRounded_toFloat
      have hscan := scan?_numeral hnumeral endsNumeral_nil
      rwa [List.append_nil] at hscan
  | identifier name =>
      obtain ⟨c, rest, start, parts, rfl⟩ := Pattern.mem_name.mp inPattern
      obtain rfl : name = String.ofList (c :: rest) := means
      have hscan := @scan?_name c rest [] start parts nofun
      rwa [List.append_nil] at hscan
  | symbol sign =>
      obtain rfl : piece = [sign.char] := inPattern
      exact scan?_symbol sign []
  | blank => exact means.elim

/-- With more text behind it, there still is a lexeme at the front of a text. -/
theorem scan?_eq_none_of_append (h : scan? (piece ++ rest) = none) : scan? piece = none := by
  cases piece with
  | nil => rfl
  | cons c tail =>
      simp only [List.cons_append, scan?] at h ⊢
      split at h
      · simp at h
      · split at h
        · simp at h
        · rename_i hstart
          rw [if_neg hstart]
          rw [Option.map_eq_none_iff] at h ⊢
          exact scanNumeral_eq_none_of_append h

theorem longest_of_scan (h : scan? text = some (lexeme, rest)) :
    Longest lexeme.text lexeme.token rest := by
  refine ⟨spells_of_scan h, ?_⟩
  rintro other token' ⟨cut, hcut⟩ hother
  by_contra hlonger
  -- A longer piece is the scanned one and a part of what the scan leaves.
  obtain ⟨kept, rfl, rfl⟩ : ∃ kept, other = lexeme.text ++ kept ∧ rest = kept ++ cut := by
    rcases List.append_eq_append_iff.mp hcut with ⟨kept, hkept, -⟩ | ⟨kept, hkept, hrest⟩
    · have hlength := congrArg List.length hkept
      simp only [List.length_append] at hlength
      omega
    · exact ⟨kept, hkept, hrest⟩
  have hwhole := (scan_cut h).symm.trans (scan?_of_spells hother)
  have hlexeme := congrArg Lexeme.text (Prod.mk.inj (Option.some.inj hwhole)).1
  exact hlonger (congrArg List.length hlexeme).ge

theorem scan?_ne_none_of_spells (h : Spells piece token) : scan? (piece ++ rest) ≠ none := by
  intro hnone
  have hpiece := scan?_eq_none_of_append hnone
  rw [scan?_of_spells h] at hpiece
  simp at hpiece

theorem scan?_of_longest (h : Longest piece token rest) :
    scan? (piece ++ rest) = some (⟨token, piece⟩, rest) := by
  have hfound : scan? (piece ++ rest) ≠ none := scan?_ne_none_of_spells h.spells
  obtain ⟨⟨⟨token', other⟩, after⟩, hscan⟩ := Option.ne_none_iff_exists'.mp hfound
  have htext : other ++ after = piece ++ rest := text_append_of_scan hscan
  have hshorter : other.length ≤ piece.length :=
    h.longest other token' ⟨after, htext⟩ (spells_of_scan hscan)
  have hlonger : piece.length ≤ other.length :=
    (longest_of_scan hscan).longest piece token ⟨rest, htext.symm⟩ h.spells
  obtain ⟨rfl, rfl⟩ := List.append_inj htext (Nat.le_antisymm hshorter hlonger)
  have hsame := (scan?_of_spells (spells_of_scan hscan)).symm.trans (scan?_of_spells h.spells)
  rw [hscan, (Prod.mk.inj (Option.some.inj hsame)).1]

/-- A scan takes nothing only if no piece at the front of the text spells a token. -/
theorem scan?_eq_none_iff : scan? text = none ↔ StartsNoLexeme text := by
  constructor
  · rintro h piece token ⟨rest, rfl⟩ hspells
    exact scan?_ne_none_of_spells hspells h
  · intro h
    cases hscan : scan? text with
    | none => rfl
    | some scanned =>
        exact absurd (spells_of_scan hscan)
          (h _ _ ⟨scanned.2, text_append_of_scan hscan⟩)

end Lexeme
end Calculator
