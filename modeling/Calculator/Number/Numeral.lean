import Calculator.Number.Decimal
import Calculator.Text.Blank

/-!
Numerals: the unsigned numbers a text can spell. A numeral has digits before an optional point,
digits after it, and an optional power of ten; one of the two groups of digits must not be empty.
`scan?` takes the longest numeral off the front of a text.
-/

namespace Calculator

/-- The optional end of a numeral, as in `e-7`. -/
structure PowerOfTen where
  mark : Char
  sign : Option Char
  digits : List Char
deriving DecidableEq, Repr

structure Numeral where
  whole : List Char
  /-- The digits after the point, if there is a point. -/
  fraction : Option (List Char)
  power : Option PowerOfTen
deriving DecidableEq, Repr

/-- The digits at the front of a text, and the text after them. -/
def spanDigits (text : List Char) : List Char × List Char :=
  (text.takeWhile Char.isDigit, text.dropWhile Char.isDigit)

/-- The sign at the front of a text, if there is one, and the text after it. -/
def splitSign : List Char → Option Char × List Char
  | [] => (none, [])
  | c :: rest => if c = '+' ∨ c = '-' then (some c, rest) else (none, c :: rest)

namespace PowerOfTen

def text (power : PowerOfTen) : List Char :=
  power.mark :: (power.sign.toList ++ power.digits)

def exponent (power : PowerOfTen) : Int :=
  let size : Int := Nat.ofDigitChars 10 power.digits 0
  if power.sign = some '-' then -size else size

/-- A mark and a sign count only when a digit follows them. -/
def scan? : List Char → Option (PowerOfTen × List Char)
  | [] => none
  | mark :: afterMark =>
    if mark = 'e' ∨ mark = 'E' then
      let (sign, afterSign) := splitSign afterMark
      let (digits, rest) := spanDigits afterSign
      if digits = [] then none else some (⟨mark, sign, digits⟩, rest)
    else none

end PowerOfTen

namespace Numeral

def text (numeral : Numeral) : List Char :=
  numeral.whole ++ (numeral.fraction.elim [] ('.' :: ·)) ++ (numeral.power.elim [] PowerOfTen.text)

def decimal (numeral : Numeral) : Decimal :=
  let fraction := numeral.fraction.getD []
  ⟨Nat.ofDigitChars 10 (numeral.whole ++ fraction) 0,
    numeral.power.elim 0 PowerOfTen.exponent - fraction.length⟩

/-- The nearest double, which is infinite for a numeral beyond the finite ones. -/
def value (numeral : Numeral) : Float :=
  numeral.decimal.toFloat

/-- A point at the front of a text with the digits that follow it, and the text after them. -/
def splitFraction : List Char → Option (List Char) × List Char
  | [] => (none, [])
  | c :: rest =>
    if c = '.' then
      let (digits, rest) := spanDigits rest
      (some digits, rest)
    else (none, c :: rest)

def splitPower (text : List Char) : Option PowerOfTen × List Char :=
  match PowerOfTen.scan? text with
  | some (power, rest) => (some power, rest)
  | none => (none, text)

def scan? (text : List Char) : Option (Numeral × List Char) :=
  let (whole, afterWhole) := spanDigits text
  let (fraction, afterFraction) := splitFraction afterWhole
  if whole = [] ∧ fraction.getD [] = [] then none
  else
    let (power, rest) := splitPower afterFraction
    some (⟨whole, fraction, power⟩, rest)

theorem text_append_spanDigits (text : List Char) :
    (spanDigits text).1 ++ (spanDigits text).2 = text :=
  List.takeWhile_append_dropWhile

theorem sign_append_splitSign (text : List Char) :
    (splitSign text).1.toList ++ (splitSign text).2 = text := by
  cases text with
  | nil => rfl
  | cons c rest => simp only [splitSign]; split <;> rfl

theorem text_append_of_power {text rest : List Char} {power : PowerOfTen}
    (h : PowerOfTen.scan? text = some (power, rest)) : power.text ++ rest = text := by
  cases text with
  | nil => simp [PowerOfTen.scan?] at h
  | cons mark afterMark =>
    simp only [PowerOfTen.scan?] at h
    split at h
    · split at h
      · simp at h
      · obtain ⟨rfl, rfl⟩ := Prod.mk.inj (Option.some.inj h)
        simp [PowerOfTen.text, List.append_assoc, text_append_spanDigits, sign_append_splitSign]
    · simp at h

theorem text_append_splitFraction (text : List Char) :
    (splitFraction text).1.elim [] ('.' :: ·) ++ (splitFraction text).2 = text := by
  cases text with
  | nil => rfl
  | cons c rest =>
    simp only [splitFraction]
    split
    · rename_i h
      simp [h, text_append_spanDigits]
    · rfl

theorem text_append_splitPower (text : List Char) :
    (splitPower text).1.elim [] PowerOfTen.text ++ (splitPower text).2 = text := by
  simp only [splitPower]
  split
  · rename_i h
    simp [text_append_of_power h]
  · rfl

/-- Scanning a numeral neither loses nor changes a character. -/
theorem text_append_of_scan {text rest : List Char} {numeral : Numeral}
    (h : scan? text = some (numeral, rest)) : numeral.text ++ rest = text := by
  simp only [scan?] at h
  split at h
  · simp at h
  · obtain ⟨rfl, rfl⟩ := Prod.mk.inj (Option.some.inj h)
    simp only [Numeral.text, List.append_assoc]
    rw [text_append_splitPower, text_append_splitFraction, text_append_spanDigits]

theorem text_ne_nil_of_scan {text rest : List Char} {numeral : Numeral}
    (h : scan? text = some (numeral, rest)) : numeral.text ≠ [] := by
  simp only [scan?] at h
  split at h
  · simp at h
  · rename_i hdigits
    obtain ⟨rfl, -⟩ := Prod.mk.inj (Option.some.inj h)
    intro hnil
    simp only [Numeral.text, List.append_eq_nil_iff] at hnil
    refine hdigits ⟨hnil.1.1, ?_⟩
    cases hf : (splitFraction (spanDigits text).2).1 with
    | none => rfl
    | some digits => simp [hf] at hnil

theorem length_lt_of_scan {text rest : List Char} {numeral : Numeral}
    (h : scan? text = some (numeral, rest)) : rest.length < text.length := by
  have hlength := congrArg List.length (text_append_of_scan h)
  have hpos := List.length_pos_iff.mpr (text_ne_nil_of_scan h)
  simp only [List.length_append] at hlength
  omega

end Numeral

/-- The number that a text starts with, after blanks and one optional sign. -/
def leadingNumber (text : String) : Option Float :=
  let (sign, unsigned) := splitSign (trimStart text.toList)
  (Numeral.scan? unsigned).map fun (numeral, _) =>
    if sign = some '-' then -numeral.value else numeral.value

end Calculator
