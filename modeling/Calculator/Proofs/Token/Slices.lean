import Calculator.Proofs.Text.Slice
import Calculator.Proofs.Token.Cut

/-!
Numbers and unexpected characters that are found at numbers of bytes.

The number at the front of a text is measured in its bytes, part by part, and the text is cut behind
the sum. Only bytes below 128 are counted, and these are characters, so the cut does not go through
one. The character that begins no lexeme is found again behind the bytes that were read before it.
-/

namespace Calculator
namespace Bytewise

/-- The offset behind an optional sign. -/
def behindSign (bytes : List UInt8) (offset : Nat) : Nat :=
  if bytes[offset]? = some '+'.toUInt8 ∨ bytes[offset]? = some '-'.toUInt8 then offset + 1
  else offset

def isDigitByte (byte : UInt8) : Bool :=
  '0'.toUInt8 ≤ byte ∧ byte ≤ '9'.toUInt8

/-- The number of digits at an offset. -/
def countDigits? (bytes : List UInt8) (offset : Nat) : Option Nat :=
  (bytesFrom? offset bytes).map fun rest => (rest.takeWhile isDigitByte).length

/-- The number of digits behind an optional point, and the offset behind them. -/
def behindFraction? (bytes : List UInt8) (offset : Nat) : Option (Nat × Nat) :=
  if bytes[offset]? = some '.'.toUInt8 then
    (countDigits? bytes (offset + 1)).map fun count => (count, offset + 1 + count)
  else some (0, offset)

/-- The offset behind an optional power of ten, which needs a digit. -/
def behindPower? (bytes : List UInt8) (offset : Nat) : Option Nat :=
  if bytes[offset]? = some 'e'.toUInt8 ∨ bytes[offset]? = some 'E'.toUInt8 then
    let digits := behindSign bytes (offset + 1)
    (countDigits? bytes digits).map fun count => if 0 < count then digits + count else offset
  else some offset

/-- The offset behind the number at the front, if there is one. -/
def behindNumber? (bytes : List UInt8) : Option (Option Nat) := do
  let start := behindSign bytes 0
  let whole ← countDigits? bytes start
  let (fraction, offset) ← behindFraction? bytes (start + whole)
  if whole + fraction = 0 then some none else (behindPower? bytes offset).map some

/-- The value of a text that is an optional sign and a numeral, and nothing else. -/
def valueOf? (text : List Char) : Option Float :=
  let (sign, unsigned) := splitSign text
  match Numeral.scan? unsigned with
  | some (numeral, []) => some (if sign = some '-' then -numeral.value else numeral.value)
  | _ => none

def leadingNumber? (text : String) : Option (Option Float) := do
  let trimmed := trimStart text.toList
  match ← behindNumber? (bytes trimmed) with
  | none => some none
  | some count =>
    let (front, _) ← splitAt? count trimmed
    some (valueOf? front)

section Numbers

variable {text front rest : List Char}

theorem getElem?_bytes_eq_iff (h : front ++ rest = text) {c : Char} (ascii : c.toNat < 128) :
    (bytes text)[byteCount front]? = some c.toUInt8 ↔ rest.head? = some c := by
  rw [← h, getElem?_bytes_append, head?_bytes_eq_iff ascii]

theorem behindSign_eq (h : front ++ rest = text) :
    behindSign (bytes text) (byteCount front) =
      byteCount (front ++ (splitSign rest).1.toList) := by
  have hplus := @getElem?_bytes_eq_iff _ _ _ h '+' (by decide)
  have hminus := @getElem?_bytes_eq_iff _ _ _ h '-' (by decide)
  simp only [behindSign, hplus, hminus, byteCount_append]
  cases rest with
  | nil => rfl
  | cons c rest =>
      simp only [List.head?_cons, Option.some.injEq, splitSign]
      split
      · rename_i hsign
        rcases hsign with rfl | rfl <;> rfl
      · rfl

theorem isDigitByte_iff {byte : UInt8} :
    isDigitByte byte = true ↔ 48 ≤ byte.toNat ∧ byte.toNat ≤ 57 := by
  rw [isDigitByte, decide_eq_true_iff, UInt8.le_iff_toNat_le, UInt8.le_iff_toNat_le]
  rfl

theorem length_takeWhile_bytes (text : List Char) :
    ((bytes text).takeWhile isDigitByte).length = byteCount (text.takeWhile Char.isDigit) := by
  induction text with
  | nil => rfl
  | cons c text ih =>
      obtain ⟨first, more, hbytes, hascii, hother⟩ := exists_firstByte c
      rw [bytes_cons, hbytes, List.cons_append]
      by_cases hdigit : c.isDigit = true
      · have hcode := isDigit_iff.mp hdigit
        obtain ⟨rfl, rfl⟩ := hascii (by omega)
        have hsmall : c.toUInt8.toNat = c.toNat := toNat_toUInt8 (by omega)
        have hbyte : isDigitByte c.toUInt8 = true := isDigitByte_iff.mpr (by rwa [hsmall])
        have hsize : c.utf8Size = 1 := by
          rw [← String.length_utf8EncodeChar, hbytes]
          rfl
        rw [List.nil_append, List.takeWhile_cons_of_pos hbyte, List.takeWhile_cons_of_pos hdigit,
          byteCount_cons, hsize, List.length_cons, ih, Nat.add_comm]
      · have hbyte : ¬isDigitByte first = true := by
          rw [isDigitByte_iff]
          intro hfirst
          have hcode := mt isDigit_iff.mpr hdigit
          rcases Nat.lt_or_ge c.toNat 128 with hsmall | hlarge
          · obtain ⟨rfl, -⟩ := hascii hsmall
            rw [toNat_toUInt8 hsmall] at hfirst
            exact hcode hfirst
          · have := hother hlarge
            omega
        rw [List.takeWhile_cons_of_neg hbyte, List.takeWhile_cons_of_neg hdigit]
        rfl

theorem countDigits?_eq (h : front ++ rest = text) :
    countDigits? (bytes text) (byteCount front) = some (byteCount (spanDigits rest).1) := by
  rw [countDigits?, ← h, bytesFrom?_append, Option.map_some, length_takeWhile_bytes]
  rfl

theorem behindFraction?_eq (h : front ++ rest = text) :
    behindFraction? (bytes text) (byteCount front) =
      some (byteCount ((Numeral.splitFraction rest).1.getD []),
        byteCount (front ++ (Numeral.splitFraction rest).1.elim [] ('.' :: ·))) := by
  have hmark := @getElem?_bytes_eq_iff _ _ _ h '.' (by decide)
  simp only [behindFraction?, hmark]
  cases rest with
  | nil => simp [Numeral.splitFraction, byteCount]
  | cons c rest =>
      by_cases hpoint : c = '.'
      · subst hpoint
        have hbehind : (front ++ ['.']) ++ rest = text := by rw [← h, List.append_assoc]; rfl
        have hoffset : byteCount front + 1 = byteCount (front ++ ['.']) :=
          (byteCount_append front ['.']).symm
        rw [List.head?_cons, if_pos rfl, hoffset, countDigits?_eq hbehind, Option.map_some,
          ← byteCount_append, List.append_assoc]
        rfl
      · simp [Numeral.splitFraction, hpoint, byteCount]

theorem behindPower?_eq (h : front ++ rest = text) :
    behindPower? (bytes text) (byteCount front) =
      some (byteCount (front ++ (Numeral.splitPower rest).1.elim [] PowerOfTen.text)) := by
  have hsmall := @getElem?_bytes_eq_iff _ _ _ h 'e' (by decide)
  have hlarge := @getElem?_bytes_eq_iff _ _ _ h 'E' (by decide)
  simp only [behindPower?, hsmall, hlarge]
  cases rest with
  | nil => simp [Numeral.splitPower, PowerOfTen.scan?]
  | cons mark rest =>
      simp only [List.head?_cons, Option.some.injEq, Numeral.splitPower, PowerOfTen.scan?]
      split
      · rename_i hmark
        have hsize : byteCount [mark] = 1 := by rcases hmark with rfl | rfl <;> rfl
        have hbehind : (front ++ [mark]) ++ rest = text := by rw [← h, List.append_assoc]; rfl
        have hsigned :
            (front ++ [mark] ++ (splitSign rest).1.toList) ++ (splitSign rest).2 = text := by
          rw [List.append_assoc, Numeral.sign_append_splitSign, hbehind]
        have hoffset : byteCount front + 1 = byteCount (front ++ [mark]) := by
          rw [byteCount_append, hsize]
        rw [hoffset, behindSign_eq hbehind, countDigits?_eq hsigned, Option.map_some,
          ← byteCount_append]
        by_cases hdigits : (spanDigits (splitSign rest).2).1 = []
        · simp [hdigits, byteCount]
        · have hpos := Nat.pos_of_ne_zero (mt byteCount_eq_zero_iff.mp hdigits)
          simp [hdigits, hpos, PowerOfTen.text]
      · simp

/-- The number at the front of a text, behind its sign, is measured by its bytes. -/
theorem behindNumber?_eq (text : List Char) :
    behindNumber? (bytes text) = some ((Numeral.scan? (splitSign text).2).map fun found =>
      byteCount ((splitSign text).1.toList ++ found.1.text)) := by
  -- Each part is found behind the parts in front of it, and leaves the text behind itself.
  have hstart : behindSign (bytes text) 0 = byteCount (splitSign text).1.toList :=
    @behindSign_eq text [] text rfl
  have hleft := Numeral.sign_append_splitSign text
  generalize splitSign text = parts at hstart hleft ⊢
  obtain ⟨sign, unsigned⟩ := parts
  dsimp only at hstart hleft ⊢
  have hcount := countDigits?_eq hleft
  rw [← Numeral.text_append_spanDigits unsigned, ← List.append_assoc] at hleft
  rcases hwhole : spanDigits unsigned with ⟨whole, afterWhole⟩
  simp only [hwhole] at hcount hleft
  have hpoint := behindFraction?_eq hleft
  rw [← Numeral.text_append_splitFraction afterWhole, ← List.append_assoc] at hleft
  rcases hfraction : Numeral.splitFraction afterWhole with ⟨fraction, afterFraction⟩
  simp only [hfraction, byteCount_append sign.toList] at hpoint hleft
  have hpower := behindPower?_eq hleft
  simp only [behindNumber?, hstart, hcount, hpoint, hpower, Option.bind_eq_bind, Option.bind_some,
    Nat.add_eq_zero_iff, byteCount_eq_zero_iff, Numeral.scan?, hwhole, hfraction]
  split
  · rfl
  · simp [Numeral.text]

theorem leadingNumber?_eq (text : String) : leadingNumber? text = some (leadingNumber text) := by
  rw [leadingNumber?, behindNumber?_eq, leadingNumber]
  obtain ⟨sign, unsigned, hsign⟩ : ∃ sign unsigned,
    splitSign (trimStart text.toList) = (sign, unsigned) := ⟨_, _, rfl⟩
  have htext := Numeral.sign_append_splitSign (trimStart text.toList)
  simp only [hsign] at htext ⊢
  cases hscan : Numeral.scan? unsigned with
  | none => rfl
  | some found =>
      obtain ⟨numeral, rest⟩ := found
      have hnumeral := Numeral.text_append_of_scan hscan
      have hkept : splitSign (sign.toList ++ numeral.text) = (sign, numeral.text) :=
        splitSign_cut (hsign.trans (Prod.ext rfl hnumeral.symm))
      have hwhole : Numeral.scan? numeral.text = some (numeral, []) := by
        simpa using @scanNumeral_cut _ [] rest numeral hscan
      rw [← hnumeral, ← List.append_assoc] at htext
      simp only [Option.map_some, Option.bind_eq_bind, Option.bind_some, ← htext, splitAt?_append,
        valueOf?, hkept, hwhole]

end Numbers

/-- The tokens of a text that stands in a longer one. The unexpected character is the first one
behind the bytes in front of the text. -/
def tokensFrom? (source : List Char) (position : Nat) :
    List Char → Option (Except SyntaxError (List PlacedToken))
  | [] => some (.ok [])
  | c :: rest =>
    if isBlank c then tokensFrom? source (position + c.utf8Size) rest
    else
      match _h : Lexeme.scan? (c :: rest) with
      | none => do
        let (_, behind) ← splitAt? position source
        some (.error (.unexpectedCharacter (behind.head?.getD '\x00') position))
      | some (lexeme, after) => do
        let tokens ← tokensFrom? source (position + byteCount lexeme.text) after
        some (tokens.map (⟨position, lexeme.token⟩ :: ·))
termination_by text => text.length
decreasing_by
  · simp
  · exact Lexeme.length_lt_of_scan _h

def tokenize? (text : String) : Option (Except SyntaxError (List PlacedToken)) :=
  tokensFrom? text.toList 0 text.toList

/-- The position is the number of bytes that have been read. -/
theorem tokensFrom?_eq {source front text : List Char} {position : Nat}
    (h : front ++ text = source) (hposition : byteCount front = position) :
    tokensFrom? source position text = some (tokensFrom position text) := by
  fun_induction tokensFrom position text generalizing front with
  | case1 => rw [tokensFrom?]
  | case2 position c text hblank ih =>
      have hnext : (front ++ [c]) ++ text = source := by rw [← h, List.append_assoc]; rfl
      rw [tokensFrom?, if_pos hblank]
      exact ih hnext (by rw [byteCount_append, hposition]; rfl)
  | case3 position c text hblank hscan =>
      rw [tokensFrom?, if_neg hblank]
      split
      · rw [← h, ← hposition, splitAt?_append]
        rfl
      · simp_all
  | case4 position c text hblank lexeme after hscan ih =>
      have hnext : (front ++ lexeme.text) ++ after = source := by
        rw [List.append_assoc, Lexeme.text_append_of_scan hscan, h]
      rw [tokensFrom?, if_neg hblank]
      split
      · simp_all
      · rename_i hother
        rw [hscan] at hother
        obtain ⟨rfl, rfl⟩ := Prod.mk.inj (Option.some.inj hother)
        rw [ih hnext (by rw [byteCount_append, hposition])]
        cases tokensFrom (position + byteCount lexeme.text) after <;> rfl

theorem tokenize?_eq (text : String) : tokenize? text = some (tokenize text) :=
  tokensFrom?_eq (List.nil_append _) rfl

end Bytewise
end Calculator
