import Calculator.Proofs.Token.Boundary
import Calculator.Shorthand.Degrees
import Mathlib.Data.List.TakeWhile

/-!
What the tokens of a text keep of its characters: all its parentheses, in order, and the name that
it ends in, if it ends in one.
-/

namespace Calculator

/-- The characters that a numeral is made of. -/
def isNumeralPart (c : Char) : Bool :=
  c.isDigit || c = '.' || c = 'e' || c = 'E' || c = '+' || c = '-'

section Characters

variable {c : Char}

theorem isDigit_iff : c.isDigit = true ↔ 48 ≤ c.toNat ∧ c.toNat ≤ 57 := by
  simp [Char.isDigit, UInt32.le_iff_toNat_le]

theorem isAlpha_iff :
    c.isAlpha = true ↔ (65 ≤ c.toNat ∧ c.toNat ≤ 90) ∨ (97 ≤ c.toNat ∧ c.toNat ≤ 122) := by
  show (decide (65 ≤ c.val ∧ c.val ≤ 90) ||
    (decide (97 ≤ c.val) && decide (c.val ≤ 122))) = true ↔ _
  simp [UInt32.le_iff_toNat_le]

theorem toNat_of_isNamePart (h : isNamePart c = true) : 48 ≤ c.toNat ∧ c.toNat ≤ 122 := by
  simp only [isNamePart, Char.isAlphanum, Bool.or_eq_true, isAlpha_iff, isDigit_iff,
    decide_eq_true_eq] at h
  rcases h with (hletter | hdigit) | rfl
  · omega
  · omega
  · decide

theorem toNat_of_isNameStart (h : isNameStart c = true) : 65 ≤ c.toNat := by
  simp only [isNameStart, Bool.or_eq_true, isAlpha_iff, decide_eq_true_eq] at h
  rcases h with hletter | rfl
  · omega
  · decide

theorem isParenthesis_of_isNamePart (h : isNamePart c = true) :
    Shorthand.isParenthesis c = false := by
  have := toNat_of_isNamePart h
  simp only [Shorthand.isParenthesis, decide_eq_false_iff_not]
  rintro (rfl | rfl) <;> exact absurd this (by decide)

theorem isBlank_of_isNamePart (h : isNamePart c = true) : isBlank c = false := by
  have := toNat_of_isNamePart h
  simp only [isBlank, blankRanges, List.any_cons, List.any_nil, Bool.or_eq_false_iff,
    decide_eq_false_iff_not, Bool.or_false]
  omega

theorem isNamePart_of_isNameStart (h : isNameStart c = true) : isNamePart c = true := by
  simp only [isNameStart, Bool.or_eq_true] at h
  simp only [isNamePart, Char.isAlphanum, Bool.or_eq_true]
  exact h.imp_left .inl

theorem ofChar?_of_isNameStart (h : isNameStart c = true) : Symbol.ofChar? c = none := by
  cases hsymbol : Symbol.ofChar? c with
  | none => rfl
  | some symbol =>
      have hchar := Symbol.char_of_ofChar hsymbol
      cases symbol <;> subst hchar <;> exact absurd h (by decide)

/-- A name is read up to the first character that cannot be part of it. -/
theorem Lexeme.scan?_name {name rest : List Char} (start : isNameStart c = true)
    (parts : ∀ d ∈ name, isNamePart d = true) (stop : ∀ d ∈ rest.head?, isNamePart d = false) :
    Lexeme.scan? (c :: (name ++ rest)) =
      some (⟨.identifier (String.ofList (c :: name)), c :: name⟩, rest) := by
  have htake : (name ++ rest).takeWhile isNamePart = name := by
    rw [takeWhile_append_stop stop, List.takeWhile_eq_self_iff.mpr parts]
  have hdrop : (name ++ rest).dropWhile isNamePart = rest := by
    rw [dropWhile_append_stop stop, List.dropWhile_eq_nil_iff.mpr parts, List.nil_append]
  simp only [Lexeme.scan?, ofChar?_of_isNameStart start, start, htake, hdrop, if_true]

theorem tokensFrom_identifier {name rest : List Char} {position : Nat}
    (start : isNameStart c = true) (parts : ∀ d ∈ name, isNamePart d = true)
    (stop : ∀ d ∈ rest.head?, isNamePart d = false) :
    tokensFrom position (c :: (name ++ rest)) = (do
      let tokens ← tokensFrom (position + byteCount (c :: name)) rest
      return ⟨position, .identifier (String.ofList (c :: name))⟩ :: tokens) :=
  tokensFrom_lexeme (isBlank_of_isNamePart (isNamePart_of_isNameStart start))
    (Lexeme.scan?_name start parts stop)

theorem isParenthesis_of_isNumeralPart (h : isNumeralPart c = true) :
    Shorthand.isParenthesis c = false := by
  simp only [Shorthand.isParenthesis, decide_eq_false_iff_not]
  rintro (rfl | rfl) <;> exact absurd h (by decide)

theorem isBlank_of_isNumeralPart (h : isNumeralPart c = true) : isBlank c = false := by
  simp only [isNumeralPart, Bool.or_eq_true, decide_eq_true_eq] at h
  rcases h with ((((hdigit | rfl) | rfl) | rfl) | rfl) | rfl
  · exact isBlank_of_isNamePart (isNamePart_of_isDigit hdigit)
  all_goals decide

end Characters

theorem filter_isParenthesis_eq_nil {text : List Char}
    (h : ∀ c ∈ text, Shorthand.isParenthesis c = false) :
    text.filter Shorthand.isParenthesis = [] := by
  simpa using h

structure PowerOfTen.WellFormed (power : PowerOfTen) : Prop where
  mark : power.mark = 'e' ∨ power.mark = 'E'
  sign : ∀ c ∈ power.sign, c = '+' ∨ c = '-'
  digits : ∀ c ∈ power.digits, c.isDigit = true
  nonempty : power.digits ≠ []

structure Numeral.WellFormed (numeral : Numeral) : Prop where
  whole : ∀ c ∈ numeral.whole, c.isDigit = true
  fraction : ∀ digits ∈ numeral.fraction, ∀ c ∈ digits, c.isDigit = true
  power : ∀ power ∈ numeral.power, power.WellFormed
  nonempty : ¬(numeral.whole = [] ∧ numeral.fraction.getD [] = [])

theorem isDigit_spanDigits {text : List Char} : ∀ c ∈ (spanDigits text).1, c.isDigit = true :=
  fun _ hc => List.mem_takeWhile_imp hc

theorem sign_of_splitSign {text : List Char} :
    ∀ c ∈ (splitSign text).1, c = '+' ∨ c = '-' := by
  cases text with
  | nil => simp [splitSign]
  | cons first rest =>
      simp only [splitSign]
      split
      · rintro _ ⟨⟩
        assumption
      · simp

theorem PowerOfTen.wellFormed_of_scan {text rest : List Char} {power : PowerOfTen}
    (h : PowerOfTen.scan? text = some (power, rest)) : power.WellFormed := by
  cases text with
  | nil => simp [PowerOfTen.scan?] at h
  | cons mark afterMark =>
      simp only [PowerOfTen.scan?] at h
      split at h
      · rename_i hmark
        split at h
        · simp at h
        · rename_i hdigits
          obtain ⟨rfl, -⟩ := Prod.mk.inj (Option.some.inj h)
          exact ⟨hmark, sign_of_splitSign, isDigit_spanDigits, hdigits⟩
      · simp at h

namespace Numeral

theorem isDigit_splitFraction {text : List Char} :
    ∀ digits ∈ (splitFraction text).1, ∀ c ∈ digits, c.isDigit = true := by
  cases text with
  | nil => simp [splitFraction]
  | cons first rest =>
      simp only [splitFraction]
      split
      · rintro _ ⟨⟩
        exact isDigit_spanDigits
      · simp

theorem wellFormed_splitPower {text : List Char} :
    ∀ power ∈ (splitPower text).1, power.WellFormed := by
  simp only [splitPower]
  split
  · rename_i hscan
    rintro _ ⟨⟩
    exact PowerOfTen.wellFormed_of_scan hscan
  · simp

/-- A scan takes well-formed numerals only. -/
theorem wellFormed_of_scan {text rest : List Char} {numeral : Numeral}
    (h : scan? text = some (numeral, rest)) : numeral.WellFormed := by
  simp only [scan?] at h
  split at h
  · simp at h
  · rename_i hdigits
    obtain ⟨rfl, -⟩ := Prod.mk.inj (Option.some.inj h)
    exact ⟨isDigit_spanDigits, isDigit_splitFraction, wellFormed_splitPower, hdigits⟩

end Numeral

theorem PowerOfTen.WellFormed.parts {power : PowerOfTen} (h : power.WellFormed) :
    ∀ c ∈ power.text, isNumeralPart c = true := by
  intro c hc
  simp only [PowerOfTen.text, List.mem_cons, List.mem_append, Option.mem_toList] at hc
  rcases hc with rfl | hsign | hdigit
  · rcases h.mark with hmark | hmark <;> rw [hmark] <;> rfl
  · rcases h.sign c hsign with rfl | rfl <;> rfl
  · simp [isNumeralPart, h.digits c hdigit]

theorem Numeral.WellFormed.parts {numeral : Numeral} (h : numeral.WellFormed) :
    ∀ c ∈ numeral.text, isNumeralPart c = true := by
  obtain ⟨whole, fraction, power⟩ := numeral
  intro c hc
  simp only [Numeral.text, List.mem_append] at hc
  rcases hc with (hwhole | hfraction) | hpower
  · simp [isNumeralPart, h.whole c hwhole]
  · cases fraction with
    | none => simp at hfraction
    | some digits =>
        rcases List.mem_cons.mp hfraction with rfl | hdigit
        · rfl
        · simp [isNumeralPart, h.fraction digits rfl c hdigit]
  · cases power with
    | none => simp at hpower
    | some power => exact (h.power power rfl).parts c hpower

namespace Lexeme

/-- A lexeme is a symbol's character, a name or a numeral. -/
theorem text_of_scan {text rest : List Char} {lexeme : Lexeme}
    (h : scan? text = some (lexeme, rest)) :
    (∃ symbol, lexeme = ⟨.symbol symbol, [symbol.char]⟩) ∨
    (∃ c name, isNameStart c = true ∧ (∀ d ∈ name, isNamePart d = true) ∧
      lexeme = ⟨.identifier (String.ofList (c :: name)), c :: name⟩) ∨
    ∃ numeral : Numeral, numeral.WellFormed ∧ lexeme = ⟨.number numeral.value, numeral.text⟩ := by
  cases text with
  | nil => simp [scan?] at h
  | cons c tail =>
      simp only [scan?] at h
      split at h
      · rename_i symbol hsymbol
        obtain ⟨rfl, -⟩ := Prod.mk.inj (Option.some.inj h)
        exact .inl ⟨symbol, by rw [Symbol.char_of_ofChar hsymbol]⟩
      · split at h
        · rename_i hstart
          obtain ⟨rfl, -⟩ := Prod.mk.inj (Option.some.inj h)
          exact .inr (.inl ⟨c, _, hstart, fun _ hd => List.mem_takeWhile_imp hd, rfl⟩)
        · obtain ⟨⟨numeral, after⟩, hscan, heq⟩ := Option.map_eq_some_iff.mp h
          obtain ⟨rfl, -⟩ := Prod.mk.inj heq
          exact .inr (.inr ⟨numeral, Numeral.wellFormed_of_scan hscan, rfl⟩)

theorem isNamePart_of_name {c : Char} {name : List Char} (start : isNameStart c = true)
    (parts : ∀ d ∈ name, isNamePart d = true) : ∀ d ∈ c :: name, isNamePart d = true :=
  List.forall_mem_cons.mpr ⟨isNamePart_of_isNameStart start, parts⟩

theorem parentheses_of_scan {text rest : List Char} {lexeme : Lexeme}
    (h : scan? text = some (lexeme, rest)) :
    lexeme.text.filter Shorthand.isParenthesis = lexeme.token.parentheses := by
  rcases text_of_scan h with ⟨symbol, rfl⟩ | ⟨_, _, start, parts, rfl⟩ | ⟨numeral, hnumeral, rfl⟩
  · cases symbol <;> rfl
  · have hname := isNamePart_of_name start parts
    exact filter_isParenthesis_eq_nil fun c hc => isParenthesis_of_isNamePart (hname c hc)
  · have hpart := hnumeral.parts
    exact filter_isParenthesis_eq_nil fun c hc => isParenthesis_of_isNumeralPart (hpart c hc)

end Lexeme

theorem isParenthesis_of_isBlank {c : Char} (h : isBlank c = true) :
    Shorthand.isParenthesis c = false := by
  simp only [Shorthand.isParenthesis, decide_eq_false_iff_not]
  rintro (rfl | rfl) <;> exact absurd h (by decide)

/-- The tokens of a text have its parentheses, in the same order. -/
theorem parentheses_of_tokensFrom {position : Nat} {text : List Char} {tokens : List PlacedToken}
    (h : tokensFrom position text = .ok tokens) :
    text.filter Shorthand.isParenthesis = Grammar.parentheses tokens := by
  fun_induction tokensFrom position text generalizing tokens with
  | case1 =>
      obtain rfl := Except.ok.inj h
      rfl
  | case2 position c text hblank ih =>
      rw [List.filter_cons_of_neg (by simp [isParenthesis_of_isBlank hblank])]
      exact ih h
  | case3 => simp at h
  | case4 position c text _ lexeme after hscan ih =>
      obtain ⟨more, hmore, htokens⟩ := Grammar.bind_eq_ok.mp h
      obtain rfl := Except.ok.inj htokens
      rw [← Lexeme.text_append_of_scan hscan, List.filter_append,
        Lexeme.parentheses_of_scan hscan, ih hmore]
      rfl

theorem trimEnd_suffix_append (text rest : List Char) :
    trimEnd rest <:+ trimEnd (text ++ rest) := by
  rw [trimEnd, trimEnd, List.reverse_suffix, List.reverse_append, List.dropWhile_append]
  split
  · rename_i hempty
    rw [List.isEmpty_iff.mp hempty]
    exact List.nil_prefix
  · exact List.prefix_append _ _

theorem trimEnd_append_blanks {text blanks : List Char} (htext : ∀ c ∈ text, isBlank c = false)
    (hblanks : ∀ c ∈ blanks, isBlank c = true) : trimEnd (text ++ blanks) = text := by
  rw [trimEnd, List.reverse_append, List.dropWhile_append_of_pos (by simpa using hblanks)]
  cases hreverse : text.reverse with
  | nil => simpa using congrArg List.reverse hreverse.symm
  | cons last before =>
      have hlast : last ∈ text := by
        rw [← List.mem_reverse, hreverse]
        exact List.mem_cons_self
      rw [List.dropWhile_cons_of_neg (by simp [htext last hlast]), ← hreverse,
        List.reverse_reverse]

theorem isBlank_of_no_tokens {position : Nat} {text : List Char}
    (h : tokensFrom position text = .ok []) : ∀ c ∈ text, isBlank c = true := by
  fun_induction tokensFrom position text with
  | case1 => simp
  | case2 position c text hblank ih => simpa using ⟨hblank, ih h⟩
  | case3 => simp at h
  | case4 =>
      obtain ⟨_, _, htokens⟩ := Grammar.bind_eq_ok.mp h
      simp [pure, Except.pure] at htokens

/-- A text whose last token is a name ends in this name, up to blanks. -/
theorem name_suffix_of_tokensFrom {position place : Nat} {text : List Char} {name : String}
    {tokens : List PlacedToken} (h : tokensFrom position text = .ok tokens)
    (last : tokens.getLast? = some ⟨place, .identifier name⟩) :
    name.toList <:+ trimEnd text := by
  fun_induction tokensFrom position text generalizing tokens with
  | case1 =>
      obtain rfl := Except.ok.inj h
      simp at last
  | case2 position c text _ ih => exact (ih h last).trans (trimEnd_suffix_append [c] text)
  | case3 => simp at h
  | case4 position c text _ lexeme after hscan ih =>
      obtain ⟨more, hmore, htokens⟩ := Grammar.bind_eq_ok.mp h
      obtain rfl := Except.ok.inj htokens
      rw [← Lexeme.text_append_of_scan hscan]
      cases more with
      | nil =>
          rcases Lexeme.text_of_scan hscan with
            ⟨_, rfl⟩ | ⟨d, word, start, parts, rfl⟩ | ⟨_, _, rfl⟩
          · simp at last
          · obtain ⟨-, rfl⟩ : position = place ∧ String.ofList (d :: word) = name := by
              simpa using last
            have hword := Lexeme.isNamePart_of_name start parts
            have htrim := trimEnd_append_blanks (fun c hc => isBlank_of_isNamePart (hword c hc))
              (isBlank_of_no_tokens hmore)
            rw [String.toList_ofList]
            exact ⟨[], htrim.symm⟩
          · simp at last
      | cons next tail =>
          rw [List.getLast?_cons_cons] at last
          exact (ih hmore last).trans (trimEnd_suffix_append lexeme.text after)

end Calculator
