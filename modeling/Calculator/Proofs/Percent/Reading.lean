import Calculator.Proofs.Continuation
import Calculator.Proofs.Grammar.Quotient
import Calculator.Proofs.Shorthand.Settled
import Calculator.Proofs.Token.Joint

/-!
How a number with a percent is read.

A percent is expanded to a division by one hundred. Behind its number this gives the tokens of a
quotient, if no lexeme reaches over the ends of the two. With parentheses around the two nothing
does, and none of them gets a degree mark unless the text in front of them ends in a letter.
-/

namespace Calculator
namespace Percent

open Grammar Shorthand
open Continuation (endsNumeral_symbol unplaced unplaced_append unplaced_relocate)

def hundred : Numeral := ⟨['1', '0', '0'], none, none⟩

/-- A text with a percent in it. -/
def withPercent (before number behind : List Char) : String :=
  String.ofList (before ++ (number ++ '%' :: behind))

/-- The same text with the number divided on its own. -/
def withQuotient (before number behind : List Char) : String :=
  String.ofList (before ++ '(' :: (number ++ '/' :: (hundred.text ++ ')' :: behind)))

theorem isDigit_hundred : ∀ c ∈ hundred.whole, c.isDigit = true :=
  List.all_eq_true.mp (by decide)

theorem wellFormed_hundred : hundred.WellFormed :=
  wellFormed_digits isDigit_hundred (by decide)

section Expansions

variable {before inside behind : List Char} {numeral : Numeral}

theorem isPlain_of_text (h : numeral.WellFormed) : ∀ c ∈ numeral.text, isPlain c = true :=
  fun c hc => Display.isPlain_of_isNumeralPart (h.parts c hc)

theorem isPlain_quotient (h : numeral.WellFormed) :
    ∀ c ∈ numeral.text ++ '/' :: hundred.text, isPlain c = true := by
  refine List.forall_mem_append.mpr ⟨isPlain_of_text h, List.forall_mem_cons.mpr ⟨by decide, ?_⟩⟩
  exact isPlain_of_text wellFormed_hundred

theorem closing_notMem_flat {text : List Char} (h : ∀ c ∈ text, isParenthesis c = false) :
    ')' ∉ text :=
  fun hmem => absurd (h _ hmem) (by decide)

theorem closing_notMem_plain {text : List Char} (h : ∀ c ∈ text, isPlain c = true) :
    ')' ∉ text :=
  closing_notMem_flat fun c hc => isParenthesis_of_isPlain (h c hc)

theorem expandAll_withPercent (h : numeral.WellFormed)
    (flat : ∀ c ∈ behind, isParenthesis c = false) :
    expandAll (withPercent before numeral.text behind).toList =
      expandAll before ++ (numeral.text ++ '/' :: (hundred.text ++ expandAll behind)) := by
  have hbehind : ')' ∉ '%' :: behind := by simpa using closing_notMem_flat flat
  have hnumber : ')' ∉ numeral.text ++ '%' :: behind := by
    simpa using ⟨closing_notMem_plain (isPlain_of_text h), closing_notMem_flat flat⟩
  have hpercent : expandAll ['%'] = '/' :: hundred.text := by
    rw [expandAll_singleton (by decide)]
    decide
  rw [withPercent, String.toList_ofList, expandAll_append_unclosed before hnumber,
    expandAll_append_unclosed _ hbehind, expandAll_plain (isPlain_of_text h),
    ← List.singleton_append, expandAll_append_unclosed _ (closing_notMem_flat flat), hpercent,
    List.cons_append]

theorem letter_of_trigHead {head : List Char} (h : head ∈ trigHeads) :
    ∃ front c, head = front ++ [c, '('] ∧ isNamePart c = true := by
  simp only [trigHeads, List.mem_cons, List.not_mem_nil, or_false] at h
  rcases h with rfl | rfl | rfl
  · exact ⟨['s', 'i'], 'n', rfl, by decide⟩
  · exact ⟨['c', 'o'], 's', rfl, by decide⟩
  · exact ⟨['t', 'a'], 'n', rfl, by decide⟩

/-- Behind a text that does not end in a letter no call is opened. -/
theorem wantsMark_of_apart
    (apart : ∀ front c, expandAll before = front ++ [c] → isNamePart c = false)
    (flat : ∀ c ∈ inside, isParenthesis c = false) :
    wantsMark (expandAll before ++ '(' :: inside) = false := by
  by_contra hwants
  obtain ⟨⟨head, hhead, hsuffix⟩, -⟩ := wantsMark_iff.mp (by simpa using hwants)
  obtain ⟨front, c, rfl, hletter⟩ := letter_of_trigHead hhead
  rw [upToParenthesis_append rfl, upToParenthesis_flat flat, List.append_cons,
    List.suffix_append_self_iff] at hsuffix
  obtain ⟨init, hinit⟩ := hsuffix
  rw [← List.append_assoc] at hinit
  simp [apart _ c hinit.symm] at hletter

/-- A plain text in parentheses is kept as it is, if it is no argument of a call. -/
theorem expandAll_plain_group (plain : ∀ c ∈ inside, isPlain c = true)
    (flat : ∀ c ∈ behind, isParenthesis c = false)
    (apart : ∀ front c, expandAll before = front ++ [c] → isNamePart c = false) :
    expandAll (before ++ '(' :: (inside ++ ')' :: behind)) =
      expandAll before ++ '(' :: (inside ++ ')' :: expandAll behind) := by
  have hopening : expandAll ('(' :: inside) = '(' :: inside := by
    have hgroup := @expandAll_opening [] nofun (by decide) inside
    rwa [expandAll_plain plain] at hgroup
  have hunclosed : ')' ∉ '(' :: inside := by simpa using closing_notMem_plain plain
  have hfront : expandAll (before ++ '(' :: inside) = expandAll before ++ '(' :: inside := by
    rw [expandAll_append_unclosed before hunclosed, hopening]
  have hmark : markBehind (expandSymbols (before ++ '(' :: inside)) ')' = [] := by
    refine if_neg fun hwants => ?_
    have hnone := wantsMark_of_apart apart fun c hc => isParenthesis_of_isPlain (plain c hc)
    rw [← hfront, wantsMark_expandAll] at hnone
    simp [hnone] at hwants
  have hclosing : replacement ')' = [')'] := by decide
  have htext : before ++ '(' :: (inside ++ ')' :: behind) =
      before ++ '(' :: inside ++ [')'] ++ behind := by simp
  rw [htext, expandAll_append_unclosed _ (closing_notMem_flat flat), expandAll_concat, hmark,
    hclosing, hfront]
  simp

/-- What is in front of an opening parenthesis is expanded on its own. -/
theorem expandAll_before_opening (before behind : List Char) :
    ∃ rest, expandAll (before ++ '(' :: behind) = expandAll before ++ '(' :: rest := by
  have hopening : replacement '(' = ['('] := by decide
  rw [expandAll_split before (by decide), hopening]
  exact ⟨_, rfl⟩

theorem expandAll_withQuotient (h : numeral.WellFormed)
    (flat : ∀ c ∈ behind, isParenthesis c = false)
    (apart : ∀ front c, expandAll before = front ++ [c] → isNamePart c = false) :
    expandAll (withQuotient before numeral.text behind).toList =
      expandAll before ++ '(' ::
        (numeral.text ++ '/' :: (hundred.text ++ ')' :: expandAll behind)) := by
  have hgroup := expandAll_plain_group (isPlain_quotient h) flat apart
  rw [List.append_assoc, List.cons_append, List.append_assoc, List.cons_append] at hgroup
  rwa [withQuotient, String.toList_ofList]

end Expansions

section Tokens

variable {first last : List Char} {numeral : Numeral} {position place : Nat}
  {tokens front back : List PlacedToken}

theorem unplaced_of_tokensFrom (h : tokensFrom position last = .ok front)
    (h' : tokensFrom place last = .ok back) : unplaced front = unplaced back := by
  obtain ⟨same, hsame, rfl⟩ := tokensFrom_eq_ok_iff.mp h
  obtain ⟨same', hsame', rfl⟩ := tokensFrom_eq_ok_iff.mp h'
  obtain rfl := Except.ok.inj (hsame.symm.trans hsame')
  rw [unplaced_relocate, unplaced_relocate]

/-- The number and its divisor, in front of a text that does not go on with the divisor. -/
theorem tokens_of_quotient (h : numeral.WellFormed) (stop : Edge hundred.text last)
    (htokens : tokensFrom position (numeral.text ++ '/' :: (hundred.text ++ last)) = .ok tokens) :
    ∃ back place, tokensFrom place last = .ok back ∧
      unplaced tokens = quotientTokens numeral.value hundred.value ++ unplaced back := by
  have hhundred : ∀ position, tokensFrom position hundred.text =
      .ok [⟨position, .number hundred.value⟩] := by
    intro position
    have hread := tokensFrom_numeral wellFormed_hundred endsNumeral_nil position
    rwa [List.append_nil, tokensFrom_nil] at hread
  rw [show '/' = Symbol.slash.char from rfl, tokensFrom_numeral h (endsNumeral_symbol .slash _),
    tokensFrom_symbol, stop.tokensFrom_append, hhundred] at htokens
  obtain ⟨more, hmore, htokens⟩ := bind_eq_ok.mp htokens
  obtain ⟨divided, hdivided, hmore⟩ := bind_eq_ok.mp hmore
  obtain ⟨divisor, hdivisor, hdivided⟩ := bind_eq_ok.mp hdivided
  obtain ⟨back, hback, hdivided⟩ := bind_eq_ok.mp hdivided
  obtain rfl := Except.ok.inj hdivisor
  obtain rfl := Except.ok.inj hdivided
  obtain rfl := Except.ok.inj hmore
  obtain rfl := Except.ok.inj htokens
  exact ⟨back, _, hback, rfl⟩

theorem tokens_withPercent (h : numeral.WellFormed)
    (start : Edge first (numeral.text ++ '/' :: (hundred.text ++ last)))
    (stop : Edge hundred.text last)
    (htokens : tokensFrom position
      (first ++ (numeral.text ++ '/' :: (hundred.text ++ last))) = .ok tokens) :
    ∃ front back place, tokensFrom position first = .ok front ∧ tokensFrom place last = .ok back ∧
      unplaced tokens = unplaced front ++
        (quotientTokens numeral.value hundred.value ++ unplaced back) := by
  rw [start.tokensFrom_append] at htokens
  obtain ⟨front, hfront, htokens⟩ := bind_eq_ok.mp htokens
  obtain ⟨more, hmore, htokens⟩ := bind_eq_ok.mp htokens
  obtain rfl := Except.ok.inj htokens
  obtain ⟨back, place, hback, hquotient⟩ := tokens_of_quotient h stop hmore
  exact ⟨front, back, place, hfront, hback, by rw [unplaced_append, hquotient]⟩

theorem edge_hundred_closing (rest : List Char) : Edge hundred.text (')' :: rest) := by
  have hscan := Lexeme.scan?_numeral wellFormed_hundred (endsNumeral_symbol .closing rest)
  exact .single (.lexeme (Lexeme.longest_of_scan hscan))

theorem tokens_withQuotient (h : numeral.WellFormed)
    (htokens : tokensFrom position
      (first ++ '(' :: (numeral.text ++ '/' :: (hundred.text ++ ')' :: last))) = .ok tokens) :
    ∃ front back place, tokensFrom position first = .ok front ∧ tokensFrom place last = .ok back ∧
      unplaced tokens = unplaced front ++
        (groupTokens numeral.value hundred.value ++ unplaced back) := by
  have happart : Apart (Symbol.opening.char ::
      (numeral.text ++ '/' :: (hundred.text ++ ')' :: last))) := apart_cons.mpr (by decide)
  rw [show '(' = Symbol.opening.char from rfl, tokensFrom_append happart,
    tokensFrom_symbol] at htokens
  obtain ⟨front, hfront, htokens⟩ := bind_eq_ok.mp htokens
  obtain ⟨more, hmore, htokens⟩ := bind_eq_ok.mp htokens
  obtain rfl := Except.ok.inj htokens
  obtain ⟨inside, hinside, hmore⟩ := bind_eq_ok.mp hmore
  obtain rfl := Except.ok.inj hmore
  obtain ⟨closed, place, hclosed, hquotient⟩ :=
    tokens_of_quotient h (edge_hundred_closing last) hinside
  rw [show ')' = Symbol.closing.char from rfl, tokensFrom_symbol] at hclosed
  obtain ⟨back, hback, hclosed⟩ := bind_eq_ok.mp hclosed
  obtain rfl := Except.ok.inj hclosed
  refine ⟨front, back, _, hfront, hback, ?_⟩
  rw [unplaced_append]
  have hgroup : unplaced (⟨position + byteCount first, .symbol .opening⟩ :: inside) =
      ⟨0, .symbol .opening⟩ :: unplaced inside := rfl
  rw [hgroup, hquotient, groupTokens, List.cons_append, List.append_assoc]
  rfl

end Tokens

end Percent
end Calculator
