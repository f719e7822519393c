import Calculator.Proofs.Float.Opposite
import Calculator.Proofs.Percent.Reading
import Calculator.Proofs.Token.Broken
import Calculator.Proofs.Trigonometry

/-!
Percents and the numbers in front of them.

The division that a percent is expanded to takes all of the product in front of it. This is the
number alone, unless a factor, a dividend or a base stands in front of the number and its signs, or
the hundred is raised to a power. Then the value is the one with the number and its division in
parentheses. No lexeme reaches over the ends of the number and its division, if both texts have a
value: broken off by a parenthesis it would leave two operands in a row.
-/

namespace Calculator
namespace Percent

open Grammar Shorthand
open Continuation (endsNumeral_symbol unplaced unplaced_append)

/-- Signs, and blanks between them. -/
def isPassed (c : Char) : Bool :=
  isBlank c || c = '+' || c = '-'

/-- The character in front of an operand, past its signs. -/
def characterBefore? (text : List Char) : Option Char :=
  text.reverse.find? (!isPassed ·)

/-- The signs of the operators that take factors. -/
def factorSigns : List Char :=
  ['*', '/', '^', '×', '÷']

/-- No operator takes a number between these texts as a factor, or its divisor as a base. -/
structure Alone (before behind : List Char) : Prop where
  unbound : ∀ c ∈ characterBefore? before, c ∉ factorSigns
  unraised : (trimStart behind).head? ≠ some '^'

section Edges

variable {first last rest other : List Char} {numeral : Numeral} {divided divisor : Float}
  {place : Nat} {tokens tokens' front back : List PlacedToken} {node : Expression} {nesting : Nat}

theorem isNameStart_of_plainName {name : String} (h : name ∈ plainNames) :
    ∀ c ∈ name.toList, isNameStart c = true := by
  have hall : plainNames.all (·.toList.all isNameStart) = true := by decide
  exact List.all_eq_true.mp (List.all_eq_true.mp hall name h)

/-- Where a number begins no lexeme goes on, neither a plain name nor a numeral that may also be
broken off by a parenthesis. -/
theorem edge_number (h : numeral.WellFormed)
    (htokens : tokensFrom 0 (first ++ (numeral.text ++ rest)) = .ok tokens)
    (names : ∀ placed ∈ tokens, IsPlain placed.token)
    (htokens' : tokensFrom 0 (first ++ '(' :: other) = .ok tokens')
    (derives : Derives .expression tokens' node nesting) : Edge first (numeral.text ++ rest) := by
  have hreaches := (reaches_iff_munches 0).mpr ⟨tokens, munches_of_tokensFrom htokens⟩
  refine (edge_or_spanned hreaches).resolve_right ?_
  rintro ⟨piece, more, after, token, hsecond, hpiece, hmore, hpassed, longest⟩
  cases token with
  | number value =>
      obtain ⟨whole, hwell, hwhole, -⟩ := longest.spells.means
      have hopening : Edge first ('(' :: other) :=
        (edge_iff_not_continued htokens').mpr (not_continued (by decide) (by decide))
      obtain ⟨front, behind, place, hbehind, rfl⟩ :=
        tokens_of_reaches (hopening.extend hpassed.cut) htokens'
      obtain ⟨x, second, back, rfl, hbegins, hother⟩ := tokens_of_broken hwell hwhole hpiece hbehind
      rcases derives.adjoins trivial hbegins with hmark | ⟨⟨name, hname⟩, -⟩
      · exact hother hmark
      · simp at hname
  | identifier name =>
      obtain ⟨front, behind, place, hbehind, rfl⟩ := tokens_of_reaches hpassed htokens
      rw [hsecond, ← List.append_assoc, tokensFrom_longest longest] at hbehind
      obtain ⟨back, -, hbehind⟩ := bind_eq_ok.mp hbehind
      obtain rfl := Except.ok.inj hbehind
      have hname : name ∈ plainNames := names _ (List.mem_append_right front List.mem_cons_self)
      obtain ⟨c, digits, htext, hstart⟩ := Numeral.text_eq_cons h
      obtain ⟨d, more, rfl⟩ := List.exists_cons_of_ne_nil hmore
      rw [htext] at hsecond
      obtain rfl : c = d := (List.cons.inj hsecond).1
      have hspelled : name = String.ofList (piece ++ c :: more) := longest.spells.means
      have hletter := isNameStart_of_plainName hname c (by simp [hspelled])
      simp [isNameStart_of_numeralStart hstart] at hletter
  | symbol => exact not_spells_symbol hpiece hmore longest.spells
  | blank => exact longest.spells.means

/-- The text in front of a number does not end in an operand. -/
theorem not_part_before (h : numeral.WellFormed) (start : Edge first (numeral.text ++ '/' :: rest))
    (htokens : tokensFrom 0 (first ++ (numeral.text ++ '/' :: rest)) = .ok tokens)
    (derives : Derives .expression tokens node nesting) {init : List Char} {c : Char}
    (hfirst : first = init ++ [c]) : isNamePart c = false := by
  by_contra hpart
  have ends : EndsNumeral ('/' :: rest) := endsNumeral_symbol .slash rest
  rw [start.tokensFrom_append, tokensFrom_numeral h ends] at htokens
  obtain ⟨front, hfront, htokens⟩ := bind_eq_ok.mp htokens
  obtain ⟨more, hmore, htokens⟩ := bind_eq_ok.mp htokens
  obtain ⟨back, -, hmore⟩ := bind_eq_ok.mp hmore
  obtain rfl := Except.ok.inj htokens
  obtain rfl := Except.ok.inj hmore
  rw [hfirst] at hfront
  obtain ⟨init, operand, rfl, hoperand⟩ := exists_last hfront (.inl (by simpa using hpart))
  rw [List.append_assoc, List.singleton_append] at derives
  have hmark := derives.mayFollow hoperand trivial
  simp at hmark

/-- Behind the parenthesis of a quotient only a degree mark begins like an operand, so nothing goes
on with the hundred. -/
theorem edge_hundred (hlast : tokensFrom place last = .ok back)
    (derives : Derives .expression (front ++ (groupTokens divided divisor ++ unplaced back)) node
      nesting) : Edge hundred.text last := by
  have hhead : ∀ c rest, last = c :: rest → isNamePart c = true ∨ c = '.' → c = 'd' := by
    rintro c rest rfl part
    obtain ⟨token, more, rfl, hoperand, hname⟩ := exists_first hlast part
    have hshape : front ++ (groupTokens divided divisor ++ unplaced (⟨place, token⟩ :: more)) =
        (front ++ ⟨0, .symbol .opening⟩ :: quotientTokens divided divisor) ++
          ⟨0, .symbol .closing⟩ :: ⟨0, token⟩ :: unplaced more := by
      simp [groupTokens, unplaced, PlacedToken.relocate]
    rw [hshape] at derives
    rcases derives.adjoins trivial hoperand.begins with hmark | ⟨⟨name, hclosing⟩, -⟩
    · exact (Option.some.inj (hname _ hmark)).symm
    · simp at hclosing
  refine (edge_digits_iff isDigit_hundred (by decide)).mpr ⟨fun c hc => ⟨?_, ?_⟩, ?_⟩
  · obtain ⟨rest, rfl⟩ := List.head?_eq_some_iff.mp hc
    by_contra hdigit
    obtain rfl := hhead c rest rfl (.inl (isNamePart_of_isDigit (by simpa using hdigit)))
    exact hdigit (by decide)
  · rintro rfl
    obtain ⟨rest, rfl⟩ := List.head?_eq_some_iff.mp hc
    exact absurd (hhead '.' rest rfl (.inr rfl)) (by decide)
  · rintro ⟨_, hpower, rest, rfl⟩
    obtain ⟨power, hwell, rfl⟩ := (Pattern.mem_power _).mp hpower
    have hpart : isNamePart power.mark = true := by
      rcases hwell.mark with hmark | hmark <;> rw [hmark] <;> decide
    have hd := hhead power.mark _ rfl (.inl hpart)
    rcases hwell.mark with hmark | hmark <;> simp [hd] at hmark

end Edges

section Surroundings

variable {before behind : List Char} {c : Char} {position : Nat} {tokens : List PlacedToken}

theorem eq_of_isPassed (h : isPassed c = true) : isBlank c = true ∨ c = '+' ∨ c = '-' := by
  simpa [isPassed, or_assoc] using h

theorem notMem_keys_of_isPassed (h : isPassed c = true) : c ∉ keys := by
  intro hkey
  rcases eq_of_mem_keys hkey with rfl | rfl | rfl | rfl | rfl <;> exact absurd h (by decide)

theorem characterBefore?_concat :
    characterBefore? (before ++ [c]) = if isPassed c then characterBefore? before else some c := by
  rw [characterBefore?, List.reverse_append]
  cases hpassed : isPassed c <;> simp [hpassed, characterBefore?]

theorem edge_passed (h : isPassed c = true)
    (htokens : tokensFrom position (before ++ [c]) = .ok tokens) : Edge before [c] := by
  refine (edge_iff_not_continued htokens).mpr ?_
  rcases eq_of_isPassed h with hblank | hsign
  · refine not_continued ?_ ?_
    · by_contra hpart
      simp [isBlank_of_isNamePart (by simpa using hpart)] at hblank
    · by_contra hpart
      simp [isBlank_of_isNumeralPart (by simpa using hpart)] at hblank
  · exact not_continued_sign hsign

theorem signs_of_isPassed (h : isPassed c = true)
    (htokens : tokensFrom position [c] = .ok tokens) : tokens.all isSign = true := by
  rcases eq_of_isPassed h with hblank | hsign
  · rw [tokensFrom_blank hblank, tokensFrom_nil] at htokens
    obtain rfl := Except.ok.inj htokens
    rfl
  · obtain ⟨symbol, rfl, hsymbol⟩ : ∃ symbol : Symbol, c = symbol.char ∧
        isSign ⟨position, .symbol symbol⟩ = true := by
      rcases hsign with rfl | rfl
      · exact ⟨.plus, rfl, rfl⟩
      · exact ⟨.minus, rfl, rfl⟩
    rw [tokensFrom_symbol, tokensFrom_nil] at htokens
    obtain rfl := Except.ok.inj htokens
    simpa using hsymbol

theorem isBlank_replacement (visible : isBlank c = false) :
    ∀ d ∈ replacement c, isBlank d = false := by
  by_cases hkey : c ∈ keys
  · have hall : keys.all (fun key => (replacement key).all (!isBlank ·)) = true := by decide
    intro d hd
    simpa using List.all_eq_true.mp (List.all_eq_true.mp hall c hkey) d hd
  · rw [replacement_of_notMem_keys hkey]
    simpa using visible

/-- The symbols of the signs, and of the operators that take factors. -/
def boundSymbols : List Symbol :=
  [.plus, .minus, .star, .slash, .caret]

/-- The text of a shorthand ends in such a symbol only if its own sign is one. -/
theorem sign_of_replacement {init : List Char} {symbol : Symbol}
    (h : replacement c = init ++ [symbol.char]) (bound : symbol ∈ boundSymbols) :
    isPassed c = true ∨ c ∈ factorSigns := by
  by_cases hkey : c ∈ keys
  · have hlast : (replacement c).getLast? = some symbol.char := by simp [h]
    have hnone : ∀ d ∈ ['i', 'e', '0'], d ≠ symbol.char := by
      cases symbol <;> simp [Symbol.char]
    rcases eq_of_mem_keys hkey with rfl | rfl | rfl | rfl | rfl
    · exact .inr (by decide)
    · exact .inr (by decide)
    · exact absurd (Option.some.inj hlast) (hnone 'i' (by simp))
    · exact absurd (Option.some.inj hlast) (hnone 'e' (by simp))
    · exact absurd (Option.some.inj hlast) (hnone '0' (by simp))
  · rw [replacement_of_notMem_keys hkey, ← List.nil_append [c]] at h
    obtain ⟨-, hlast⟩ := List.append_inj' h rfl
    obtain rfl := (List.cons.inj hlast).1
    have hall : ∀ symbol ∈ boundSymbols,
        isPassed symbol.char = true ∨ symbol.char ∈ factorSigns := by decide
    exact hall symbol bound

theorem tokenBefore?_concat {placed : PlacedToken} (unsigned : isSign placed = false) :
    tokenBefore? (tokens ++ [placed]) = some placed.token := by
  rw [tokenBefore?, List.reverse_append]
  simp [unsigned]

theorem symbol_of_isSign {placed : PlacedToken} (h : isSign placed = true) :
    ∃ symbol ∈ boundSymbols, placed.token = .symbol symbol := by
  obtain ⟨operator, hoperator⟩ := Option.isSome_iff_exists.mp h
  obtain ⟨symbol, hknown, htoken⟩ := sign?_eq_some.mp hoperator
  have hbound : ∀ entry ∈ signOperators, entry.1 ∈ boundSymbols := by decide
  exact ⟨symbol, hbound _ hknown, htoken⟩

theorem symbol_of_factor {token : Token} (h : token ∈ factorTokens) :
    ∃ symbol ∈ boundSymbols, token = .symbol symbol := by
  simp only [factorTokens, List.mem_cons, List.not_mem_nil, or_false] at h
  rcases h with rfl | rfl | rfl
  · exact ⟨.star, by decide, rfl⟩
  · exact ⟨.slash, by decide, rfl⟩
  · exact ⟨.caret, by decide, rfl⟩

/-- A token that is no such symbol stands in front of an operand, and does not take it. -/
theorem unbound_of_last {front : List PlacedToken} {last : PlacedToken}
    (free : ∀ symbol ∈ boundSymbols, last.token ≠ .symbol symbol) :
    ∀ token ∈ tokenBefore? (front ++ [last]), token ∉ factorTokens := by
  have hunsigned : isSign last = false := by
    by_contra hsign
    obtain ⟨symbol, hbound, htoken⟩ := symbol_of_isSign (by simpa using hsign)
    exact free symbol hbound htoken
  rw [tokenBefore?_concat hunsigned]
  rintro token ⟨⟩ hfactor
  obtain ⟨symbol, hbound, htoken⟩ := symbol_of_factor hfactor
  exact free symbol hbound htoken

/-- The last token of a text is no such symbol, if its last character is none. -/
theorem exists_free_last {text : List Char} (other : isPassed c = false) (free : c ∉ factorSigns)
    (htokens : tokensFrom position (text ++ replacement c) = .ok tokens) :
    ∃ front last, tokens = front ++ [last] ∧
      ∀ symbol ∈ boundSymbols, last.token ≠ .symbol symbol := by
  have hvisible : isBlank c = false := by
    by_contra hblank
    simp [isPassed, hblank] at other
  obtain ⟨init, d, hreplacement⟩ :=
    (List.eq_nil_or_concat (replacement c)).resolve_left (Substitution.replacement_ne_nil c)
  rw [List.concat_eq_append] at hreplacement
  have hd := isBlank_replacement hvisible d (by simp [hreplacement])
  rw [hreplacement, ← List.append_assoc] at htokens
  obtain ⟨front, last, piece, rfl, hspells⟩ := exists_spelled_last htokens hd
  refine ⟨front, last, rfl, fun symbol hbound htoken => ?_⟩
  rw [htoken] at hspells
  rw [eq_char_of_spells hspells] at hreplacement
  exact (sign_of_replacement hreplacement hbound).elim (by simp [other]) free

/-- The token in front of an operand is found where its last character is. -/
theorem unbound_of_text (flat : ∀ c ∈ before, isParenthesis c = false)
    (unbound : ∀ c ∈ characterBefore? before, c ∉ factorSigns)
    (htokens : tokensFrom position (expandAll before) = .ok tokens) :
    ∀ token ∈ tokenBefore? tokens, token ∉ factorTokens := by
  induction before using List.reverseRecOn generalizing tokens with
  | nil =>
      rw [expandAll_nil, tokensFrom_nil] at htokens
      obtain rfl := Except.ok.inj htokens
      exact nofun
  | append_singleton before c ih =>
      obtain ⟨hbefore, hlast⟩ := List.forall_mem_append.mp flat
      have hc : c ≠ ')' := fun heq => closing_notMem_flat hlast (heq ▸ List.mem_cons_self)
      rw [expandAll_concat, markBehind_eq_nil hc, List.nil_append] at htokens
      rw [characterBefore?_concat] at unbound
      cases hpassed : isPassed c with
      | true =>
          rw [if_pos hpassed] at unbound
          -- Nothing or a sign is read of this character, so what counts is in front of it.
          rw [replacement_of_notMem_keys (notMem_keys_of_isPassed hpassed)] at htokens
          rw [(edge_passed hpassed htokens).tokensFrom_append] at htokens
          obtain ⟨front, hfront, htokens⟩ := bind_eq_ok.mp htokens
          obtain ⟨signs, hsigns, htokens⟩ := bind_eq_ok.mp htokens
          obtain rfl := Except.ok.inj htokens
          rw [tokenBefore?_append, tokenBefore?_signs (signs_of_isPassed hpassed hsigns),
            Option.none_or]
          exact ih hbefore unbound hfront
      | false =>
          rw [if_neg (by simp [hpassed])] at unbound
          obtain ⟨front, last, rfl, hfree⟩ := exists_free_last hpassed (unbound c rfl) htokens
          exact unbound_of_last hfree

theorem eq_caret_of_replacement (h : '^' ∈ replacement c) : c = '^' := by
  by_cases hkey : c ∈ keys
  · rcases eq_of_mem_keys hkey with rfl | rfl | rfl | rfl | rfl <;> exact absurd h (by decide)
  · rw [replacement_of_notMem_keys hkey] at h
    exact (List.mem_singleton.mp h).symm

/-- A power is read behind a text only if its sign is the next one there. -/
theorem unraised_of_text (flat : ∀ c ∈ behind, isParenthesis c = false)
    (unraised : (trimStart behind).head? ≠ some '^')
    (htokens : tokensFrom position (expandAll behind) = .ok tokens) :
    ∀ placed ∈ tokens.head?, placed.token ≠ .symbol .caret := by
  induction behind generalizing position with
  | nil =>
      rw [expandAll_nil, tokensFrom_nil] at htokens
      obtain rfl := Except.ok.inj htokens
      exact nofun
  | cons c behind ih =>
      have hbehind := (List.forall_mem_cons.mp flat).2
      have hc : c ≠ ')' := fun heq => closing_notMem_flat flat (heq ▸ List.mem_cons_self)
      rw [← List.singleton_append, expandAll_append_unclosed _ (closing_notMem_flat hbehind),
        expandAll_singleton hc] at htokens
      cases hblank : isBlank c with
      | true =>
          have hpassed : isPassed c = true := by simp [isPassed, hblank]
          rw [replacement_of_notMem_keys (notMem_keys_of_isPassed hpassed), List.singleton_append,
            tokensFrom_blank hblank] at htokens
          rw [trimStart, List.dropWhile_cons_of_pos hblank] at unraised
          exact ih hbehind unraised htokens
      | false =>
          obtain ⟨d, rest, hreplacement⟩ :=
            List.exists_cons_of_ne_nil (Substitution.replacement_ne_nil c)
          have hd := isBlank_replacement hblank d (by simp [hreplacement])
          rw [hreplacement, List.cons_append] at htokens
          obtain ⟨token, more, piece, rfl, hspells⟩ := exists_spelled_first htokens hd
          rintro placed ⟨⟩ hcaret
          obtain rfl : token = .symbol .caret := hcaret
          have hpiece : d :: piece = [Symbol.caret.char] := hspells.inPattern
          obtain rfl : d = '^' := (List.cons.inj hpiece).1
          obtain rfl : c = '^' :=
            eq_caret_of_replacement (hreplacement ▸ List.mem_cons_self)
          rw [trimStart, List.dropWhile_cons_of_neg (by simp [hblank])] at unraised
          exact unraised rfl

end Surroundings

section Values

variable {arithmetic : Arithmetic} {registers : Registers} {text : String}
  {before behind number : List Char} {numeral : Numeral} {position : Nat}
  {tokens front back : List PlacedToken} {value value' : Float}

theorem tokenBefore?_unplaced : tokenBefore? (unplaced tokens) = tokenBefore? tokens := by
  rw [tokenBefore?, unplaced, ← List.map_reverse, List.find?_map, Option.map_map]
  rfl

theorem parentheses_unplaced (flat : ∀ c ∈ before, isParenthesis c = false)
    (h : tokensFrom position (expandAll before) = .ok front) :
    parentheses (unplaced front) = [] := by
  rw [unplaced, Trigonometry.parentheses_relocate, ← parentheses_of_tokensFrom h, filter_expandAll,
    filter_isParenthesis_eq_nil flat]

theorem loose_of_alone {place : Nat} (flatBefore : ∀ c ∈ before, isParenthesis c = false)
    (flatBehind : ∀ c ∈ behind, isParenthesis c = false) (alone : Alone before behind)
    (hfront : tokensFrom position (expandAll before) = .ok front)
    (hback : tokensFrom place (expandAll behind) = .ok back)
    (apart : ∀ placed ∈ (unplaced front).getLast?, ¬ placed.token.IsOperand) :
    Loose (unplaced front) (unplaced back) where
  flatFront := parentheses_unplaced flatBefore hfront
  flatBehind := parentheses_unplaced flatBehind hback
  apart := apart
  unbound := by
    rw [tokenBefore?_unplaced]
    exact unbound_of_text flatBefore alone.unbound hfront
  unraised placed hhead := by
    rw [unplaced, List.head?_map, Option.mem_map] at hhead
    obtain ⟨next, hnext, rfl⟩ := hhead
    exact unraised_of_text flatBehind alone.unraised hback next hnext

/-- The tokens of a text that has a value derive it wherever they stand. -/
theorem derives_unplaced (h : evaluate arithmetic registers text = .ok value)
    (htokens : tokensFrom 0 (expandAll text.toList) = .ok tokens) :
    ∃ node nesting, Derives .expression (unplaced tokens) node nesting ∧ nesting ≤ depthLimit ∧
      node.height ≤ heightLimit ∧ node.evaluate arithmetic registers = .ok value := by
  obtain ⟨same, node, nesting, hsame, derives, hnesting, hheight, hvalue⟩ := derives_of_evaluate h
  obtain rfl := Except.ok.inj (htokens.symm.trans hsame)
  refine ⟨_, nesting, derives.relocate _, hnesting, ?_, ?_⟩
  · rwa [Expression.height_relocate]
  · exact Relocation.evaluate_relocate_eq_ok.mpr hvalue

theorem names_of_flat_text (flat : ∀ c ∈ text.toList, isParenthesis c = false)
    (h : evaluate arithmetic registers text = .ok value)
    (htokens : tokensFrom 0 (expandAll text.toList) = .ok tokens) :
    ∀ placed ∈ tokens, IsPlain placed.token := by
  obtain ⟨same, node, nesting, hsame, derives, -, -, hvalue⟩ := derives_of_evaluate h
  obtain rfl := Except.ok.inj (htokens.symm.trans hsame)
  refine derives.names_are_plain ?_ hvalue
  rw [← parentheses_of_tokensFrom htokens, filter_expandAll, filter_isParenthesis_eq_nil flat]

section Both

variable (h : numeral.WellFormed) (flat : ∀ c ∈ before ++ behind, isParenthesis c = false)
  (hvalue : evaluate arithmetic registers (withPercent before numeral.text behind) = .ok value)
  (hvalue' : evaluate arithmetic registers (withQuotient before numeral.text behind) = .ok value')
include h flat hvalue hvalue'

theorem edge_before :
    Edge (expandAll before) (numeral.text ++ '/' :: (hundred.text ++ expandAll behind)) := by
  obtain ⟨flatBefore, flatBehind⟩ := List.forall_mem_append.mp flat
  have hflat : ∀ c ∈ (withPercent before numeral.text behind).toList, isParenthesis c = false := by
    rw [withPercent, String.toList_ofList]
    refine List.forall_mem_append.mpr ⟨flatBefore, List.forall_mem_append.mpr ⟨?_, ?_⟩⟩
    · exact fun c hc => isParenthesis_of_isPlain (isPlain_of_text h c hc)
    · exact List.forall_mem_cons.mpr ⟨by decide, flatBehind⟩
  obtain ⟨tokens, -, -, htokens, -⟩ := derives_of_evaluate hvalue
  obtain ⟨tokens', node', nesting', htokens', derives', -⟩ := derives_of_evaluate hvalue'
  have names := names_of_flat_text hflat hvalue htokens
  obtain ⟨other, hother⟩ :=
    expandAll_before_opening before (numeral.text ++ '/' :: (hundred.text ++ ')' :: behind))
  rw [expandAll_withPercent h flatBehind] at htokens
  rw [withQuotient, String.toList_ofList, hother] at htokens'
  exact edge_number h htokens names htokens' derives'

/-- Both texts are the same tokens around the quotient, which has its parentheses in the one. -/
theorem tokens_of_both : ∃ front back tokens tokens' place,
    tokensFrom 0 (expandAll before) = .ok front ∧ tokensFrom place (expandAll behind) = .ok back ∧
    tokensFrom 0 (expandAll (withPercent before numeral.text behind).toList) = .ok tokens ∧
    unplaced tokens = unplaced front ++
      (quotientTokens numeral.value hundred.value ++ unplaced back) ∧
    tokensFrom 0 (expandAll (withQuotient before numeral.text behind).toList) = .ok tokens' ∧
    unplaced tokens' = unplaced front ++
      (groupTokens numeral.value hundred.value ++ unplaced back) := by
  obtain ⟨-, flatBehind⟩ := List.forall_mem_append.mp flat
  have start := edge_before h flat hvalue hvalue'
  obtain ⟨tokens, node, nesting, htokens, derives, -⟩ := derives_of_evaluate hvalue
  obtain ⟨tokens', -, -, htokens', -⟩ := derives_of_evaluate hvalue'
  have hread := htokens
  rw [expandAll_withPercent h flatBehind] at hread
  have hread' := htokens'
  rw [expandAll_withQuotient h flatBehind
    fun init c => not_part_before h start hread derives] at hread'
  obtain ⟨front, back, place, hfront, hback, hgroup⟩ := tokens_withQuotient h hread'
  obtain ⟨_, _, derives', -⟩ := derives_unplaced hvalue' htokens'
  have stop := edge_hundred hback (hgroup ▸ derives')
  obtain ⟨front', back', place', hfront', hback', hquotient⟩ :=
    tokens_withPercent h start stop hread
  obtain rfl := Except.ok.inj (hfront.symm.trans hfront')
  rw [unplaced_of_tokensFrom hback' hback] at hquotient
  exact ⟨front, back, tokens, tokens', place, hfront, hback, htokens, hquotient, htokens', hgroup⟩

/-- The division of a percent is that of its number, if this is alone between the two texts. -/
theorem value_of_alone (divides : DividesOpposites arithmetic hundred.value)
    (alone : Alone before behind) : value = value' := by
  obtain ⟨flatBefore, flatBehind⟩ := List.forall_mem_append.mp flat
  obtain ⟨front, back, tokens, tokens', place, hfront, hback, htokens, hquotient, htokens',
    hgroup⟩ := tokens_of_both h flat hvalue hvalue'
  obtain ⟨node, nesting, derives, hnesting, hheight, hnode⟩ := derives_unplaced hvalue htokens
  obtain ⟨node', nesting', derives', -, -, hnode'⟩ := derives_unplaced hvalue' htokens'
  have apart : ∀ placed ∈ (unplaced front).getLast?, ¬ placed.token.IsOperand := by
    intro placed hlast hoperand
    obtain ⟨init, hinit⟩ := List.getLast?_eq_some_iff.mp hlast
    rw [hquotient, hinit, List.append_assoc] at derives
    have hmark := derives.mayFollow hoperand trivial
    simp at hmark
  have loose := loose_of_alone flatBefore flatBehind alone hfront hback apart
  obtain ⟨same, depth, hsame, agree⟩ := derives'.ungroup registers divides hgroup loose
  rw [← hquotient] at hsame
  obtain rfl := node_eq_of_limits derives hnesting hheight hsame
  exact (agree value' value hnode' hnode).symm

end Both

end Values

/-- Percents divide the number in front of them. In a text without parentheses, a number with a
percent can be replaced by its quotient in parentheses, unless one of `*`, `/`, `^`, `×` and `÷`
stands in front of the number and its signs, or a `^` behind the percent. -/
theorem percent_divides_its_number (registers : Registers) (before number behind : List Char)
    (value value' : Float) (numeral : number ∈ Pattern.number)
    (flat : ∀ c ∈ before ++ behind, isParenthesis c = false) (alone : Alone before behind)
    (h : evaluate .binary64 registers (withPercent before number behind) = .ok value)
    (h' : evaluate .binary64 registers (withQuotient before number behind) = .ok value') :
    value = value' := by
  obtain ⟨numeral, hwell, rfl⟩ := Pattern.mem_number.mp numeral
  have divides : DividesOpposites .binary64 hundred.value :=
    fun x finite => Magnitude.neg_div finite hundred.value
  exact value_of_alone hwell flat h h' divides alone

theorem percent_of_a_signed_factor :
    evaluate .binary64 {} (withPercent "3+-".toList "10".toList "*2".toList) = .ok 2.8 ∧
      evaluate .binary64 {} (withQuotient "3+-".toList "10".toList "*2".toList) = .ok 2.8 ∧
      (2.8 : Float) = 2.8 := by
  have numeral : "10".toList ∈ Pattern.number :=
    Pattern.mem_number.mpr ⟨⟨['1', '0'], none, none⟩,
      wellFormed_digits (List.all_eq_true.mp (by decide)) (by decide), text_digits⟩
  have flat : ∀ c ∈ "3+-".toList ++ "*2".toList, isParenthesis c = false := by
    simp [isParenthesis]
  have hbefore : characterBefore? "3+-".toList = some '3' := by decide
  have alone : Alone "3+-".toList "*2".toList := by
    refine ⟨?_, by decide⟩
    rw [hbefore]
    rintro c ⟨⟩
    decide
  have h : evaluate .binary64 {} (withPercent "3+-".toList "10".toList "*2".toList) = .ok 2.8 := by
    decide +kernel
  have h' : evaluate .binary64 {} (withQuotient "3+-".toList "10".toList "*2".toList) =
      .ok 2.8 := by
    decide +kernel
  exact ⟨h, h', percent_divides_its_number {} _ _ _ _ _ numeral flat alone h h'⟩

/-- The division takes the dividend in front of the number with it. -/
theorem percent_of_a_divisor :
    withPercent "100/".toList "50".toList [] = "100/50%" ∧
      withQuotient "100/".toList "50".toList [] = "100/(50/100)" ∧
      evaluate .binary64 {} "100/50%" = .ok 0.02 ∧
      evaluate .binary64 {} "100/(50/100)" = .ok 200 := by
  decide +kernel

end Percent
end Calculator
