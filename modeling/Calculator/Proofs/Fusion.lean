import Calculator.Proofs.Grammar.Operands
import Calculator.Proofs.Substitution

/-!
Symbols that fuse.

A symbol that fuses has a letter, a digit or a point next to it. With a blank between them these
belong to two operands in a row, and no expression has them. So a text where a symbol fuses has no
value with the blanks, and if it has one without them the symbol is read as something else.
-/

namespace Calculator

section Ends

variable {text : List Char} {c : Char} {position : Nat} {tokens : List PlacedToken}

theorem Spells.isOperand {piece : List Char} {token : Token} (h : Spells piece token)
    (hc : c ∈ piece) (part : isNamePart c = true ∨ c = '.') : token.IsOperand := by
  cases token with
  | number | identifier => trivial
  | blank => exact h.means
  | symbol sign =>
      obtain rfl : c = sign.char := by
        have hpiece : piece = [sign.char] := h.inPattern
        simpa [hpiece] using hc
      cases sign <;> simp [Symbol.char, isNamePart] at part

theorem isBlank_of_part (part : isNamePart c = true ∨ c = '.') : isBlank c = false := by
  rcases part with part | rfl
  · exact isBlank_of_isNamePart part
  · decide

/-- The first token of a text that does not begin with a blank. -/
theorem exists_spelled_first (h : tokensFrom position (c :: text) = .ok tokens)
    (visible : isBlank c = false) :
    ∃ token more piece, tokens = ⟨position, token⟩ :: more ∧ Spells (c :: piece) token := by
  generalize htext : c :: text = whole at h
  cases munches_of_tokensFrom h with
  | stop => simp at htext
  | blank hblank =>
      obtain ⟨rfl, -⟩ := List.cons.inj htext
      simp [visible] at hblank
  | @lexeme _ piece rest _ token more longest =>
      obtain ⟨d, tail, rfl⟩ := longest.spells.eq_cons
      obtain ⟨rfl, -⟩ := List.cons.inj htext
      exact ⟨token, more, tail, rfl, longest.spells⟩

/-- The first token of a text that begins like an operand. -/
theorem exists_first (h : tokensFrom position (c :: text) = .ok tokens)
    (part : isNamePart c = true ∨ c = '.') :
    ∃ token more, tokens = ⟨position, token⟩ :: more ∧ token.IsOperand ∧
      ∀ name, token = .identifier name → name.toList.head? = some c := by
  obtain ⟨token, more, piece, rfl, hspells⟩ := exists_spelled_first h (isBlank_of_part part)
  refine ⟨token, more, rfl, hspells.isOperand List.mem_cons_self part, ?_⟩
  rintro name rfl
  have hname : name = String.ofList (c :: piece) := hspells.means
  rw [hname, String.toList_ofList]
  rfl

/-- The last token of a text that does not end in a blank. -/
theorem exists_spelled_last (h : tokensFrom position (text ++ [c]) = .ok tokens)
    (visible : isBlank c = false) :
    ∃ before last piece, tokens = before ++ [last] ∧ Spells (piece ++ [c]) last.token := by
  generalize hwhole : text ++ [c] = whole at h
  replace h := munches_of_tokensFrom h
  generalize hleft : ([] : List Char) = left at h
  induction h generalizing text with
  | stop =>
      subst hleft
      simp at hwhole
  | @blank position d rest left tokens hblank _ ih =>
      cases text with
      | nil =>
          obtain ⟨rfl, -⟩ := List.cons.inj hwhole
          simp [visible] at hblank
      | cons _ text => exact ih (List.cons.inj hwhole).2 hleft
  | @lexeme position piece rest left token tokens longest more ih =>
      subst hleft
      rcases List.eq_nil_or_concat rest with rfl | ⟨front, last, rfl⟩
      · have hnone := tokensFrom_eq_ok_iff_munches.mpr more
        rw [tokensFrom_nil] at hnone
        obtain rfl := Except.ok.inj hnone
        rw [List.append_nil] at hwhole
        exact ⟨[], _, text, rfl, hwhole ▸ longest.spells⟩
      · rw [List.concat_eq_append, ← List.append_assoc] at hwhole
        obtain ⟨-, hlast⟩ := List.append_inj' hwhole rfl
        obtain ⟨before, last, piece, rfl, hspells⟩ := ih (by rw [hlast, List.concat_eq_append]) rfl
        exact ⟨_ :: before, last, piece, rfl, hspells⟩

/-- The last token of a text that ends like an operand. -/
theorem exists_last (h : tokensFrom position (text ++ [c]) = .ok tokens)
    (part : isNamePart c = true ∨ c = '.') :
    ∃ before last, tokens = before ++ [last] ∧ last.token.IsOperand := by
  obtain ⟨before, last, piece, rfl, hspells⟩ := exists_spelled_last h (isBlank_of_part part)
  exact ⟨before, last, rfl,
    hspells.isOperand (List.mem_append_right piece List.mem_cons_self) part⟩

/-- The first token of a text that begins with a letter. -/
theorem exists_name (h : tokensFrom position (c :: text) = .ok tokens)
    (start : isNameStart c = true) :
    ∃ more, tokens =
      ⟨position, .identifier (String.ofList (c :: text.takeWhile isNamePart))⟩ :: more := by
  have hparts : ∀ d ∈ text.takeWhile isNamePart, isNamePart d = true :=
    fun _ => List.mem_takeWhile_imp
  have hstop : ∀ d ∈ (text.dropWhile isNamePart).head?, isNamePart d = false :=
    stops_of_dropWhile (List.append_nil _).symm
  rw [← List.takeWhile_append_dropWhile (p := isNamePart) (l := text),
    tokensFrom_identifier start hparts hstop] at h
  obtain ⟨more, -, h⟩ := Grammar.bind_eq_ok.mp h
  obtain rfl := Except.ok.inj h
  exact ⟨more, rfl⟩

end Ends

namespace Substitution

open Shorthand

section Sides

variable {text before behind front : List Char} {c d : Char} {position : Nat}
  {tokens : List PlacedToken}

theorem last_of_reaches {piece : List Char} (h : Reaches text piece) (hne : piece ≠ [])
    (parts : ∀ c ∈ piece, isNamePart c = true ∨ c = '.') :
    ∃ front d, text = front ++ [d] ∧ (isNamePart d = true ∨ d = '.') := by
  obtain ⟨front, rfl⟩ := h.suffix
  obtain ⟨init, d, rfl⟩ := (List.eq_nil_or_concat piece).resolve_left hne
  rw [List.concat_eq_append] at parts ⊢
  exact ⟨front ++ init, d, (List.append_assoc ..).symm,
    parts d (List.mem_append_right _ List.mem_cons_self)⟩

theorem last_of_name (h : EndsInName text) :
    ∃ front d, text = front ++ [d] ∧ (isNamePart d = true ∨ d = '.') := by
  obtain ⟨name, hname, hreaches⟩ := h
  obtain ⟨c, word, start, parts, rfl⟩ := Pattern.mem_name.mp hname
  exact last_of_reaches hreaches (List.cons_ne_nil c word)
    fun d hd => .inl (Lexeme.isNamePart_of_name start parts d hd)

theorem last_of_mantissa (h : EndsInMantissa text) :
    ∃ front d, text = front ++ [d] ∧ (isNamePart d = true ∨ d = '.') := by
  obtain ⟨numeral, hwell, hnone, hreaches⟩ := h
  refine last_of_reaches hreaches (spells_numeral hwell).ne_nil fun d hd => ?_
  rw [text_of_mantissa hnone] at hd
  exact (digit_or_point_of_mantissa hwell hd).imp_left isNamePart_of_isDigit

theorem replacement_ne_nil (c : Char) : replacement c ≠ [] := by
  by_cases hc : c ∈ keys
  · rcases eq_of_mem_keys hc with rfl | rfl | rfl | rfl | rfl <;> decide
  · have hpercent : c ≠ '%' := fun heq => hc (heq ▸ by decide)
    rw [replacement, expandSymbols_of_notMem_keys hc]
    simp [expandPercents, percentDivision, hpercent]

/-- A symbol is expanded between blanks. -/
theorem expandBehind_symbol (hc : isSubstituted c = true) (before rest : List Char) :
    expandBehind before (' ' :: c :: ' ' :: rest) =
      ' ' :: (replacement c ++ ' ' :: expandBehind (before ++ [' ', c, ' ']) rest) := by
  have hblank : replacement ' ' = [' '] := by decide
  simp [expandBehind, markBehind_eq_nil, ne_closing hc, hblank]

theorem words_operand (position : Nat) (c : Char) :
    ∃ init last, words position c = init ++ [last] ∧ last.token.IsOperand := by
  simp only [words]
  split
  · exact ⟨[_], _, rfl, trivial⟩
  · split
    · exact ⟨[], _, rfl, trivial⟩
    · exact ⟨[], _, rfl, trivial⟩

/-- With the blanks, the text in front still ends in an operand. -/
theorem last_of_spaced (hlast : expandAll before = front ++ [d])
    (part : isNamePart d = true ∨ d = '.')
    (h : tokensFrom position (expandAll (spaced before)) = .ok tokens) :
    ∃ init last, tokens = init ++ [last] ∧ last.token.IsOperand := by
  rcases List.eq_nil_or_concat before with rfl | ⟨before, c, rfl⟩
  · rw [expandAll_nil] at hlast
    simp at hlast
  rw [List.concat_eq_append, spaced_append] at h
  by_cases hc : isSubstituted c = true
  · rw [spaced_symbol hc, expandAll_behind, expandBehind_symbol hc, expandBehind,
      tokensFrom_between hc] at h
    obtain ⟨first, -, h⟩ := Grammar.bind_eq_ok.mp h
    rw [tokensFrom_nil] at h
    obtain rfl := Except.ok.inj h
    obtain ⟨init, last, hwords, hoperand⟩ := words_operand (position + _ + 1) c
    refine ⟨first ++ init, last, ?_, hoperand⟩
    rw [List.append_nil, hwords, List.append_assoc]
  · obtain ⟨init, e, hreplacement⟩ :=
      (List.eq_nil_or_concat (replacement c)).resolve_left (replacement_ne_nil c)
    rw [List.concat_eq_append] at hlast hreplacement
    rw [expandAll_concat, hreplacement, ← List.append_assoc, ← List.append_assoc] at hlast
    obtain ⟨-, heq⟩ := List.append_inj' hlast rfl
    obtain rfl : e = d := List.cons.inj heq |>.1
    rw [spaced_other (by simpa using hc), expandAll_concat, hreplacement, ← List.append_assoc,
      ← List.append_assoc] at h
    exact exists_last h part

/-- With the blanks, the text behind still begins with an operand. -/
theorem first_of_spaced {other rest : List Char} (hfirst : expandBehind before behind = d :: rest)
    (part : isNamePart d = true ∨ d = '.')
    (h : tokensFrom position (expandBehind other (spaced behind)) = .ok tokens) :
    ∃ first more, tokens = first :: more ∧ first.token.IsOperand ∧
      ∀ name, first.token = .identifier name → name.toList.head? = some d := by
  cases behind with
  | nil => simp [expandBehind] at hfirst
  | cons c behind =>
      have hclosing : c ≠ ')' := by
        rintro rfl
        have hsymbol : replacement ')' = [')'] := by decide
        rw [expandBehind, markBehind, hsymbol] at hfirst
        split at hfirst
        · obtain ⟨rfl, -⟩ := List.cons.inj hfirst
          simp [isNamePart] at part
        · obtain ⟨rfl, -⟩ := List.cons.inj hfirst
          simp [isNamePart] at part
      obtain ⟨e, tail, hreplacement⟩ := List.exists_cons_of_ne_nil (replacement_ne_nil c)
      rw [expandBehind, markBehind_eq_nil hclosing, hreplacement] at hfirst
      obtain rfl : e = d := (List.cons.inj hfirst).1
      rw [← List.singleton_append, spaced_append] at h
      by_cases hc : isSubstituted c = true
      · rw [spaced_symbol hc, List.cons_append, List.cons_append, List.cons_append,
          expandBehind_symbol hc, tokensFrom_blank (by decide), hreplacement] at h
        obtain ⟨token, more, rfl, hoperand⟩ := exists_first h part
        exact ⟨_, more, rfl, hoperand⟩
      · rw [spaced_other (by simpa using hc), List.singleton_append, expandBehind,
          markBehind_eq_nil hclosing, hreplacement] at h
        obtain ⟨token, more, rfl, hoperand⟩ := exists_first h part
        exact ⟨_, more, rfl, hoperand⟩

end Sides

section Values

variable {arithmetic : Arithmetic} {registers : Registers} {text : String} {value value' : Float}

theorem tokens_between {before behind : List Char} {c : Char} {tokens : List PlacedToken}
    (hc : isSubstituted c = true)
    (h : tokensFrom 0 (expandAll (spaced (before ++ c :: behind))) = .ok tokens) :
    ∃ first last place place', tokensFrom 0 (expandAll (spaced before)) = .ok first ∧
      tokensFrom place' (expandBehind (spaced before ++ [' ', c, ' ']) (spaced behind)) = .ok last ∧
      tokens = first ++ (words place c ++ last) := by
  rw [← List.singleton_append, spaced_append, spaced_append, spaced_symbol hc, expandAll_behind,
    List.cons_append, List.cons_append, List.cons_append, List.nil_append,
    expandBehind_symbol hc, tokensFrom_between hc] at h
  obtain ⟨first, hfirst, h⟩ := Grammar.bind_eq_ok.mp h
  obtain ⟨last, hlast, h⟩ := Grammar.bind_eq_ok.mp h
  obtain rfl := Except.ok.inj h
  exact ⟨first, last, _, _, hfirst, hlast, rfl⟩

section Adjacent

variable {first last : List PlacedToken} {place : Nat} {c : Char} {node : Expression}
  {nesting : Nat}

/-- No operand stands in front of the name of a constant. -/
theorem not_operand_before (constant : c = 'π' ∨ c = 'ℯ')
    (derives : Grammar.Derives .expression (first ++ (words place c ++ last)) node nesting)
    {init : List PlacedToken} {operand : PlacedToken} (hfirst : first = init ++ [operand]) :
    ¬ operand.token.IsOperand := by
  intro hoperand
  obtain ⟨name, hwords, hname⟩ : ∃ name, words place c = [⟨place, .identifier name⟩] ∧
      name ≠ Expression.degreeName := by
    rcases constant with rfl | rfl
    · exact ⟨"pi", rfl, by decide⟩
    · exact ⟨"e", rfl, by decide⟩
  rw [hfirst, hwords, List.append_assoc, List.singleton_append, List.singleton_append] at derives
  have hmark := derives.mayFollow hoperand trivial
  exact hname (Token.identifier.inj hmark)

/-- Behind a symbol no operand stands but the degree mark. -/
theorem mark_behind (derives : Grammar.Derives .expression (first ++ (words place c ++ last)) node
      nesting)
    {operand : PlacedToken} {more : List PlacedToken} (hlast : last = operand :: more)
    (hoperand : operand.token.IsOperand) :
    operand.token = .identifier Expression.degreeName := by
  obtain ⟨init, word, hwords, hword⟩ := words_operand place c
  rw [hlast, hwords, List.append_assoc, List.singleton_append, ← List.append_assoc] at derives
  exact derives.mayFollow hword hoperand

/-- With the blanks the text in front of a constant must not end in an operand. -/
theorem not_ends_before {before : List Char} {position : Nat}
    (constant : c = 'π' ∨ c = 'ℯ')
    (hfirst : tokensFrom position (expandAll (spaced before)) = .ok first)
    (derives : Grammar.Derives .expression (first ++ (words place c ++ last)) node nesting) :
    ¬ EndsInName (expandAll before) ∧ ¬ EndsInMantissa (expandAll before) := by
  have hnot : ∀ front d, expandAll before = front ++ [d] → ¬ (isNamePart d = true ∨ d = '.') := by
    intro front d hend part
    obtain ⟨init, operand, hfirst, hoperand⟩ := last_of_spaced hend part hfirst
    exact not_operand_before constant derives hfirst hoperand
  constructor
  · intro hname
    obtain ⟨front, d, hend, part⟩ := last_of_name hname
    exact hnot front d hend part
  · intro hmantissa
    obtain ⟨front, d, hend, part⟩ := last_of_mantissa hmantissa
    exact hnot front d hend part

/-- With the blanks the text behind a symbol begins with an operand only if it begins like the
degree mark. -/
theorem eq_mark_of_begins {before other behind rest : List Char} {d : Char} {position : Nat}
    (hlast : tokensFrom position (expandBehind other (spaced behind)) = .ok last)
    (derives : Grammar.Derives .expression (first ++ (words place c ++ last)) node nesting)
    (hbegin : expandBehind before behind = d :: rest) (part : isNamePart d = true ∨ d = '.') :
    d = 'd' := by
  obtain ⟨operand, more, hlast, hoperand, hname⟩ := first_of_spaced hbegin part hlast
  have hhead := hname _ (mark_behind derives hlast hoperand)
  have hmark : Expression.degreeName.toList.head? = some 'd' := by decide
  exact Option.some.inj (hhead.symm.trans hmark)

end Adjacent

/-- If what fuses with the name of a constant begins like the degree mark, the whole is no known
name. -/
theorem not_known {rest : List Char} {position : Nat} {tokens : List PlacedToken} {c : Char}
    (constant : c = 'π' ∨ c = 'ℯ')
    (h : tokensFrom position (replacement c ++ 'd' :: rest) = .ok tokens) :
    ∃ placed ∈ tokens, ¬ Grammar.IsKnown placed.token := by
  have hunknown : ∀ name ∈ Grammar.knownNames, ¬ ['p', 'i', 'd'] <+: name.toList ∧
      ¬ ['e', 'd'] <+: name.toList := by decide +kernel
  rcases constant with rfl | rfl
  · rw [replacement_pi] at h
    obtain ⟨more, rfl⟩ := exists_name h (by decide)
    refine ⟨_, List.mem_cons_self, fun hknown => (hunknown _ hknown).1 ?_⟩
    simp [isNamePart]
  · rw [replacement_e] at h
    obtain ⟨more, rfl⟩ := exists_name h (by decide)
    refine ⟨_, List.mem_cons_self, fun hknown => (hunknown _ hknown).2 ?_⟩
    simp [isNamePart]

/-- The name of a constant continues only a name or a number. -/
theorem ends_of_continued {before rest : List Char} {c : Char} (constant : c = 'π' ∨ c = 'ℯ')
    (h : Continued before (replacement c ++ rest)) : EndsInName before ∨ EndsInMantissa before := by
  rcases constant with rfl | rfl
  · rw [replacement_pi] at h
    exact ((continued_letter_iff (by decide)).mp h).imp_right And.left
  · rw [replacement_e] at h
    exact ((continued_letter_iff (by decide)).mp h).imp_right And.left

/-- A text that has a value with the blanks and without them has no symbol that fuses. -/
theorem noneFused_of_evaluate (hvalue : evaluate arithmetic registers text = .ok value)
    (hspaced : evaluate arithmetic registers (String.ofList (spaced text.toList)) = .ok value') :
    NoneFused text.toList := by
  intro before c behind htext hc fused
  obtain ⟨tokens, node, nesting, htokens, derives, -, -, hnode⟩ := derives_of_evaluate hvalue
  obtain ⟨tokens', node', nesting', htokens', derives', -⟩ := derives_of_evaluate hspaced
  rw [htext, expandAll_split before (ne_closing hc)] at htokens
  rw [String.toList_ofList, htext] at htokens'
  obtain ⟨first, last, place, place', hfirst, hlast, rfl⟩ := tokens_between hc htokens'
  have hbefore (constant : c = 'π' ∨ c = 'ℯ') := not_ends_before constant hfirst derives'
  have hbehind : ∀ d rest, expandBehind (before ++ [c]) behind = d :: rest →
      isNamePart d = true ∨ d = '.' → d = 'd' := fun _ _ => eq_mark_of_begins hlast derives'
  cases fused with
  | nameBefore constant name => exact (hbefore constant).1 name
  | mark mantissa => exact (hbefore (.inr rfl)).2 mantissa
  | nameBehind constant head part =>
      obtain ⟨rest, hbegin⟩ := List.head?_eq_some_iff.mp head
      obtain rfl := hbehind _ rest hbegin (.inl part)
      rw [hbegin] at htokens
      by_cases hedge : Edge (expandAll before) (replacement c ++ 'd' :: rest)
      · rw [hedge.tokensFrom_append] at htokens
        obtain ⟨front, -, htokens⟩ := Grammar.bind_eq_ok.mp htokens
        obtain ⟨back, hback, htokens⟩ := Grammar.bind_eq_ok.mp htokens
        obtain rfl := Except.ok.inj htokens
        obtain ⟨placed, hplaced, hunknown⟩ := not_known constant hback
        exact hunknown (derives.isKnown hnode placed (List.mem_append_right _ hplaced))
      · rw [edge_iff_not_continued htokens, not_not] at hedge
        exact (ends_of_continued constant hedge).elim (hbefore constant).1 (hbefore constant).2
  | digit head continues =>
      obtain ⟨rest, hbegin⟩ := List.head?_eq_some_iff.mp head
      obtain rfl := hbehind _ rest hbegin (continues.imp_left isNamePart_of_isDigit)
      simp at continues
  | power power =>
      obtain ⟨_, hpower, rest, hbegin⟩ := power
      obtain ⟨power, hwell, rfl⟩ := (Pattern.mem_power _).mp hpower
      have hmark := hwell.mark
      have hpart : isNamePart power.mark = true := by
        rcases hmark with hmark | hmark <;> rw [hmark] <;> decide
      have hd := hbehind _ _ hbegin.symm (.inl hpart)
      simp [hd] at hmark

end Values

/-- Where the expanded text has tokens, the text in the place of a symbol gives tokens of its own
unless it fuses in one of the five ways. With blanks around all symbols a text that has a value
keeps it if no symbol fuses, and has none if one does. -/
theorem isolated_unless_fused (text : String) :
    (∀ tokens before c behind, tokenize (expand text) = .ok tokens →
      text.toList = before ++ c :: behind → isSubstituted c = true →
        (Isolated before c behind ↔ ¬ FusedAt before c behind) ∧
        (Isolated before c behind → ∃ first last,
          tokens = first ++ words (byteCount (expandAll before)) c ++ last)) ∧
    ∀ arithmetic registers value, evaluate arithmetic registers text = .ok value →
      ∀ value', evaluate arithmetic registers (String.ofList (spaced text.toList)) = .ok value' ↔
        NoneFused text.toList ∧ value' = value := by
  refine ⟨fun tokens before c behind htokens htext hc => ?_,
    fun arithmetic registers value hvalue value' => ⟨fun hspaced => ?_, ?_⟩⟩
  · rw [tokenize, expand, String.toList_ofList, htext] at htokens
    refine ⟨isolated_iff hc htokens, fun isolated => ?_⟩
    obtain ⟨first, last, -, -, htokens⟩ := isolated.tokens_eq hc htokens
    exact ⟨first, last, htokens⟩
  · have apart := noneFused_of_evaluate hvalue hspaced
    exact ⟨apart, Except.ok.inj (hspaced.symm.trans (evaluate_spaced apart hvalue))⟩
  · rintro ⟨apart, rfl⟩
    exact evaluate_spaced apart hvalue

theorem percent_of_pi_is_isolated :
    Isolated [] 'π' ['%'] ∧ NoneFused "π%".toList ∧
      evaluate .binary64 {} "π%" = .ok 0.031415926535897934 ∧
      String.ofList (spaced "π%".toList) = " π  % " ∧
      evaluate .binary64 {} " π  % " = .ok 0.031415926535897934 := by
  have htokens : tokenize (expand "π%") =
      .ok [⟨0, .identifier "pi"⟩, ⟨2, .symbol .slash⟩, ⟨3, .number 100⟩] := by decide +kernel
  have hvalue : evaluate .binary64 {} "π%" = .ok 0.031415926535897934 := by decide +kernel
  have hspaced : String.ofList (spaced "π%".toList) = " π  % " := by decide +kernel
  have hpi : ¬ FusedAt [] 'π' ['%'] := by
    have hbehind : expandBehind ['π'] ['%'] = ['/', '1', '0', '0'] := by decide +kernel
    have hbefore : expandAll [] = [] := by decide +kernel
    have hname : ¬ EndsInName [] := fun ⟨_, hname, hreaches⟩ =>
      (spells_name hname).ne_nil (List.suffix_nil.mp hreaches.suffix)
    rw [FusedAt, fuses_constant_iff (.inl rfl), List.nil_append, hbefore, hbehind]
    exact fun h => h.elim hname (by simp [isNamePart])
  have hpercent : ¬ FusedAt ['π'] '%' [] := by
    have hbehind : expandBehind (['π'] ++ ['%']) [] = [] := rfl
    rw [FusedAt, fuses_percent_iff, hbehind, beginsPower_iff]
    simp [PowerOfTen.scan?]
  have apart : NoneFused "π%".toList := by
    intro before c behind htext hc
    rw [show "π%".toList = ['π', '%'] by decide] at htext
    rcases before with _ | ⟨first, _ | ⟨second, before⟩⟩
    · obtain ⟨rfl, rfl⟩ := List.cons.inj htext
      exact hpi
    · obtain ⟨hfirst, htext⟩ := List.cons.inj htext
      obtain ⟨rfl, rfl⟩ := List.cons.inj htext
      exact hfirst ▸ hpercent
    · simp at htext
  obtain ⟨hisolated, hblanks⟩ := isolated_unless_fused "π%"
  have hpart := (hisolated _ [] 'π' ['%'] htokens (by decide) (by decide)).1.mpr hpi
  have hkept := (hblanks .binary64 {} _ hvalue 0.031415926535897934).mpr ⟨apart, rfl⟩
  exact ⟨hpart, apart, hvalue, hspaced, hspaced ▸ hkept⟩

/-- Next to digits the word for `ℯ` is taken for the mark of a power of ten. -/
theorem e_between_digits_is_a_power :
    tokenize (expand "2ℯ3") = .ok [⟨0, .number 2000⟩] ∧
      evaluate .binary64 {} "2ℯ3" = .ok 2000 ∧
      String.ofList (spaced "2ℯ3".toList) = "2 ℯ 3" ∧
      evaluate .binary64 {} "2 ℯ 3" =
        .error (.inSyntax (.trailingToken "e" 2)) := by
  decide +kernel

end Substitution
end Calculator
