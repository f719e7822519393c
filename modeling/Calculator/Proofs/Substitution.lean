import Calculator.Proofs.Calculation
import Calculator.Proofs.Shorthand.Spacing
import Calculator.Proofs.Token.Joint

/-!
Symbols next to numbers and names.

The text that takes the place of `π`, `ℯ` or `%` is read on its own unless it fuses with what stands
next to it, and there are five ways in which it does. In a text where none of them happens blanks
around these symbols change nothing.
-/

namespace Calculator
namespace Substitution

open Shorthand

/-- The text in the place of a symbol fuses with the text in front of it or with the one behind. -/
inductive Fuses (before behind : List Char) : Char → Prop
  | nameBefore {c : Char} (constant : c = 'π' ∨ c = 'ℯ') (name : EndsInName before) :
      Fuses before behind c
  | nameBehind {c d : Char} (constant : c = 'π' ∨ c = 'ℯ') (head : behind.head? = some d)
      (part : isNamePart d = true) : Fuses before behind c
  | mark (mantissa : EndsInMantissa before) (power : BeginsPower ('e' :: behind)) :
      Fuses before behind 'ℯ'
  | digit {d : Char} (head : behind.head? = some d) (continues : d.isDigit = true ∨ d = '.') :
      Fuses before behind '%'
  | power (power : BeginsPower behind) : Fuses before behind '%'

/-- The symbol between these texts fuses once they are expanded. -/
def FusedAt (before : List Char) (c : Char) (behind : List Char) : Prop :=
  Fuses (expandAll before) (expandBehind (before ++ [c]) behind) c

/-- No lexeme reaches over an edge of the text that takes the place of the symbol. -/
structure Isolated (before : List Char) (c : Char) (behind : List Char) : Prop where
  start : Edge (expandAll before) (replacement c ++ expandBehind (before ++ [c]) behind)
  stop : Edge (expandAll before ++ replacement c) (expandBehind (before ++ [c]) behind)

theorem eq_of_isSubstituted {c : Char} (h : isSubstituted c = true) :
    c = 'π' ∨ c = 'ℯ' ∨ c = '%' := by
  simpa [isSubstituted] using h

theorem ne_closing (hc : isSubstituted c = true) : c ≠ ')' := by
  rintro rfl
  simp [isSubstituted] at hc

theorem replacement_pi : replacement 'π' = ['p', 'i'] := by decide

theorem replacement_e : replacement 'ℯ' = ['e'] := by decide

theorem replacement_percent : replacement '%' = ['/', '1', '0', '0'] := by decide

section Exact

variable {before behind : List Char} {c : Char} {tokens : List PlacedToken}

theorem fuses_constant_iff (constant : c = 'π' ∨ c = 'ℯ') :
    Fuses before behind c ↔ EndsInName before ∨ (∃ d ∈ behind.head?, isNamePart d = true) ∨
      c = 'ℯ' ∧ EndsInMantissa before ∧ BeginsPower ('e' :: behind) := by
  constructor
  · intro h
    cases h with
    | nameBefore _ name => exact .inl name
    | nameBehind _ head part => exact .inr (.inl ⟨_, head, part⟩)
    | mark mantissa power => exact .inr (.inr ⟨rfl, mantissa, power⟩)
    | digit | power => simp at constant
  · rintro (name | ⟨d, head, part⟩ | ⟨rfl, mantissa, power⟩)
    · exact .nameBefore constant name
    · exact .nameBehind constant head part
    · exact .mark mantissa power

theorem fuses_percent_iff :
    Fuses before behind '%' ↔
      (∃ d ∈ behind.head?, d.isDigit = true ∨ d = '.') ∨ BeginsPower behind := by
  constructor
  · intro h
    cases h with
    | nameBefore constant | nameBehind constant => simp at constant
    | digit head continues => exact .inl ⟨_, head, continues⟩
    | power power => exact .inr power
  · rintro (⟨d, head, continues⟩ | power)
    · exact .digit head continues
    · exact .power power

theorem edge_pi : Edge ['p', 'i'] behind ↔ ∀ d ∈ behind.head?, isNamePart d = false :=
  edge_name_iff (Pattern.mem_name.mpr
    ⟨'p', ['i'], by decide, List.all_eq_true.mp (by decide), rfl⟩)

theorem edge_e : Edge ['e'] behind ↔ ∀ d ∈ behind.head?, isNamePart d = false :=
  edge_name_iff (Pattern.mem_name.mpr ⟨'e', [], by decide, nofun, rfl⟩)

theorem edge_percent : Edge ['/', '1', '0', '0'] behind ↔
    (∀ d ∈ behind.head?, d.isDigit = false ∧ d ≠ '.') ∧ ¬ BeginsPower behind := by
  have hslash : Edge ['/'] (['1', '0', '0'] ++ behind) := edge_symbol .slash _
  exact (hslash.behind_iff).trans
    (edge_digits_iff (List.all_eq_true.mp (by decide)) (List.cons_ne_nil _ _))

theorem not_beginsPower_pi : ¬ BeginsPower ('p' :: behind) := by
  simp [beginsPower_iff, PowerOfTen.scan?]

/-- Where the expanded text has tokens, the fusions are all there is to prevent that the text in the
place of the symbol is read on its own. -/
theorem isolated_iff (hc : isSubstituted c = true)
    (h : tokensFrom 0 (expandAll (before ++ c :: behind)) = .ok tokens) :
    Isolated before c behind ↔ ¬ FusedAt before c behind := by
  rw [expandAll_split before (ne_closing hc)] at h
  have hedge := edge_iff_not_continued h
  have hparts : Isolated before c behind ↔
      Edge (expandAll before) (replacement c ++ expandBehind (before ++ [c]) behind) ∧
        Edge (replacement c) (expandBehind (before ++ [c]) behind) := by
    constructor
    · exact fun isolated => ⟨isolated.start, isolated.start.behind_iff.mp isolated.stop⟩
    · exact fun ⟨start, stop⟩ => ⟨start, start.behind_iff.mpr stop⟩
  rw [hparts, hedge, FusedAt]
  generalize expandAll before = first
  generalize expandBehind (before ++ [c]) behind = rest
  rcases eq_of_isSubstituted hc with rfl | rfl | rfl
  · have hstart : Continued first (['p', 'i'] ++ rest) ↔ EndsInName first :=
      (continued_letter_iff (by decide)).trans (or_iff_left fun h => not_beginsPower_pi h.2)
    rw [fuses_constant_iff (.inl rfl), replacement_pi, hstart, edge_pi]
    simp
  · have hstart : Continued first (['e'] ++ rest) ↔
        EndsInName first ∨ EndsInMantissa first ∧ BeginsPower ('e' :: rest) :=
      continued_letter_iff (by decide)
    rw [fuses_constant_iff (.inr rfl), replacement_e, hstart, edge_e]
    simp only [not_or, not_exists, not_and, Bool.not_eq_true, forall_const]
    tauto
  · have hstart : ¬ Continued first (['/', '1', '0', '0'] ++ rest) :=
      not_continued (by decide) (by decide)
    rw [fuses_percent_iff, replacement_percent, edge_percent, and_iff_right hstart]
    simp

end Exact

section Tokens

variable {before behind : List Char} {c : Char} {tokens : List PlacedToken}

/-- The tokens of the text in the place of a symbol. -/
def words (position : Nat) (c : Char) : List PlacedToken :=
  if c = '%' then [⟨position, .symbol .slash⟩, ⟨position + 1, .number 100⟩]
  else if c = 'π' then [⟨position, .identifier "pi"⟩]
  else [⟨position, .identifier "e"⟩]

theorem tokensFrom_replacement (hc : isSubstituted c = true) (position : Nat) :
    tokensFrom position (replacement c) = .ok (words position c) := by
  have hread : tokensFrom 0 (replacement c) = .ok (words 0 c) := by
    rcases eq_of_isSubstituted hc with rfl | rfl | rfl <;> decide +kernel
  refine tokensFrom_eq_ok_iff.mpr ⟨words 0 c, hread, ?_⟩
  rcases eq_of_isSubstituted hc with rfl | rfl | rfl <;>
    simp [words, PlacedToken.relocate, Nat.add_comm]

/-- The tokens of a text with an isolated symbol. -/
theorem Isolated.tokens_eq (isolated : Isolated before c behind) (hc : isSubstituted c = true)
    (h : tokensFrom 0 (expandAll (before ++ c :: behind)) = .ok tokens) :
    ∃ first last, tokensFrom 0 (expandAll before) = .ok first ∧
      tokensFrom (byteCount (expandAll before ++ replacement c))
        (expandBehind (before ++ [c]) behind) = .ok last ∧
      tokens = first ++ words (byteCount (expandAll before)) c ++ last := by
  rw [expandAll_split before (ne_closing hc), ← List.append_assoc,
    isolated.stop.tokensFrom_append] at h
  obtain ⟨front, hfront, h⟩ := Grammar.bind_eq_ok.mp h
  obtain ⟨last, hlast, h⟩ := Grammar.bind_eq_ok.mp h
  obtain rfl := Except.ok.inj h
  rw [isolated.start.cut.tokensFrom_append, Nat.zero_add, tokensFrom_replacement hc] at hfront
  obtain ⟨first, hfirst, hfront⟩ := Grammar.bind_eq_ok.mp hfront
  obtain rfl := Except.ok.inj hfront
  rw [Nat.zero_add] at hlast
  exact ⟨first, last, hfirst, hlast, rfl⟩

/-- A symbol stays isolated if the end of the text is cut off. -/
theorem Isolated.cut {rest : List Char} (isolated : Isolated before c (behind ++ rest)) :
    Isolated before c behind := by
  obtain ⟨start, stop⟩ := isolated
  rw [expandBehind_append] at start stop
  rw [← List.append_assoc] at start
  exact ⟨start.cut, stop.cut⟩

/-- An isolated `ℯ` is not the second letter of a degree mark. -/
theorem Isolated.head_ne (isolated : Isolated before 'ℯ' behind) : behind.head? ≠ some 'g' := by
  intro hhead
  obtain ⟨rest, rfl⟩ := List.head?_eq_some_iff.mp hhead
  have stop := isolated.start.behind_iff.mp isolated.stop
  rw [replacement_e] at stop
  have hletter : replacement 'g' = ['g'] := by decide
  have hkept : (expandBehind (before ++ ['ℯ']) ('g' :: rest)).head? = some 'g' := by
    rw [expandBehind, markBehind_eq_nil (by decide), hletter]
    rfl
  exact absurd (edge_e.mp stop 'g' hkept) (by decide)

end Tokens

section Spaced

/-- All symbols of a text are isolated in it and in front of what follows. -/
def AllIsolated (text rest : List Char) : Prop :=
  ∀ before c behind, text = before ++ c :: behind → isSubstituted c = true →
    Isolated before c (behind ++ rest)

variable {before rest : List Char} {tokens : List PlacedToken}

/-- The words of a text do not depend on the place it stands at. -/
theorem tokensFrom_elsewhere {position : Nat} {text : List Char}
    (h : tokensFrom position text = .ok tokens) (place : Nat) :
    ∃ tokens', tokensFrom place text = .ok tokens' ∧
      tokens'.map (·.token) = tokens.map (·.token) := by
  obtain ⟨first, hfirst, rfl⟩ := tokensFrom_eq_ok_iff.mp h
  refine ⟨_, tokensFrom_eq_ok_iff.mpr ⟨first, hfirst, rfl⟩, ?_⟩
  simp [PlacedToken.relocate]

theorem apart_blank (rest : List Char) : Apart (' ' :: rest) :=
  apart_cons.mpr (by decide)

/-- The tokens of a text with a symbol between blanks. -/
theorem tokensFrom_between {c : Char} (hc : isSubstituted c = true) (position : Nat)
    (first rest : List Char) :
    tokensFrom position (first ++ ' ' :: (replacement c ++ ' ' :: rest)) = (do
      let front ← tokensFrom position first
      let back ← tokensFrom (position + byteCount first + 1 + byteCount (replacement c) + 1) rest
      return front ++ (words (position + byteCount first + 1) c ++ back)) := by
  have hblank : isBlank ' ' = true := by decide
  rw [tokensFrom_append (apart_blank _), tokensFrom_blank hblank, tokensFrom_append (apart_blank _),
    tokensFrom_blank hblank]
  simp only [show Char.utf8Size ' ' = 1 from rfl, tokensFrom_replacement hc]
  cases tokensFrom position first with
  | error => rfl
  | ok =>
      cases tokensFrom (position + byteCount first + 1 + byteCount (replacement c) + 1) rest <;> rfl

theorem words_token (position position' : Nat) (c : Char) :
    (words position c).map (·.token) = (words position' c).map (·.token) := by
  simp only [words]
  split
  · rfl
  · split <;> rfl

theorem AllIsolated.step {c : Char} (h : AllIsolated (before ++ [c]) rest) :
    AllIsolated before (c :: rest) := by
  rintro first symbol behind rfl hc
  have hlast := h first symbol (behind ++ [c]) (by simp) hc
  rwa [List.append_assoc] at hlast

theorem AllIsolated.cut (h : AllIsolated before rest) : AllIsolated before [] := by
  intro first symbol behind hbefore hc
  rw [List.append_nil]
  exact (h first symbol behind hbefore hc).cut

theorem AllIsolated.separate (h : AllIsolated before rest)
    (plain : ∀ c ∈ rest, isSubstituted c = false) : ¬ ['ℯ', 'g'] <:+: before ++ rest := by
  rintro ⟨first, last, htext⟩
  rw [List.append_assoc] at htext
  have hplain : 'ℯ' ∉ rest := fun hmem => absurd (plain 'ℯ' hmem) (by decide)
  rcases List.append_eq_append_iff.mp htext with ⟨middle, rfl, hrest⟩ | ⟨middle, -, hrest⟩
  · cases middle with
    | nil =>
        rw [List.nil_append] at hrest
        exact hplain (hrest ▸ List.mem_cons_self)
    | cons symbol behind =>
        obtain ⟨rfl, hbehind⟩ := List.cons.inj hrest
        have hisolated := h first 'ℯ' behind rfl (by decide)
        exact hisolated.head_ne (congrArg List.head? hbehind.symm)
  · exact hplain (hrest ▸ List.mem_append_right _ List.mem_cons_self)

/-- With blanks around its symbols a text has the same words if they are isolated. -/
theorem tokens_of_spaced (plain : ∀ c ∈ rest, isSubstituted c = false)
    (isolated : AllIsolated before rest)
    (h : tokensFrom 0 (expandAll (before ++ rest)) = .ok tokens) :
    ∃ tokens', tokensFrom 0 (expandAll (spaced (before ++ rest))) = .ok tokens' ∧
      tokens'.map (·.token) = tokens.map (·.token) := by
  induction before using List.reverseRecOn generalizing rest tokens with
  | nil =>
      rw [List.nil_append] at h ⊢
      rw [spaced_plain plain]
      exact ⟨tokens, h, rfl⟩
  | append_singleton before c ih =>
      have hseparate := isolated.separate plain
      rw [List.append_assoc, List.singleton_append] at h hseparate ⊢
      by_cases hc : isSubstituted c = true
      · have hisolated : Isolated before c rest := isolated before c [] rfl hc
        obtain ⟨first, last, hfirst, hlast, rfl⟩ := hisolated.tokens_eq hc h
        obtain ⟨first', hfirst', hsameFirst⟩ := ih (List.forall_mem_nil _) isolated.step.cut
          (by rwa [List.append_nil])
        rw [List.append_nil] at hfirst'
        obtain ⟨last', hlast', hsameLast⟩ := tokensFrom_elsewhere hlast
          (0 + byteCount (expandAll (spaced before)) + 1 + byteCount (replacement c) + 1)
        let place := 0 + byteCount (expandAll (spaced before)) + 1
        refine ⟨first' ++ (words place c ++ last'), ?_, ?_⟩
        · rw [expandAll_spaced hc (ne_closing hc) plain hseparate, tokensFrom_between hc, hfirst']
          simp only [hlast']
          rfl
        · simp only [List.map_append, hsameFirst, hsameLast, List.append_assoc,
            words_token _ (byteCount (expandAll before)) c]
      · refine ih ?_ isolated.step h
        exact List.forall_mem_cons.mpr ⟨by simpa using hc, plain⟩

end Spaced

section Value

variable {arithmetic : Arithmetic} {registers : Registers} {text text' : String} {value : Float}
  {tokens tokens' : List PlacedToken}

/-- Texts of the same words have the same value. -/
theorem evaluate_of_same_words
    (htokens : tokensFrom 0 (expandAll text.toList) = .ok tokens)
    (htokens' : tokensFrom 0 (expandAll text'.toList) = .ok tokens')
    (same : tokens'.map (·.token) = tokens.map (·.token))
    (hvalue : evaluate arithmetic registers text = .ok value) :
    evaluate arithmetic registers text' = .ok value := by
  obtain ⟨read, node, nesting, hread, derives, hnesting, hheight, hnode⟩ :=
    derives_of_evaluate hvalue
  obtain rfl := Except.ok.inj (htokens.symm.trans hread)
  obtain ⟨move, rfl⟩ := exists_move (munches_of_tokensFrom htokens).positions.2 same
  exact evaluate_of_limits htokens' (derives.relocate move) hnesting
    (by rwa [Expression.height_relocate]) (Relocation.evaluate_relocate_eq_ok.mpr hnode)

/-- No symbol of the text fuses. -/
def NoneFused (text : List Char) : Prop :=
  ∀ before c behind, text = before ++ c :: behind → isSubstituted c = true →
    ¬ FusedAt before c behind

theorem evaluate_spaced (apart : NoneFused text.toList)
    (hvalue : evaluate arithmetic registers text = .ok value) :
    evaluate arithmetic registers (String.ofList (spaced text.toList)) = .ok value := by
  obtain ⟨tokens, -, -, htokens, -⟩ := derives_of_evaluate hvalue
  have isolated : AllIsolated text.toList [] := by
    intro before c behind htext hc
    rw [List.append_nil]
    exact (isolated_iff hc (htext ▸ htokens)).mpr (apart before c behind htext hc)
  obtain ⟨tokens', htokens', same⟩ := tokens_of_spaced (List.forall_mem_nil _) isolated
    (by rwa [List.append_nil] : tokensFrom 0 (expandAll (text.toList ++ [])) = .ok tokens)
  rw [List.append_nil] at htokens'
  exact evaluate_of_same_words htokens (by rwa [String.toList_ofList]) same hvalue

end Value

end Substitution
end Calculator
