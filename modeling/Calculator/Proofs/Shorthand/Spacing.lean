import Calculator.Proofs.Shorthand.Behind
import Calculator.Proofs.Shorthand.Ending
import Mathlib.Data.List.Infix

/-!
Blanks around the symbols that words and numbers are written for.

With blanks around these symbols a text has the same flat calls, and the same of them have a degree
mark: what a symbol is replaced by is no part of a function's name, and it is a part of a mark only
where `ℯ` stands for its second letter.
-/

namespace Calculator
namespace Shorthand

/-- The symbols that a word or a number is put in the place of. -/
def isSubstituted (c : Char) : Bool :=
  c ∈ ['π', 'ℯ', '%']

def spaceOut (c : Char) : List Char :=
  if isSubstituted c then [' ', c, ' '] else [c]

/-- The text with a blank on both sides of these symbols. -/
def spaced (text : List Char) : List Char :=
  text.flatMap spaceOut

/-- The characters that are replaced before calls are marked. -/
def keys : List Char := ['÷', '×', 'π', 'ℯ', '%']

/-- What may be put in the place of a key without making or breaking a flat call or a mark, except
for a mark whose second letter it is. Calls and marks are looked for from their ends. -/
structure Unobtrusive (key : Char) (new : List Char) : Prop where
  flat : new.all (!isParenthesis ·) = true
  inHead : ∀ head ∈ trigHeads, ∀ part ∈ head.reverse.tails, part ≠ [] → Unlike part new.reverse
  inMark : ∀ part ∈ degreeMark.reverse.tails, part ≠ [] → key ≠ 'ℯ' ∨ part = ['d'] →
    Unlike part new.reverse
  ending : (new.reverse.dropWhile isBlank).head?.any (· ≠ 'g') = true

section Reversed

variable {expansion : Char → List Char} {p : Char → Bool}

theorem takeWhile_flatMap
    (h : ∀ c, if p c then ∀ d ∈ expansion c, p d = true else expansion c = [c]) (text : List Char) :
    (text.flatMap expansion).takeWhile p = (text.takeWhile p).flatMap expansion := by
  induction text with
  | nil => rfl
  | cons c rest ih =>
      have hc := h c
      by_cases hp : p c = true
      · rw [if_pos hp] at hc
        rw [List.flatMap_cons, List.takeWhile_append_of_pos hc, ih, List.takeWhile_cons_of_pos hp,
          List.flatMap_cons]
      · rw [if_neg hp] at hc
        simp [hc, hp]

theorem dropWhile_flatMap
    (h : ∀ c, if p c then ∀ d ∈ expansion c, p d = true else expansion c = [c]) (text : List Char) :
    (text.flatMap expansion).dropWhile p = (text.dropWhile p).flatMap expansion := by
  induction text with
  | nil => rfl
  | cons c rest ih =>
      have hc := h c
      by_cases hp : p c = true
      · rw [if_pos hp] at hc
        rw [List.flatMap_cons, List.dropWhile_append_of_pos hc, ih, List.dropWhile_cons_of_pos hp]
      · rw [if_neg hp] at hc
        simp [hc, hp]

end Reversed

theorem eq_of_mem_keys {c : Char} (h : c ∈ keys) :
    c = '÷' ∨ c = '×' ∨ c = 'π' ∨ c = 'ℯ' ∨ c = '%' := by
  simpa [keys] using h

theorem isParenthesis_key {c : Char} (h : c ∈ keys) : isParenthesis c = false := by
  rcases eq_of_mem_keys h with rfl | rfl | rfl | rfl | rfl <;> decide

theorem inert_key {c : Char} (h : c ∈ keys) : Inert c := by
  rcases eq_of_mem_keys h with rfl | rfl | rfl | rfl | rfl <;> decide

theorem key_notMem_head {c : Char} (h : c ∈ keys) {head : List Char} (hhead : head ∈ trigHeads) :
    c ∉ head := by
  intro hmem
  rcases mem_trigHead hhead hmem with hpart | hopening
  · rcases eq_of_mem_keys h with rfl | rfl | rfl | rfl | rfl <;> exact absurd hpart (by decide)
  · rcases eq_of_mem_keys h with rfl | rfl | rfl | rfl | rfl <;> exact absurd hopening (by decide)

theorem key_ne_letter {c letter : Char} (h : c ∈ keys) (hletter : letter ∈ degreeMark) :
    letter ≠ c :=
  fun heq => (inert_key h).2 (heq ▸ hletter)

section Marks

variable {key : Char} {new : List Char} (h : Unobtrusive key new) (rest : List Char)
include h

theorem Unobtrusive.mark_behind_blanks :
    ¬ ['g', 'e', 'd'] <+: (new.reverse ++ rest).dropWhile isBlank := by
  have hending := h.ending
  cases hdrop : new.reverse.dropWhile isBlank with
  | nil => simp [hdrop] at hending
  | cons last before =>
      rw [hdrop] at hending
      have hlast : last ≠ 'g' := by simpa using hending
      rw [List.dropWhile_append, hdrop]
      simp [List.cons_prefix_cons, hlast.symm]

theorem Unobtrusive.mark_prefix : ¬ ['g', 'e', 'd'] <+: new.reverse ++ rest := by
  intro hprefix
  obtain ⟨after, hafter⟩ := hprefix
  refine h.mark_behind_blanks rest ⟨after, ?_⟩
  rw [← hafter]
  rfl

end Marks

/-- An expansion of the keys that leaves calls and marks alone. -/
structure Unobtrusively (expansion : Char → List Char) : Prop where
  plain : ∀ c ∉ keys, expansion c = [c]
  key : ∀ c ∈ keys, Unobtrusive c (expansion c)

namespace Unobtrusively

variable {expansion : Char → List Char} (h : Unobtrusively expansion)
include h

theorem cases (c : Char) : expansion c = [c] ∨ c ∈ keys ∧ Unobtrusive c (expansion c) := by
  by_cases hc : c ∈ keys
  · exact .inr ⟨hc, h.key c hc⟩
  · exact .inl (h.plain c hc)

theorem parentheses (c : Char) :
    if !isParenthesis c then ∀ d ∈ (expansion c).reverse, (!isParenthesis d) = true
    else (expansion c).reverse = [c] := by
  rcases h.cases c with hsame | ⟨hc, hnew⟩
  · simp [hsame]
  · simpa [isParenthesis_key hc] using hnew.flat

theorem lastArgument_flatMap (text : List Char) :
    lastArgument (text.flatMap expansion) = (lastArgument text).flatMap expansion := by
  rw [lastArgument, List.rtakeWhile, List.reverse_flatMap, Function.comp_def]
  rw [takeWhile_flatMap h.parentheses, List.reverse_flatMap]
  simp [lastArgument, List.rtakeWhile, Function.comp_def]

theorem upToParenthesis_flatMap (text : List Char) :
    upToParenthesis (text.flatMap expansion) = (upToParenthesis text).flatMap expansion := by
  rw [upToParenthesis, List.rdropWhile, List.reverse_flatMap, Function.comp_def]
  rw [dropWhile_flatMap h.parentheses, List.reverse_flatMap]
  simp [upToParenthesis, List.rdropWhile, Function.comp_def]

theorem head_suffix {head : List Char} (hhead : head ∈ trigHeads) (text : List Char) :
    head <:+ text.flatMap expansion ↔ head <:+ text := by
  rw [← List.reverse_prefix, List.reverse_flatMap, ← List.reverse_prefix, Function.comp_def]
  refine prefix_flatMap (fun c => ?_) _
  rcases h.cases c with hsame | ⟨hc, hnew⟩
  · exact .inl (by rw [hsame]; rfl)
  · refine .inr ⟨fun hmem => key_notMem_head hc hhead (List.mem_reverse.mp hmem), ?_⟩
    exact fun part hpart => hnew.inHead head hhead part ((List.mem_tails _ _).mpr hpart)

theorem letter_prefix (text : List Char) :
    ['d'] <+: text.flatMap (fun c => (expansion c).reverse) ↔ ['d'] <+: text := by
  refine prefix_flatMap (fun c => ?_) text
  rcases h.cases c with hsame | ⟨hc, hnew⟩
  · exact .inl (by rw [hsame]; rfl)
  · refine .inr ⟨fun hmem => ?_, fun part hpart hne => ?_⟩
    · exact key_ne_letter hc (by decide) (List.mem_singleton.mp hmem).symm
    · obtain rfl : part = ['d'] := by
        rcases List.suffix_cons_iff.mp hpart with hwhole | hnil
        · exact hwhole
        · exact absurd (List.suffix_nil.mp hnil) hne
      exact hnew.inMark ['d'] (by decide) hne (.inr rfl)

theorem letters_prefix {text : List Char} (separate : text.head? ≠ some 'ℯ') :
    ['e', 'd'] <+: text.flatMap (fun c => (expansion c).reverse) ↔ ['e', 'd'] <+: text := by
  cases text with
  | nil => rfl
  | cons c rest =>
      rcases h.cases c with hsame | ⟨hc, hnew⟩
      · simp [hsame, List.cons_prefix_cons, h.letter_prefix rest]
      · have hne : 'e' ≠ c := key_ne_letter hc (by decide)
        have hother : c ≠ 'ℯ' := fun heq => separate (congrArg some heq)
        have hunlike := hnew.inMark ['e', 'd'] (by decide) (by decide) (.inl hother)
        have hnot := not_prefix_of_unlike hunlike (rest.flatMap fun c => (expansion c).reverse)
        simp [List.cons_prefix_cons, hne, hnot]

theorem mark_prefix {text : List Char} (separate : ¬ ['g', 'ℯ'] <:+: text) :
    ['g', 'e', 'd'] <+: text.flatMap (fun c => (expansion c).reverse) ↔
      ['g', 'e', 'd'] <+: text := by
  cases text with
  | nil => rfl
  | cons c rest =>
      rcases h.cases c with hsame | ⟨hc, hnew⟩
      · by_cases hg : 'g' = c
        · subst hg
          have hrest : rest.head? ≠ some 'ℯ' := by
            intro hhead
            obtain ⟨tail, rfl⟩ := List.head?_eq_some_iff.mp hhead
            exact separate ⟨[], tail, rfl⟩
          simp [hsame, List.cons_prefix_cons, h.letters_prefix hrest]
        · simp [hsame, List.cons_prefix_cons, hg]
      · have hne : 'g' ≠ c := key_ne_letter hc (by decide)
        have hnot := hnew.mark_prefix (rest.flatMap fun c => (expansion c).reverse)
        simp [List.cons_prefix_cons, hne, hnot]

/-- Written backwards, an expanded text begins with the mark behind its blanks if the text did. -/
theorem mark_behind_blanks {text : List Char} (separate : ¬ ['g', 'ℯ'] <:+: text) :
    ['g', 'e', 'd'] <+: (text.flatMap fun c => (expansion c).reverse).dropWhile isBlank ↔
      ['g', 'e', 'd'] <+: text.dropWhile isBlank := by
  induction text with
  | nil => rfl
  | cons c rest ih =>
      rcases h.cases c with hsame | ⟨hc, hnew⟩
      · by_cases hblank : isBlank c = true
        · have hrest := ih fun hinfix => separate (List.infix_cons hinfix)
          simpa [hsame, hblank] using hrest
        · have hwhole := h.mark_prefix separate
          simpa [hsame, hblank] using hwhole
      · have hne : 'g' ≠ c := key_ne_letter hc (by decide)
        have hnot := hnew.mark_behind_blanks (rest.flatMap fun c => (expansion c).reverse)
        have hkept : (c :: rest).dropWhile isBlank = c :: rest :=
          List.dropWhile_cons_of_neg (by simp [(inert_key hc).1])
        simp [hkept, List.cons_prefix_cons, hne, hnot]

theorem endsInDegreeMark_flatMap {text : List Char} (separate : ¬ ['ℯ', 'g'] <:+: text) :
    endsInDegreeMark (text.flatMap expansion) = endsInDegreeMark text := by
  rw [Bool.eq_iff_iff, endsInDegreeMark_iff, endsInDegreeMark_iff, List.reverse_flatMap,
    Function.comp_def]
  exact h.mark_behind_blanks fun hinfix => separate (List.reverse_infix.mp hinfix)

theorem flatMap_eq_nil (text : List Char) : text.flatMap expansion = [] ↔ text = [] := by
  cases text with
  | nil => simp
  | cons c rest =>
      rcases h.cases c with hsame | ⟨-, hnew⟩
      · simp [hsame]
      · have hne : expansion c ≠ [] := by
          intro hnil
          have hending := hnew.ending
          simp [hnil] at hending
        simp [hne]

/-- A closing parenthesis ends an unmarked flat call behind the expanded text where it did
before. -/
theorem wantsMark_flatMap {text : List Char} (separate : ¬ ['ℯ', 'g'] <:+: text) :
    wantsMark (text.flatMap expansion) = wantsMark text := by
  have hargument : ¬ ['ℯ', 'g'] <:+: lastArgument text := fun hfound =>
    separate (hfound.trans (List.rtakeWhile_suffix _ _).isInfix)
  have hnonempty : (lastArgument text).flatMap expansion ≠ [] ↔ lastArgument text ≠ [] :=
    not_congr (h.flatMap_eq_nil _)
  have hheads : (∃ head ∈ trigHeads, head <:+ (upToParenthesis text).flatMap expansion) ↔
      ∃ head ∈ trigHeads, head <:+ upToParenthesis text :=
    exists_congr fun head => and_congr_right fun hhead => h.head_suffix hhead _
  rw [Bool.eq_iff_iff, wantsMark_iff, wantsMark_iff, h.lastArgument_flatMap,
    h.upToParenthesis_flatMap, hheads, hnonempty, h.endsInDegreeMark_flatMap hargument]

end Unobtrusively

theorem expandSymbols_of_notMem_keys {c : Char} (h : c ∉ keys) : expandSymbols [c] = [c] := by
  simp only [keys, List.mem_cons, List.not_mem_nil, or_false, not_or] at h
  simp [expandSymbols, expandOperators, expandConstants, operatorSign, constantName, h]

theorem spaceOut_of_notMem_keys {c : Char} (h : c ∉ keys) : spaceOut c = [c] := by
  simp only [keys, List.mem_cons, List.not_mem_nil, or_false, not_or] at h
  simp [spaceOut, isSubstituted, h]

theorem unobtrusively_expandSymbols : Unobtrusively fun c => expandSymbols [c] where
  plain _ := expandSymbols_of_notMem_keys
  key c hc := by
    rcases eq_of_mem_keys hc with rfl | rfl | rfl | rfl | rfl <;>
      exact ⟨by decide, by decide, by decide, by decide⟩

theorem unobtrusively_spaceOut : Unobtrusively fun c => expandSymbols (spaceOut c) where
  plain c hc := by rw [spaceOut_of_notMem_keys hc, expandSymbols_of_notMem_keys hc]
  key c hc := by
    rcases eq_of_mem_keys hc with rfl | rfl | rfl | rfl | rfl <;>
      exact ⟨by decide, by decide, by decide, by decide⟩

theorem expandSymbols_eq_flatMap (text : List Char) :
    expandSymbols text = text.flatMap fun c => expandSymbols [c] := by
  induction text with
  | nil => rfl
  | cons c rest ih => rw [← List.singleton_append, expandSymbols_append, ih]; rfl

theorem expandSymbols_spaced (text : List Char) :
    expandSymbols (spaced text) = text.flatMap fun c => expandSymbols (spaceOut c) := by
  induction text with
  | nil => rfl
  | cons c rest ih =>
      rw [spaced, List.flatMap_cons, expandSymbols_append, ← spaced, ih, List.flatMap_cons]

/-- Blanks around the symbols do not change what is put in front of a character. -/
theorem markBehind_spaced {text : List Char} (separate : ¬ ['ℯ', 'g'] <:+: text) (c : Char) :
    markBehind (expandSymbols (spaced text)) c = markBehind (expandSymbols text) c := by
  rw [markBehind, markBehind, expandSymbols_spaced, expandSymbols_eq_flatMap text,
    unobtrusively_spaceOut.wantsMark_flatMap separate,
    unobtrusively_expandSymbols.wantsMark_flatMap separate]

theorem spaced_append (text rest : List Char) :
    spaced (text ++ rest) = spaced text ++ spaced rest :=
  List.flatMap_append

theorem spaced_plain {text : List Char} (plain : ∀ c ∈ text, isSubstituted c = false) :
    spaced text = text :=
  flatMap_eq_self fun c hc => by simp [spaceOut, plain c hc]

theorem spaced_symbol {c : Char} (hc : isSubstituted c = true) : spaced [c] = [' ', c, ' '] := by
  simp [spaced, spaceOut, hc]

theorem spaced_other {c : Char} (hc : isSubstituted c = false) : spaced [c] = [c] := by
  simp [spaced, spaceOut, hc]

/-- A text without these symbols is expanded in the same way behind the one with the blanks. -/
theorem expandBehind_spaced {before rest : List Char}
    (plain : ∀ c ∈ rest, isSubstituted c = false) (separate : ¬ ['ℯ', 'g'] <:+: before ++ rest) :
    expandBehind (spaced before) rest = expandBehind before rest := by
  induction rest generalizing before with
  | nil => rfl
  | cons c rest ih =>
      have hbefore : ¬ ['ℯ', 'g'] <:+: before := fun hfound =>
        separate (hfound.trans (List.prefix_append ..).isInfix)
      obtain ⟨hc, hrest⟩ := List.forall_mem_cons.mp plain
      have hspaced : spaced before ++ [c] = spaced (before ++ [c]) := by
        rw [spaced_append, spaced_other hc]
      have hmore : expandBehind (spaced (before ++ [c])) rest = expandBehind (before ++ [c]) rest :=
        ih hrest (by simpa using separate)
      rw [expandBehind, expandBehind, markBehind_spaced hbefore, hspaced, hmore]

/-- The last symbol of a text is expanded between blanks. -/
theorem expandAll_spaced {before behind : List Char} {c : Char} (hc : isSubstituted c = true)
    (closing : c ≠ ')') (plain : ∀ c ∈ behind, isSubstituted c = false)
    (separate : ¬ ['ℯ', 'g'] <:+: before ++ c :: behind) :
    expandAll (spaced (before ++ c :: behind)) =
      expandAll (spaced before) ++
        ' ' :: (replacement c ++ ' ' :: expandBehind (before ++ [c]) behind) := by
  have hsplit : before ++ c :: behind = (before ++ [c]) ++ behind := by simp
  have hblank : replacement ' ' = [' '] := by decide
  rw [hsplit] at separate ⊢
  rw [spaced_append, spaced_plain plain, expandAll_behind, expandBehind_spaced plain separate,
    spaced_append, spaced_symbol hc, expandAll_behind]
  simp [expandBehind, markBehind_eq_nil, closing, hblank]

end Shorthand
end Calculator
