import Calculator.Proofs.Shorthand.Marking
import Mathlib.Data.List.DropRight

/-!
Expanding a text from left to right.

A flat call ends at its closing parenthesis, and whether there is one is known from the text in
front of it. So a text is expanded character by character: each is replaced by its own expansion,
with a degree mark in front of it where a flat call is closed, and what is written behind a text
does not change the expansion of the text.
-/

namespace Calculator
namespace Shorthand

/-- The text behind the last parenthesis. -/
def lastArgument (text : List Char) : List Char :=
  text.rtakeWhile (!isParenthesis ·)

/-- The text up to the last parenthesis. -/
def upToParenthesis (text : List Char) : List Char :=
  text.rdropWhile (!isParenthesis ·)

/-- Behind this text a closing parenthesis ends a flat call that has no degree mark yet. -/
def wantsMark (text : List Char) : Bool :=
  trigHeads.any (·.isSuffixOf (upToParenthesis text)) && lastArgument text ≠ [] &&
    !endsInDegreeMark (lastArgument text)

/-- What is put in front of a character behind a text. -/
def markBehind (text : List Char) (c : Char) : List Char :=
  if c = ')' ∧ wantsMark text = true then ' ' :: degreeMark else []

section Parts

variable {text before behind : List Char} {c : Char}

theorem lastArgument_append (h : isParenthesis c = true) :
    lastArgument (before ++ c :: behind) = lastArgument behind := by
  rw [lastArgument, List.rtakeWhile, List.reverse_append, List.reverse_cons, List.append_assoc,
    takeWhile_append_stop (by simp [h])]
  rfl

theorem upToParenthesis_append (h : isParenthesis c = true) :
    upToParenthesis (before ++ c :: behind) = before ++ c :: upToParenthesis behind := by
  rw [upToParenthesis, List.rdropWhile, List.reverse_append, List.reverse_cons, List.append_assoc,
    dropWhile_append_stop (by simp [h])]
  simp [upToParenthesis, List.rdropWhile]

theorem lastArgument_flat (h : ∀ c ∈ text, isParenthesis c = false) : lastArgument text = text :=
  List.rtakeWhile_eq_self_iff.mpr (by simpa using h)

theorem upToParenthesis_flat (h : ∀ c ∈ text, isParenthesis c = false) :
    upToParenthesis text = [] :=
  List.rdropWhile_eq_nil_iff.mpr (by simpa using h)

theorem text_append_lastArgument (text : List Char) :
    upToParenthesis text ++ lastArgument text = text :=
  List.rdropWhile_append_rtakeWhile

theorem isParenthesis_lastArgument : ∀ c ∈ lastArgument text, isParenthesis c = false :=
  fun _ hc => by simpa using List.mem_rtakeWhile_imp hc

theorem closing_notMem_head {head : List Char} (h : head ∈ trigHeads) : ')' ∉ head := by
  simp only [trigHeads, List.mem_cons, List.not_mem_nil, or_false] at h
  rcases h with rfl | rfl | rfl <;> decide

end Parts

section Wants

variable {text before behind head argument : List Char}

theorem wantsMark_iff :
    wantsMark text = true ↔ (∃ head ∈ trigHeads, head <:+ upToParenthesis text) ∧
      lastArgument text ≠ [] ∧ endsInDegreeMark (lastArgument text) = false := by
  simp [wantsMark, and_assoc]

theorem head_suffix_closed (hhead : head ∈ trigHeads) :
    head <:+ before ++ ')' :: behind ↔ head <:+ behind := by
  have hclosing := closing_notMem_head hhead
  constructor
  · intro h
    rcases List.suffix_or_suffix_of_suffix h (List.suffix_append before (')' :: behind)) with
      hinside | hover
    · rcases List.suffix_cons_iff.mp hinside with rfl | hsuffix
      · exact absurd List.mem_cons_self hclosing
      · exact hsuffix
    · exact absurd (hover.subset List.mem_cons_self) hclosing
  · intro h
    exact h.trans ((List.suffix_cons ..).trans (List.suffix_append ..))

/-- What is in front of a closing parenthesis does not matter behind it. -/
theorem wantsMark_closed : wantsMark (before ++ ')' :: behind) = wantsMark behind := by
  have hheads : (∃ head ∈ trigHeads, head <:+ before ++ ')' :: upToParenthesis behind) ↔
      ∃ head ∈ trigHeads, head <:+ upToParenthesis behind :=
    exists_congr fun head => and_congr_right head_suffix_closed
  rw [Bool.eq_iff_iff, wantsMark_iff, wantsMark_iff, upToParenthesis_append rfl,
    lastArgument_append rfl, hheads]

theorem wantsMark_call (hhead : head ∈ trigHeads) (hargument : argument ≠ [])
    (hflat : ∀ c ∈ argument, isParenthesis c = false) :
    wantsMark (before ++ (head ++ argument)) = !endsInDegreeMark argument := by
  obtain ⟨word, rfl, -⟩ := trigHead_eq_concat hhead
  have htext : before ++ (word ++ ['('] ++ argument) = (before ++ word) ++ '(' :: argument := by
    simp
  rw [Bool.eq_iff_iff, wantsMark_iff, htext, upToParenthesis_append rfl, lastArgument_append rfl,
    upToParenthesis_flat hflat, lastArgument_flat hflat]
  simp only [hargument, ne_eq, not_false_eq_true, true_and, Bool.not_eq_true']
  exact and_iff_right ⟨_, hhead, by rw [List.append_assoc]; exact List.suffix_append ..⟩

theorem wantsMark_iff_call :
    wantsMark text = true ↔ ∃ before call, text = before ++ (FlatCall.head call ++ call.argument) ∧
      call.head ∈ trigHeads ∧ call.argument ≠ [] ∧
      (∀ c ∈ call.argument, isParenthesis c = false) ∧
      endsInDegreeMark call.argument = false := by
  constructor
  · intro h
    obtain ⟨⟨head, hhead, before, hbefore⟩, hargument, hunmarked⟩ := wantsMark_iff.mp h
    refine ⟨before, ⟨head, lastArgument text⟩, ?_, hhead, hargument, isParenthesis_lastArgument,
      hunmarked⟩
    rw [← List.append_assoc, hbefore, text_append_lastArgument]
  · rintro ⟨before, call, rfl, hhead, hargument, hflat, hunmarked⟩
    rw [wantsMark_call hhead hargument hflat, hunmarked]
    rfl

end Wants

theorem markDegrees_unclosed {text : List Char} (h : ')' ∉ text) : markDegrees text = text := by
  induction text with
  | nil => exact markDegrees_nil
  | cons c rest ih =>
      have hnone : flatCall? (c :: rest) = none := by
        cases hcall : flatCall? (c :: rest) with
        | none => rfl
        | some found =>
            have hparentheses := parentheses_of_flatCall hcall
            have hmem : ')' ∈ (c :: rest).filter isParenthesis := by simp [hparentheses]
            exact absurd (List.mem_of_mem_filter hmem) h
      rw [markDegrees_of_none hnone, ih fun hrest => h (List.mem_cons_of_mem c hrest)]

theorem flatCall?_singleton (c : Char) : flatCall? [c] = none := by
  cases hcall : flatCall? [c] with
  | none => rfl
  | some found =>
      have hlength := congrArg List.length (parentheses_of_flatCall hcall)
      have hle := List.length_filter_le isParenthesis [c]
      simp only [List.length_cons, List.length_nil] at hlength hle
      omega

theorem markBehind_cons {c d : Char} {text : List Char}
    (h : flatCall? (d :: (text ++ [c])) = none) : markBehind (d :: text) c = markBehind text c := by
  have hwants : c = ')' → (wantsMark (d :: text) = true ↔ wantsMark text = true) := by
    rintro rfl
    rw [wantsMark_iff_call, wantsMark_iff_call]
    constructor
    · rintro ⟨before, call, htext, hhead, hargument, hflat, hunmarked⟩
      cases before with
      | nil =>
          have hcall : flatCall? (d :: (text ++ [')'])) = some (call, []) := by
            refine flatCall?_eq_some.mpr ⟨hhead, hargument, hflat, ?_⟩
            rw [← List.cons_append, htext, FlatCall.text, List.nil_append, List.append_nil]
          rw [hcall] at h
          simp at h
      | cons _ before =>
          exact ⟨before, call, (List.cons.inj htext).2, hhead, hargument, hflat, hunmarked⟩
    · rintro ⟨before, call, rfl, hcall⟩
      exact ⟨d :: before, call, rfl, hcall⟩
  by_cases hc : c = ')'
  · simp only [markBehind, hc, hwants hc]
  · simp only [markBehind, hc, false_and]

/-- A text is marked character by character. -/
theorem markDegrees_concat (text : List Char) (c : Char) :
    markDegrees (text ++ [c]) = markDegrees text ++ (markBehind text c ++ [c]) := by
  fun_induction markDegrees text with
  | case1 =>
      rw [List.nil_append, markDegrees_of_none (flatCall?_singleton c), markDegrees_nil]
      simp [markBehind, show wantsMark [] = false from rfl]
  | case2 d text call after h ih =>
      obtain ⟨hhead, hargument, hflat, htext⟩ := flatCall?_eq_some.mp h
      have hmore : flatCall? (d :: text ++ [c]) = some (call, after ++ [c]) :=
        flatCall?_eq_some.mpr ⟨hhead, hargument, hflat, by rw [htext, List.append_assoc]⟩
      have hmark : markBehind (d :: text) c = markBehind after c := by
        rw [markBehind, htext, FlatCall.text, List.append_assoc, List.singleton_append,
          wantsMark_closed]
        rfl
      rw [markDegrees_of_call hmore, ih, hmark, List.append_assoc]
  | case3 d text h ih =>
      rw [List.cons_append]
      cases hcall : flatCall? (d :: (text ++ [c])) with
      | none => rw [markDegrees_of_none hcall, ih, markBehind_cons hcall, List.cons_append]
      | some found =>
          obtain ⟨call, rest⟩ := found
          obtain ⟨hhead, hargument, hflat, htext⟩ := flatCall?_eq_some.mp hcall
          -- The call is not in the shorter text, so it is the whole of the longer one.
          obtain rfl : rest = [] := by
            rcases List.eq_nil_or_concat rest with hnil | ⟨rest, last, rfl⟩
            · exact hnil
            · rw [List.concat_eq_append, ← List.append_assoc, ← List.cons_append] at htext
              have hshorter := (List.append_inj' htext rfl).1
              rw [flatCall?_eq_some.mpr ⟨hhead, hargument, hflat, hshorter⟩] at h
              simp at h
          rw [List.append_nil, FlatCall.text, ← List.cons_append] at htext
          obtain ⟨hopen, hc⟩ := List.append_inj' htext rfl
          obtain rfl : c = ')' := by simpa using hc
          have hunclosed : ')' ∉ call.head ++ call.argument := by
            simp only [List.mem_append, not_or]
            exact ⟨closing_notMem_head hhead, fun hmem => absurd (hflat _ hmem) (by decide)⟩
          have hrest : markDegrees text = text :=
            markDegrees_unclosed fun hmem => hunclosed (hopen ▸ List.mem_cons_of_mem d hmem)
          have hwants := @wantsMark_call [] call.head call.argument hhead hargument hflat
          rw [List.nil_append, ← hopen] at hwants
          rw [markDegrees_of_call hcall, markDegrees_nil, List.append_nil, hrest, FlatCall.marked,
            FlatCall.text, ← hopen, markBehind, hwants]
          cases endsInDegreeMark call.argument <;> simp

theorem markBehind_eq_nil {c : Char} (h : c ≠ ')') (text : List Char) : markBehind text c = [] :=
  if_neg fun hc => h hc.1

theorem markDegrees_append_unclosed (text : List Char) {rest : List Char} (h : ')' ∉ rest) :
    markDegrees (text ++ rest) = markDegrees text ++ rest := by
  induction rest using List.reverseRecOn with
  | nil => simp
  | append_singleton rest c ih =>
      simp only [List.mem_append, List.mem_singleton, not_or] at h
      rw [← List.append_assoc, markDegrees_concat, ih h.1, markBehind_eq_nil (Ne.symm h.2),
        List.nil_append, List.append_assoc]

/-- What a character is replaced by. -/
def replacement (c : Char) : List Char :=
  expandPercents (expandSymbols [c])

theorem closing_notMem_expandSymbols {c : Char} (h : c ≠ ')') : ')' ∉ expandSymbols [c] := by
  intro hmem
  have hfilter : ')' ∈ (expandSymbols [c]).filter isParenthesis :=
    List.mem_filter.mpr ⟨hmem, rfl⟩
  rw [filter_expandSymbols] at hfilter
  exact h (List.mem_singleton.mp (List.mem_of_mem_filter hfilter)).symm

/-- A text is expanded character by character. -/
theorem expandAll_concat (text : List Char) (c : Char) :
    expandAll (text ++ [c]) =
      expandAll text ++ (markBehind (expandSymbols text) c ++ replacement c) := by
  by_cases hc : c = ')'
  · subst hc
    have hsymbol : expandSymbols [')'] = [')'] := by decide
    have hmark : expandPercents (markBehind (expandSymbols text) ')' ++ [')']) =
        markBehind (expandSymbols text) ')' ++ [')'] := by
      rw [markBehind]
      split <;> decide
    rw [expandAll_eq, expandSymbols_append, hsymbol, markDegrees_concat, expandPercents,
      List.flatMap_append, ← expandPercents, ← expandPercents, hmark, ← expandAll_eq, replacement,
      hsymbol]
    rfl
  · rw [expandAll_eq, expandSymbols_append,
      markDegrees_append_unclosed _ (closing_notMem_expandSymbols hc), expandPercents,
      List.flatMap_append, ← expandPercents, ← expandPercents, ← expandAll_eq,
      markBehind_eq_nil hc]
    rfl

theorem expandAll_singleton {c : Char} (h : c ≠ ')') : expandAll [c] = replacement c := by
  have hconcat := expandAll_concat [] c
  rwa [expandAll_nil, markBehind_eq_nil h] at hconcat

/-- A text that closes no call is expanded on its own. -/
theorem expandAll_append_unclosed (text : List Char) {rest : List Char} (h : ')' ∉ rest) :
    expandAll (text ++ rest) = expandAll text ++ expandAll rest := by
  induction rest using List.reverseRecOn with
  | nil => rw [List.append_nil, expandAll_nil, List.append_nil]
  | append_singleton rest c ih =>
      simp only [List.mem_append, List.mem_singleton, not_or] at h
      have hc : c ≠ ')' := Ne.symm h.2
      rw [← List.append_assoc, expandAll_concat, expandAll_concat, ih h.1, markBehind_eq_nil hc,
        markBehind_eq_nil hc, List.append_assoc]

/-- The expansion of a text that stands behind another one. -/
def expandBehind (before : List Char) : List Char → List Char
  | [] => []
  | c :: rest =>
    markBehind (expandSymbols before) c ++ (replacement c ++ expandBehind (before ++ [c]) rest)

theorem expandAll_behind (before text : List Char) :
    expandAll (before ++ text) = expandAll before ++ expandBehind before text := by
  induction text generalizing before with
  | nil => rw [expandBehind, List.append_nil, List.append_nil]
  | cons c rest ih =>
      rw [← List.singleton_append, ← List.append_assoc, ih, expandAll_concat, List.append_assoc,
        List.append_assoc]
      rfl

theorem expandBehind_append (before text rest : List Char) :
    expandBehind before (text ++ rest) =
      expandBehind before text ++ expandBehind (before ++ text) rest := by
  induction text generalizing before with
  | nil => rw [List.append_nil]; rfl
  | cons c text ih =>
      rw [List.cons_append, expandBehind, ih, expandBehind, List.append_assoc, List.append_assoc,
        List.append_assoc, List.singleton_append]

theorem expandAll_split (before : List Char) {c : Char} (h : c ≠ ')') (behind : List Char) :
    expandAll (before ++ c :: behind) =
      expandAll before ++ (replacement c ++ expandBehind (before ++ [c]) behind) := by
  rw [expandAll_behind, expandBehind, markBehind_eq_nil h, List.nil_append]

end Shorthand
end Calculator
