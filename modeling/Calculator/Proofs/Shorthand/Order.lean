import Calculator.Proofs.Shorthand.Placement
import Calculator.Proofs.Shorthand.Settled

/-!
The order in which the kinds of shorthand are expanded.

Signs, names of constants and percents replace single characters, and what they put there neither
makes nor breaks a flat call or a degree mark, unless an `ℯ` becomes the second letter of a mark. So
in a text without `ℯ` all kinds can be expanded in any order, and the parentheses that want a mark
are the same before and after.
-/

namespace Calculator
namespace Shorthand

/-- What a kind of shorthand puts in the place of a character. Marks replace none. -/
def inPlace : Shorthand → Char → List Char
  | operators, c => [operatorSign c]
  | constants, c => constantName c
  | degrees, c => [c]
  | percents, c => percentDivision c

/-- A text expanded by some kinds of shorthand, one after the other. -/
def expandInOrder (order : List Shorthand) (text : List Char) : List Char :=
  order.foldl (fun text shorthand => shorthand.expandIn text) text

section Characters

variable {shorthand : Shorthand} {text : List Char} {c : Char}

theorem expandIn_eq_flatMap (h : shorthand ≠ degrees) (text : List Char) :
    shorthand.expandIn text = text.flatMap shorthand.inPlace := by
  cases shorthand with
  | operators => exact List.map_eq_flatMap
  | constants | percents => rfl
  | degrees => exact absurd rfl h

theorem inPlace_of_notMem_keys (h : c ∉ keys) : shorthand.inPlace c = [c] := by
  simp only [keys, List.mem_cons, List.not_mem_nil, or_false, not_or] at h
  cases shorthand <;> simp [inPlace, operatorSign, constantName, percentDivision, h]

theorem unobtrusively_inPlace (shorthand : Shorthand) : Unobtrusively shorthand.inPlace where
  plain _ := inPlace_of_notMem_keys
  key c hc := by
    rcases eq_of_mem_keys hc with rfl | rfl | rfl | rfl | rfl <;> cases shorthand <;>
      exact ⟨by decide, by decide, by decide, by decide⟩

theorem inPlace_comm (first second : Shorthand) (c : Char) :
    (first.inPlace c).flatMap second.inPlace = (second.inPlace c).flatMap first.inPlace := by
  by_cases hc : c ∈ keys
  · rcases eq_of_mem_keys hc with rfl | rfl | rfl | rfl | rfl <;> cases first <;> cases second <;>
      decide
  · simp [inPlace_of_notMem_keys hc]

theorem notMem_inPlace (h : c ≠ 'ℯ') : 'ℯ' ∉ shorthand.inPlace c := by
  by_cases hc : c ∈ keys
  · rcases eq_of_mem_keys hc with rfl | rfl | rfl | rfl | rfl
    case inr.inr.inr.inl => exact absurd rfl h
    all_goals cases shorthand <;> decide
  · rw [inPlace_of_notMem_keys hc, List.mem_singleton]
    exact h.symm

theorem notMem_expandIn (shorthand : Shorthand) (plain : 'ℯ' ∉ text) :
    'ℯ' ∉ shorthand.expandIn text := by
  by_cases h : shorthand = degrees
  · subst h
    intro hmem
    rcases mem_markDegrees hmem with htext | hmark
    · exact plain htext
    · exact absurd hmark (by decide)
  · rw [expandIn_eq_flatMap h, List.mem_flatMap]
    rintro ⟨c, hc, hmem⟩
    exact notMem_inPlace (fun heq => plain (heq ▸ hc)) hmem

end Characters

theorem notMem_keys_markBehind {text : List Char} : ∀ d ∈ markBehind text ')', d ∉ keys := by
  intro d hd
  have hall : (' ' :: degreeMark).all (· ∉ keys) = true := by decide
  simpa using List.all_eq_true.mp hall d (mem_markBehind hd)

namespace Unobtrusively

variable {expansion : Char → List Char} (h : Unobtrusively expansion)
include h

theorem closing : expansion ')' = [')'] :=
  h.plain ')' (by decide)

theorem eq_closing {c : Char} (hmem : ')' ∈ expansion c) : c = ')' := by
  rcases h.cases c with hsame | ⟨-, hnew⟩
  · rw [hsame, List.mem_singleton] at hmem
    exact hmem.symm
  · exact absurd (List.all_eq_true.mp hnew.flat ')' hmem) (by decide)

/-- Marks are put in the same places before and after the expansion. -/
theorem markDegrees_flatMap {text : List Char} (separate : ¬ ['ℯ', 'g'] <:+: text) :
    markDegrees (text.flatMap expansion) = (markDegrees text).flatMap expansion := by
  induction text using List.reverseRecOn with
  | nil => rw [List.flatMap_nil, markDegrees_nil, List.flatMap_nil]
  | append_singleton text c ih =>
      have hfront : ¬ ['ℯ', 'g'] <:+: text := fun hfound =>
        separate (hfound.trans (List.prefix_append ..).isInfix)
      rw [List.flatMap_append, List.flatMap_singleton, markDegrees_concat, List.flatMap_append,
        List.flatMap_append, List.flatMap_singleton, ← ih hfront]
      by_cases hc : c = ')'
      · subst hc
        have hmark : (markBehind text ')').flatMap expansion = markBehind text ')' :=
          flatMap_eq_self fun d hd => h.plain d (notMem_keys_markBehind d hd)
        rw [h.closing, markDegrees_concat, hmark, markBehind, markBehind,
          h.wantsMark_flatMap hfront]
      · rw [markBehind_eq_nil hc, List.flatMap_nil, List.nil_append]
        exact markDegrees_append_unclosed _ fun hmem => hc (h.eq_closing hmem)

/-- A closing parenthesis of the expanded text is one of the text. -/
theorem split_closing {text front back : List Char}
    (hsplit : text.flatMap expansion = front ++ ')' :: back) :
    ∃ before behind, text = before ++ ')' :: behind ∧ front = before.flatMap expansion := by
  induction text generalizing front with
  | nil => simp at hsplit
  | cons c rest ih =>
      rw [List.flatMap_cons] at hsplit
      rcases List.append_eq_append_iff.mp hsplit with ⟨more, rfl, hmore⟩ | ⟨more, hnew, hmore⟩
      · obtain ⟨before, behind, rfl, rfl⟩ := ih hmore
        exact ⟨c :: before, behind, rfl, List.flatMap_cons.symm⟩
      cases more with
      | nil =>
          obtain ⟨before, behind, rfl, hbefore⟩ := @ih [] hmore.symm
          refine ⟨c :: before, behind, rfl, ?_⟩
          rw [List.flatMap_cons, ← hbefore, hnew, List.append_nil, List.append_nil]
      | cons d more =>
          obtain ⟨rfl, -⟩ := List.cons.inj hmore
          obtain rfl : c = ')' := h.eq_closing (by simp [hnew])
          rw [h.closing] at hnew
          obtain ⟨rfl, -⟩ := List.append_eq_singleton_iff.mp hnew.symm |>.resolve_right (by simp)
          exact ⟨[], rest, rfl, rfl⟩

end Unobtrusively

theorem closesUnmarkedCall_split (before behind : List Char) :
    ClosesUnmarkedCall (before ++ ')' :: behind) before.length ↔ wantsMark before = true := by
  rw [← List.singleton_append, ← List.append_assoc, closesUnmarkedCall_append (by simp),
    closesUnmarkedCall_last]
  exact and_iff_right rfl

section Orders

variable {text : List Char} (plain : 'ℯ' ∉ text)
include plain

theorem separate_of_plain : ¬ ['ℯ', 'g'] <:+: text :=
  fun hfound => plain (hfound.subset List.mem_cons_self)

theorem markDegrees_expandIn (shorthand : Shorthand) :
    markDegrees (shorthand.expandIn text) = shorthand.expandIn (markDegrees text) := by
  by_cases h : shorthand = degrees
  · subst h
    rfl
  · rw [expandIn_eq_flatMap h, expandIn_eq_flatMap h]
    exact (unobtrusively_inPlace shorthand).markDegrees_flatMap (separate_of_plain plain)

theorem expandIn_comm (first second : Shorthand) :
    second.expandIn (first.expandIn text) = first.expandIn (second.expandIn text) := by
  by_cases hfirst : first = degrees
  · subst hfirst
    exact (markDegrees_expandIn plain second).symm
  by_cases hsecond : second = degrees
  · subst hsecond
    exact markDegrees_expandIn plain first
  · simp only [expandIn_eq_flatMap hfirst, expandIn_eq_flatMap hsecond, List.flatMap_assoc,
      inPlace_comm first second]

/-- The closing parentheses that want a mark are those that wanted one before. -/
theorem closesUnmarkedCall_expandIn {shorthand : Shorthand} (h : shorthand ≠ degrees)
    (closing : Nat) :
    ClosesUnmarkedCall (shorthand.expandIn text) closing ↔
      ∃ before behind, text = before ++ ')' :: behind ∧
        closing = (shorthand.expandIn before).length ∧ ClosesUnmarkedCall text before.length := by
  have hnew := unobtrusively_inPlace shorthand
  have hfront {before behind : List Char} (htext : text = before ++ ')' :: behind) :
      wantsMark (before.flatMap shorthand.inPlace) = wantsMark before :=
    hnew.wantsMark_flatMap fun hfound => separate_of_plain plain <|
      hfound.trans (htext ▸ (List.prefix_append before _).isInfix)
  simp only [expandIn_eq_flatMap h]
  constructor
  · intro hcloses
    obtain ⟨_, _, call⟩ := id hcloses
    obtain ⟨hinside, hclosing⟩ := List.getElem?_eq_some_iff.mp call.closes
    have hsplit := List.take_append_drop closing (text.flatMap shorthand.inPlace)
    rw [List.drop_eq_getElem_cons hinside, hclosing] at hsplit
    obtain ⟨before, behind, htext, hbefore⟩ := hnew.split_closing hsplit.symm
    have hlength : closing = (before.flatMap shorthand.inPlace).length := by
      rw [← hbefore, List.length_take, Nat.min_eq_left hinside.le]
    refine ⟨before, behind, htext, hlength, ?_⟩
    rw [hlength, htext, List.flatMap_append, List.flatMap_cons, hnew.closing,
      List.singleton_append, closesUnmarkedCall_split, hfront htext] at hcloses
    rw [htext, closesUnmarkedCall_split]
    exact hcloses
  · rintro ⟨before, behind, htext, rfl, hcloses⟩
    have hwants := hfront htext
    subst htext
    rw [closesUnmarkedCall_split] at hcloses
    rw [List.flatMap_append, List.flatMap_cons, hnew.closing, List.singleton_append,
      closesUnmarkedCall_split, hwants]
    exact hcloses

end Orders

theorem expandInOrder_perm {text : List Char} {order other : List Shorthand}
    (h : order.Perm other) (plain : 'ℯ' ∉ text) :
    expandInOrder order text = expandInOrder other text := by
  induction h generalizing text with
  | nil => rfl
  | cons shorthand _ ih => exact ih (notMem_expandIn shorthand plain)
  | swap first second rest =>
      exact congrArg (expandInOrder rest) (expandIn_comm plain second first)
  | trans _ _ ih ih' => exact (ih plain).trans (ih' plain)

/-- A text without `ℯ` can be expanded in any order of the kinds of shorthand. For none of the
replaced symbols it matters whether the calls are marked before or after: the closing parentheses
that want a mark are the same, each at the place that it is moved to. -/
theorem expands_alike_in_any_order (text : String) (plain : 'ℯ' ∉ text.toList) :
    (∀ order : List Shorthand, order.Perm all →
      String.ofList (expandInOrder order text.toList) = expand text) ∧
    ∀ shorthand : Shorthand, shorthand ≠ degrees →
      markDegrees (shorthand.expandIn text.toList) = shorthand.expandIn (markDegrees text.toList) ∧
      ∀ closing, ClosesUnmarkedCall (shorthand.expandIn text.toList) closing ↔
        ∃ before behind, text.toList = before ++ ')' :: behind ∧
          closing = (shorthand.expandIn before).length ∧
          ClosesUnmarkedCall text.toList before.length := by
  refine ⟨fun order h => ?_, fun shorthand h => ⟨?_, ?_⟩⟩
  · exact congrArg String.ofList (expandInOrder_perm h plain)
  · exact markDegrees_expandIn plain shorthand
  · exact closesUnmarkedCall_expandIn plain h

/-- The mark is put in front of the same parenthesis, whether the percent is expanded before or
after. -/
theorem expands_alike_with_marks_first :
    'ℯ' ∉ "2×sin(50%)÷π".toList ∧ [degrees, percents, operators, constants].Perm all ∧
    String.ofList (expandInOrder [degrees, percents, operators, constants] "2×sin(50%)÷π".toList) =
      expand "2×sin(50%)÷π" ∧
    expand "2×sin(50%)÷π" = "2*sin(50/100 deg)/pi" := by
  have plain : 'ℯ' ∉ "2×sin(50%)÷π".toList := by decide +kernel
  have horder : [degrees, percents, operators, constants].Perm all := by decide
  exact ⟨plain, horder, (expands_alike_in_any_order _ plain).1 _ horder, by decide +kernel⟩

/-- As a letter of a mark, `ℯ` has to be replaced before the calls are marked. -/
example : String.ofList (expandInOrder [degrees, operators, constants, percents] "sin(dℯg)".toList)
    = "sin(deg deg)" ∧ expand "sin(dℯg)" = "sin(deg)" := by decide +kernel

end Shorthand
end Calculator
