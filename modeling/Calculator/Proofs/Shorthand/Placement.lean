import Calculator.Proofs.Shorthand.Behind

/-!
Where the degree marks are put.

Calls are looked for from left to right, and a call that is found is passed over as a whole. What
comes of it can be said of each closing parenthesis on its own: there is a mark in front of it if
the nearest parenthesis before it opens the argument of a trigonometric function and this argument
has neither nothing in it nor a mark at its end. All characters are kept.
-/

namespace Calculator
namespace Shorthand

/-- The characters between two offsets. -/
def between (text : List Char) (opening closing : Nat) : List Char :=
  (text.take closing).drop (opening + 1)

/-- The parentheses at these offsets enclose the argument of a flat call, and it has no mark. -/
structure UnmarkedCall (text : List Char) (opening closing : Nat) : Prop where
  nonempty : opening + 1 < closing
  opens : text[opening]? = some '('
  closes : text[closing]? = some ')'
  named : ∃ name ∈ trigNames, name <:+ text.take opening
  nearest : ∀ c ∈ between text opening closing, isParenthesis c = false
  unmarked : ¬ degreeMark <:+ trimEnd (between text opening closing)

theorem unmarkedCall_iff {text : List Char} {opening closing : Nat} :
    UnmarkedCall text opening closing ↔
      opening + 1 < closing ∧ text[opening]? = some '(' ∧ text[closing]? = some ')' ∧
        (∃ name ∈ trigNames, name <:+ text.take opening) ∧
        (between text opening closing).all (!isParenthesis ·) = true ∧
        ¬ degreeMark <:+ trimEnd (between text opening closing) := by
  simp only [List.all_eq_true, Bool.not_eq_true']
  constructor
  · rintro ⟨nonempty, opens, closes, named, nearest, unmarked⟩
    exact ⟨nonempty, opens, closes, named, nearest, unmarked⟩
  · rintro ⟨nonempty, opens, closes, named, nearest, unmarked⟩
    exact ⟨nonempty, opens, closes, named, nearest, unmarked⟩

instance (text : List Char) (opening closing : Nat) :
    Decidable (UnmarkedCall text opening closing) :=
  decidable_of_iff _ unmarkedCall_iff.symm

/-- The closing parenthesis at this offset wants a mark. -/
def ClosesUnmarkedCall (text : List Char) (closing : Nat) : Prop :=
  ∃ opening < closing, UnmarkedCall text opening closing

instance (text : List Char) : DecidablePred (ClosesUnmarkedCall text) :=
  fun closing => inferInstanceAs (Decidable (∃ opening < closing, _))

/-- The text with something in front of the characters at some offsets, and otherwise as it is. -/
def insertedBefore (chosen : Nat → Prop) [DecidablePred chosen] (extra text : List Char) :
    List Char :=
  text.zipIdx.flatMap fun (c, offset) => if chosen offset then extra ++ [c] else [c]

section Offsets

variable {text rest : List Char} {opening closing : Nat}

/-- What stands behind a closing parenthesis does not matter. -/
theorem unmarkedCall_append (inside : closing < text.length) :
    UnmarkedCall (text ++ rest) opening closing ↔ UnmarkedCall text opening closing := by
  have hbetween : between (text ++ rest) opening closing = between text opening closing := by
    rw [between, between, List.take_append_of_le_length (Nat.le_of_lt inside)]
  constructor
  · rintro ⟨nonempty, opens, closes, named, nearest, unmarked⟩
    rw [List.getElem?_append_left (by omega)] at opens closes
    rw [List.take_append_of_le_length (by omega)] at named
    rw [hbetween] at nearest unmarked
    exact ⟨nonempty, opens, closes, named, nearest, unmarked⟩
  · rintro ⟨nonempty, opens, closes, named, nearest, unmarked⟩
    rw [← hbetween] at nearest unmarked
    refine ⟨nonempty, ?_, ?_, ?_, nearest, unmarked⟩
    · rwa [List.getElem?_append_left (by omega)]
    · rwa [List.getElem?_append_left (by omega)]
    · rwa [List.take_append_of_le_length (by omega)]

theorem closesUnmarkedCall_append (inside : closing < text.length) :
    ClosesUnmarkedCall (text ++ rest) closing ↔ ClosesUnmarkedCall text closing :=
  exists_congr fun _ => and_congr_right fun _ => unmarkedCall_append inside

theorem endsInDegreeMark_eq_false {argument : List Char} :
    endsInDegreeMark argument = false ↔ ¬ degreeMark <:+ trimEnd argument := by
  rw [endsInDegreeMark, ← Bool.not_eq_true, List.isSuffixOf_iff_suffix]

/-- Offsets that enclose the argument of an unmarked call cut the call out of the text. -/
theorem wantsMark_of_closes {c : Char} (h : ClosesUnmarkedCall (text ++ [c]) text.length) :
    wantsMark text = true := by
  obtain ⟨opening, before, nonempty, opens, -, ⟨name, hname, front, hfront⟩, nearest, unmarked⟩ := h
  rw [List.getElem?_append_left before] at opens
  rw [between, List.take_left] at nearest unmarked
  rw [List.take_append_of_le_length (Nat.le_of_lt before)] at hfront
  have hsplit : text = text.take opening ++ '(' :: text.drop (opening + 1) := by
    obtain ⟨_, hopens⟩ := List.getElem?_eq_some_iff.mp opens
    rw [← hopens, List.getElem_cons_drop, List.take_append_drop]
  have hargument : text.drop (opening + 1) ≠ [] :=
    List.ne_nil_of_length_pos (by rw [List.length_drop]; omega)
  refine wantsMark_iff_call.mpr ⟨front, ⟨name ++ ['('], text.drop (opening + 1)⟩, ?_,
    mem_trigHeads_iff.mpr ⟨name, hname, rfl⟩, hargument, nearest,
    endsInDegreeMark_eq_false.mpr unmarked⟩
  refine hsplit.trans ?_
  rw [← hfront]
  simp

/-- An unmarked call that is still open at the end of a text has such offsets once it is closed. -/
theorem closes_of_wantsMark (h : wantsMark text = true) :
    ClosesUnmarkedCall (text ++ [')']) text.length := by
  obtain ⟨front, ⟨head, argument⟩, rfl, hhead, hargument, hflat, hunmarked⟩ :=
    wantsMark_iff_call.mp h
  obtain ⟨name, hname, rfl⟩ := mem_trigHeads_iff.mp hhead
  have hpositive : 0 < argument.length := List.length_pos_iff.mpr hargument
  have htext : front ++ (name ++ ['('] ++ argument) = (front ++ name) ++ '(' :: argument := by
    simp
  have hbetween : between ((front ++ name) ++ '(' :: argument ++ [')']) (front ++ name).length
      ((front ++ name) ++ '(' :: argument).length = argument := by
    rw [between, List.take_left, ← List.singleton_append, ← List.append_assoc]
    exact List.drop_left' List.length_append
  rw [htext]
  refine ⟨(front ++ name).length, by simp, ?_, by simp, by simp, ⟨name, hname, ?_⟩, ?_, ?_⟩
  · simp only [List.length_append, List.length_cons]
    omega
  · rw [List.append_assoc, List.take_left]
    exact List.suffix_append front name
  · rwa [hbetween]
  · rw [hbetween]
    exact endsInDegreeMark_eq_false.mp hunmarked

theorem closesUnmarkedCall_last (text : List Char) (c : Char) :
    ClosesUnmarkedCall (text ++ [c]) text.length ↔ c = ')' ∧ wantsMark text = true := by
  constructor
  · intro h
    have hwants := wantsMark_of_closes h
    obtain ⟨_, _, call⟩ := h
    exact ⟨by simpa using call.closes, hwants⟩
  · rintro ⟨rfl, hwants⟩
    exact closes_of_wantsMark hwants

end Offsets

theorem insertedBefore_concat {chosen chosen' : Nat → Prop} [DecidablePred chosen]
    [DecidablePred chosen'] {text : List Char}
    (same : ∀ offset < text.length, chosen offset ↔ chosen' offset) (extra : List Char) (c : Char) :
    insertedBefore chosen extra (text ++ [c]) =
      insertedBefore chosen' extra text ++ if chosen text.length then extra ++ [c] else [c] := by
  have hkept : insertedBefore chosen extra text = insertedBefore chosen' extra text := by
    refine List.flatMap_congr fun ⟨d, offset⟩ hmem => ?_
    have hinside : offset < text.length := by
      have := List.snd_lt_of_mem_zipIdx hmem
      omega
    simp only [same offset hinside]
  rw [← hkept]
  simp [insertedBefore, List.zipIdx_append]

theorem markBehind_eq (text : List Char) (c : Char) :
    markBehind text c ++ [c] =
      if ClosesUnmarkedCall (text ++ [c]) text.length then ' ' :: degreeMark ++ [c] else [c] := by
  rw [markBehind]
  by_cases hclosing : c = ')' ∧ wantsMark text = true
  · rw [if_pos hclosing, if_pos ((closesUnmarkedCall_last text c).mpr hclosing)]
  · rw [if_neg hclosing, if_neg (mt (closesUnmarkedCall_last text c).mp hclosing), List.nil_append]

/-- Degree marks are put in front of exactly those closing parentheses that want one: the nearest
parenthesis before it is an opening one behind `sin`, `cos` or `tan`, and what stands between the
two is not empty and does not end in a mark, up to blanks. All characters of the text are kept, in
order, and nothing else is added. -/
theorem marks_exactly_the_flat_calls (text : List Char) :
    markDegrees text = insertedBefore (ClosesUnmarkedCall text) (' ' :: degreeMark) text := by
  induction text using List.reverseRecOn with
  | nil => exact markDegrees_nil
  | append_singleton text c ih =>
      rw [markDegrees_concat, ih, markBehind_eq,
        insertedBefore_concat fun _ inside => closesUnmarkedCall_append inside]

/-- The outer call is not flat, and the last one has a mark. -/
example : (List.range 24).filter (ClosesUnmarkedCall "sqrt(sin(9))+cos(4 deg )".toList) = [10] := by
  decide +kernel

end Shorthand
end Calculator
