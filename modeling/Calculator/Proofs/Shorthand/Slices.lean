import Calculator.Proofs.Shorthand.Marking
import Calculator.Proofs.Text.Slice

/-!
Degree marks that are set by cutting the text at numbers of bytes.

A flat call is found by the bytes of its name, of its parentheses and of what is between them, and
the text is cut behind the sums of these numbers. Each cut comes out right, whatever characters the
argument and the rest of the text are made of, so the search has an answer for every text: in an
`Option` around another one, the outer is empty only where a cut fails.
-/

namespace Calculator
namespace Bytewise

open Shorthand

/-- The number of bytes in front of the first character of a kind. -/
def find? (p : Char → Bool) : List Char → Option Nat
  | [] => none
  | c :: text => if p c then some 0 else (find? p text).map (c.utf8Size + ·)

/-- The first of some names that is called at the front of a text. -/
def calledName? (text : List Char) : List (List Char) → Option (Option (List Char))
  | [] => some none
  | name :: names =>
    if name.isPrefixOf text then do
      let (_, rest) ← splitAt? (byteCount name) text
      if rest.head? = some '(' then some (some name) else calledName? text names
    else calledName? text names

/-- The name and the argument of the flat call at the front of a text, and its number of bytes. -/
def flatCall? (text : List Char) : Option (Option (List Char × List Char × Nat)) := do
  match ← calledName? text trigNames with
  | none => some none
  | some name =>
    let (_, body) ← splitAt? (byteCount name + 1) text
    match find? isParenthesis body with
    | none => some none
    | some close =>
      if close = 0 then some none
      else
        let (argument, rest) ← splitAt? close body
        if rest.head? = some ')' then some (some (name, argument, byteCount name + 1 + close + 1))
        else some none

/-- What is written for the front of a text that is not empty, and the text that is left. -/
def markStep? (c : Char) (tail : List Char) : Option (List Char × List Char) := do
  match ← flatCall? (c :: tail) with
  | some (name, argument, length) =>
    let (call, rest) ← splitAt? length (c :: tail)
    if endsInDegreeMark argument then some (call, rest)
    else some (name ++ '(' :: argument ++ ' ' :: degreeMark ++ [')'], rest)
  | none =>
    let (_, rest) ← splitAt? c.utf8Size (c :: tail)
    some ([c], rest)

section Search

variable {p : Char → Bool} {text : List Char}

theorem find?_eq (p : Char → Bool) (text : List Char) :
    find? p text =
      if text.dropWhile (!p ·) = [] then none else some (byteCount (text.takeWhile (!p ·))) := by
  induction text with
  | nil => rfl
  | cons c text ih =>
      cases hc : p c with
      | true => simp [find?, hc, byteCount]
      | false =>
          simp only [find?, hc, Bool.false_eq_true, if_false, ih, Bool.not_false,
            List.dropWhile_cons_of_pos, List.takeWhile_cons_of_pos]
          split <;> rfl

theorem isPrefixOf_call (name rest : List Char) :
    (name ++ ['(']).isPrefixOf (name ++ rest) = decide (rest.head? = some '(') := by
  rw [Bool.eq_iff_iff, List.isPrefixOf_iff_prefix, List.prefix_append_right_inj, decide_eq_true_iff]
  cases rest with
  | nil => simp
  | cons c rest => simp [eq_comm]

theorem calledName?_eq (text : List Char) (names : List (List Char)) :
    calledName? text names = some (names.find? fun name => (name ++ ['(']).isPrefixOf text) := by
  induction names with
  | nil => rfl
  | cons name names ih =>
      rw [calledName?, List.find?_cons]
      split
      · rename_i hname
        obtain ⟨rest, rfl⟩ := List.isPrefixOf_iff_prefix.mp hname
        rw [splitAt?_append, Option.bind_eq_bind, Option.bind_some, isPrefixOf_call, ih]
        by_cases hopening : rest.head? = some '(' <;> simp [hopening]
      · rename_i hname
        have hcalled : (name ++ ['(']).isPrefixOf text = false := by
          by_contra h
          have hlonger := List.isPrefixOf_iff_prefix.mp (Bool.not_eq_false _ ▸ h)
          exact hname (List.isPrefixOf_iff_prefix.mpr ((List.prefix_append _ _).trans hlonger))
        rw [ih, hcalled]

theorem flatCall?_of_not_called (h : ∀ name ∈ trigNames, ¬ name ++ ['('] <+: text) :
    Shorthand.flatCall? text = none := by
  by_contra hcall
  obtain ⟨⟨call, rest⟩, hcall⟩ := Option.ne_none_iff_exists'.mp hcall
  obtain ⟨hhead, -, -, rfl⟩ := flatCall?_eq_some.mp hcall
  obtain ⟨name, hname, hcalled⟩ := mem_trigHeads_iff.mp hhead
  refine h name hname ?_
  rw [← hcalled, FlatCall.text, List.append_assoc, List.append_assoc]
  exact List.prefix_append _ _

/-- The flat call at the front of a text is found by its bytes. -/
theorem flatCall?_eq (text : List Char) :
    flatCall? text = some ((Shorthand.flatCall? text).map fun found =>
      (found.1.head.dropLast, found.1.argument, byteCount found.1.text)) := by
  rw [flatCall?, calledName?_eq, Option.bind_eq_bind, Option.bind_some]
  cases hfind : trigNames.find? fun name => (name ++ ['(']).isPrefixOf text with
  | none =>
      have hcall : Shorthand.flatCall? text = none := flatCall?_of_not_called fun name hname h =>
        List.find?_eq_none.mp hfind name hname (List.isPrefixOf_iff_prefix.mpr h)
      rw [hcall]
      rfl
  | some name =>
      have hname : name ∈ trigNames := List.mem_of_find?_eq_some hfind
      have hcalled : (name ++ ['(']).isPrefixOf text = true := by simpa using List.find?_some hfind
      obtain ⟨body, rfl⟩ := List.isPrefixOf_iff_prefix.mp hcalled
      have hopening : byteCount name + 1 = byteCount (name ++ ['(']) :=
        (byteCount_append name ['(']).symm
      have hstop : ∀ c ∈ (body.dropWhile (!isParenthesis ·)).head?, c = '(' ∨ c = ')' := by
        intro c hc
        have hother := List.head?_dropWhile_not (!isParenthesis ·) body
        rw [hc] at hother
        have hparenthesis : isParenthesis c = true := by simpa using hother
        simpa [isParenthesis] using hparenthesis
      have hbody := @List.takeWhile_append_dropWhile _ (!isParenthesis ·) body
      rw [flatCall?_of_head (mem_trigHeads_iff.mpr ⟨name, hname, rfl⟩)]
      dsimp only
      rw [hopening, splitAt?_append, Option.bind_eq_bind, Option.bind_some, find?_eq]
      generalize body.takeWhile (!isParenthesis ·) = argument at hbody ⊢
      generalize body.dropWhile (!isParenthesis ·) = behind at hbody hstop ⊢
      subst hbody
      cases behind with
      | nil => rfl
      | cons c rest =>
          simp only [reduceCtorEq, if_false, splitAt?_append, Option.bind_some, List.head?_cons,
            byteCount_eq_zero_iff]
          have hclosing : byteCount [')'] = 1 := rfl
          rcases hstop c rfl with rfl | rfl <;>
            by_cases hargument : argument = [] <;>
            simp [hargument, FlatCall.text, byteCount_append, hclosing, Nat.add_assoc]

end Search

theorem append_of_trigHead {head : List Char} (h : head ∈ trigHeads) (text : List Char) :
    head.dropLast ++ '(' :: text = head ++ text := by
  obtain ⟨name, -, rfl⟩ := mem_trigHeads_iff.mp h
  simp

theorem markStep?_eq (c : Char) (tail : List Char) :
    markStep? c tail = some (match Shorthand.flatCall? (c :: tail) with
      | some (call, rest) => (call.marked, rest)
      | none => ([c], tail)) := by
  rw [markStep?, flatCall?_eq, Option.bind_eq_bind, Option.bind_some]
  cases hcall : Shorthand.flatCall? (c :: tail) with
  | none =>
      have hsplit := splitAt?_append [c] tail
      rw [List.singleton_append] at hsplit
      show (splitAt? (byteCount [c]) (c :: tail)).bind _ = _
      rw [hsplit]
      rfl
  | some found =>
      obtain ⟨call, rest⟩ := found
      obtain ⟨hhead, -, -, htext⟩ := flatCall?_eq_some.mp hcall
      dsimp only [Option.map_some]
      rw [htext, splitAt?_append, Option.bind_eq_bind, Option.bind_some, FlatCall.marked]
      split
      · rfl
      · simp [append_of_trigHead hhead]

/-- A step uses up the first character at least. -/
theorem suffix_of_markStep {c : Char} {tail out rest : List Char}
    (h : markStep? c tail = some (out, rest)) : rest <:+ tail := by
  rw [markStep?_eq] at h
  split at h
  · rename_i call after hcall
    obtain ⟨-, rfl⟩ := Prod.mk.inj (Option.some.inj h)
    have htext := text_append_of_flatCall hcall
    cases hfront : call.text with
    | nil => simp [FlatCall.text] at hfront
    | cons d more =>
        rw [hfront, List.cons_append] at htext
        exact ⟨more, (List.cons.inj htext).2⟩
  · obtain ⟨-, rfl⟩ := Prod.mk.inj (Option.some.inj h)
    exact List.suffix_rfl

/-- What the steps write, one behind the other, until no text is left. -/
def markDegrees? : List Char → Option (List Char)
  | [] => some []
  | c :: tail =>
    match _h : markStep? c tail with
    | none => none
    | some (out, rest) => (markDegrees? rest).map (out ++ ·)
termination_by text => text.length
decreasing_by exact Nat.lt_succ_of_le (suffix_of_markStep _h).length_le

theorem markDegrees?_of_step {c : Char} {tail out rest : List Char}
    (h : markStep? c tail = some (out, rest)) :
    markDegrees? (c :: tail) = (markDegrees? rest).map (out ++ ·) := by
  rw [markDegrees?]
  split
  · simp_all
  · rename_i hother
    rw [h] at hother
    obtain ⟨rfl, rfl⟩ := Prod.mk.inj (Option.some.inj hother)
    rfl

theorem markDegrees?_eq (text : List Char) : markDegrees? text = some (markDegrees text) := by
  fun_induction markDegrees text with
  | case1 => rw [markDegrees?]
  | case2 c tail call rest hcall ih | case3 c tail hcall ih =>
      have hstep := markStep?_eq c tail
      rw [hcall] at hstep
      rw [markDegrees?_of_step hstep, ih]
      rfl

end Bytewise
end Calculator
