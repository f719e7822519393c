import Calculator.Proofs.Shorthand.Slices
import Calculator.Proofs.Token.Slices
import Calculator.Session

/-!
No text is cut out of its bounds or through a character.

Everything that looks into a text by numbers of bytes is written here with cuts that can fail, next
to the definitions that work on its characters. Both have the same results on every text, so no cut
fails, nor does a step that marks a text leave all of it to the next one.
-/

namespace Calculator
namespace Bytewise

/-- A text without its character behind a number of bytes. -/
def removeAt? (count : Nat) (text : List Char) : Option (List Char) := do
  match ← splitAt? count text with
  | (_, []) => none
  | (front, _ :: rest) => some (front ++ rest)

def toggleSign? (buffer : String) : Option String :=
  let text := buffer.toList
  if text = [] then some buffer
  else if text.head? = some '-' then (removeAt? 0 text).map String.ofList
  else some (String.ofList ('-' :: text))

theorem toggleSign?_eq (buffer : String) :
    toggleSign? buffer = some (Session.toggleSign buffer) := by
  rw [toggleSign?, Session.toggleSign]
  cases htext : buffer.toList with
  | nil => rw [if_pos rfl, String.toList_eq_nil_iff.mp htext]
  | cons c rest =>
      simp only [reduceCtorEq, if_false, List.head?_cons, Option.some.injEq]
      split
      · rfl
      · rfl

end Bytewise

/-- A cut is in bounds where the position is valid in the string. All the cuts that flat calls,
degree marks, leading numbers, unexpected characters and the sign of the buffer need are, in every
text, and each step that marks degrees uses up a character. -/
theorem slices_in_bounds (text : String) :
    (∀ count, (splitAt? count text.toList).isSome ↔ String.Pos.Raw.IsValid text ⟨count⟩) ∧
    (bytes text.toList).toByteArray = text.toByteArray ∧
    (∀ count, (bytesFrom? count (bytes text.toList)).isSome ↔ count ≤ text.utf8ByteSize) ∧
    Bytewise.flatCall? text.toList =
      some ((Shorthand.flatCall? text.toList).map fun found =>
        (found.1.head.dropLast, found.1.argument, byteCount found.1.text)) ∧
    Bytewise.markDegrees? text.toList = some (Shorthand.markDegrees text.toList) ∧
    (∀ c tail, ∃ out rest, Bytewise.markStep? c tail = some (out, rest) ∧ rest <:+ tail) ∧
    Bytewise.leadingNumber? text = some (leadingNumber text) ∧
    Bytewise.tokenize? text = some (tokenize text) ∧
    Bytewise.toggleSign? text = some (Session.toggleSign text) := by
  refine ⟨fun count => ?_, ?_, fun count => ?_, Bytewise.flatCall?_eq _,
    Bytewise.markDegrees?_eq _, fun c tail => ?_, Bytewise.leadingNumber?_eq text,
    Bytewise.tokenize?_eq text, Bytewise.toggleSign?_eq text⟩
  · rw [isSome_splitAt?_iff, String.ofList_toList]
  · rw [toByteArray_bytes, String.ofList_toList]
  · rw [isSome_bytesFrom?_iff, length_bytes, byteCount_eq, String.ofList_toList]
  · have hstep := Bytewise.markStep?_eq c tail
    exact ⟨_, _, hstep, Bytewise.suffix_of_markStep hstep⟩

end Calculator
