import Calculator.Proofs.Grammar.Shape

/-!
The parentheses that a list of tokens leaves open.

From the first token to the last, an opening parenthesis is put on a stack and a closing one takes
away the one on top. A phrase closes all the parentheses that it opens and no others, so it leaves
the stack as it is. And the tokens in front of an opening parenthesis do not matter for whether it
is the innermost one that stays open.
-/

namespace Calculator
namespace Grammar

/-- The positions of the parentheses that are open behind a token, innermost first, from those that
are open in front of it. -/
def openBehind (opened : List Nat) (next : PlacedToken) : List Nat :=
  match next.token with
  | .symbol .opening => next.position :: opened
  | .symbol .closing => opened.tail
  | _ => opened

/-- The positions of the opening parentheses that no token closes, innermost first. -/
def unclosed (tokens : List PlacedToken) : List Nat :=
  tokens.foldl openBehind []

theorem openBehind_append (opened outer : List Nat) (next : PlacedToken) :
    ∃ rest, openBehind (opened ++ outer) next = openBehind opened next ++ rest := by
  simp only [openBehind]
  split
  · exact ⟨outer, rfl⟩
  · cases opened with
    | nil => exact ⟨outer.tail, rfl⟩
    | cons => exact ⟨outer, rfl⟩
  · exact ⟨outer, rfl⟩

/-- Parentheses that are open further out stay below those of the tokens. -/
theorem foldl_openBehind_append (tokens : List PlacedToken) (opened outer : List Nat) :
    ∃ rest, tokens.foldl openBehind (opened ++ outer) = tokens.foldl openBehind opened ++ rest := by
  induction tokens generalizing opened outer with
  | nil => exact ⟨outer, rfl⟩
  | cons next tokens ih =>
      obtain ⟨rest, hnext⟩ := openBehind_append opened outer next
      rw [List.foldl_cons, List.foldl_cons, hnext]
      exact ih (openBehind opened next) rest

theorem head?_unclosed_append {tokens : List PlacedToken} {position : Nat}
    (before : List PlacedToken) (h : (unclosed tokens).head? = some position) :
    (unclosed (before ++ tokens)).head? = some position := by
  obtain ⟨rest, hrest⟩ := foldl_openBehind_append tokens [] (unclosed before)
  have happend : unclosed (before ++ tokens) = unclosed tokens ++ rest := by
    rw [unclosed, List.foldl_append]
    exact hrest
  rw [happend, List.head?_append, h, Option.some_or]

/-- Tokens that close what they open and nothing else. -/
def Balanced (tokens : List PlacedToken) : Prop :=
  ∀ opened, tokens.foldl openBehind opened = opened

theorem balanced_nil : Balanced [] :=
  fun _ => rfl

variable {left right : List PlacedToken}

theorem Balanced.append (hleft : Balanced left) (hright : Balanced right) :
    Balanced (left ++ right) := by
  intro opened
  rw [List.foldl_append, hleft, hright]

theorem openBehind_of_no_parenthesis {next : PlacedToken} (h : next.token.parentheses = [])
    (opened : List Nat) : openBehind opened next = opened := by
  simp only [openBehind]
  split
  · rename_i hopening
    simp [hopening, Token.parentheses] at h
  · rename_i hclosing
    simp [hclosing, Token.parentheses] at h
  · rfl

theorem Balanced.join (hleft : Balanced left) (hright : Balanced right) {next : PlacedToken}
    (h : next.token.parentheses = []) : Balanced (left ++ next :: right) := by
  intro opened
  rw [List.foldl_append, hleft, List.foldl_cons, openBehind_of_no_parenthesis h, hright]

theorem Balanced.enclose (h : Balanced left) (opening closing : Nat) :
    Balanced (⟨opening, .symbol .opening⟩ :: (left ++ [⟨closing, .symbol .closing⟩])) := by
  intro opened
  rw [List.foldl_cons, List.foldl_append, h]
  rfl

/-- An opening parenthesis in front of tokens that close what they open stays open. -/
theorem Balanced.unclosed_cons (h : Balanced left) (opening : Nat) :
    unclosed (⟨opening, .symbol .opening⟩ :: left) = [opening] := by
  rw [unclosed, List.foldl_cons, h]
  rfl

example : unclosed [⟨0, .symbol .opening⟩, ⟨1, .symbol .opening⟩, ⟨2, .symbol .closing⟩] = [0] :=
  rfl

theorem Derives.balanced {phrase : Phrase} {tokens : List PlacedToken} {node : Expression}
    {nesting : Nat} (h : Derives phrase tokens node nesting) : Balanced tokens := by
  induction h with
  | literal | reference => exact fun _ => rfl
  | call _ _ opening closing _ ih => exact balanced_nil.join (ih.enclose opening closing) rfl
  | group opening closing _ ih => exact ih.enclose opening closing
  | base _ ih | unsigned _ ih | factor _ ih | term _ ih | plain _ ih => exact ih
  | raise _ _ _ ihLeft ihRight => exact ihLeft.join ihRight rfl
  | sign _ known _ ih => exact balanced_nil.join ih (parentheses_sign known)
  | multiply _ _ _ _ ihLeft ihRight | add _ _ _ _ ihLeft ihRight =>
      exact ihLeft.join ihRight parentheses_operator
  | marked _ _ ih => exact ih.join balanced_nil rfl

end Grammar
end Calculator
