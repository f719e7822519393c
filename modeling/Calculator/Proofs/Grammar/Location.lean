import Calculator.Proofs.Grammar.Soundness
import Calculator.Proofs.Grammar.Unclosed

/-!
Where the errors of the grammar point.

Every error that has a position was made from a token that had not been taken yet, or from one that
the rule had just taken. So the error of a rule points into the tokens that the rule was given. An
unclosed parenthesis is reported only when the tokens behind it are used up, and these are then a
phrase, or several with commas between them, that closes all of its own parentheses.
-/

namespace Calculator

/-- A name stands at a position, with an opening parenthesis as the next token. -/
def Called (tokens : List PlacedToken) (name : String) (position : Nat) : Prop :=
  ∃ opening, [⟨position, .identifier name⟩, ⟨opening, .symbol .opening⟩] <:+: tokens

theorem Called.widen {tokens whole : List PlacedToken} {name : String} {position : Nat}
    (h : Called tokens name position) (inside : tokens <:+: whole) :
    Called whole name position := by
  obtain ⟨opening, hcalled⟩ := h
  exact ⟨opening, hcalled.trans inside⟩

open Grammar

/-- What the tokens have where an error is, if it has a position. An unexpected character is no
error of tokens. -/
def SyntaxError.PointsAt (tokens : List PlacedToken) : SyntaxError → Prop
  | unexpectedCharacter _ _ => False
  | emptyExpression | unexpectedEnd _ => True
  | unexpectedToken text _ position | trailingToken text position =>
    ∃ token, ⟨position, token⟩ ∈ tokens ∧ token.text = text
  | unclosedParenthesis position =>
    ⟨position, .symbol .opening⟩ ∈ tokens ∧ (unclosed tokens).head? = some position
  | argumentCount function _ position => Called tokens function position
  | tooDeep position => ∃ token, ⟨position, token⟩ ∈ tokens

theorem SyntaxError.PointsAt.widen {tokens whole : List PlacedToken} {error : SyntaxError}
    (h : error.PointsAt tokens) (suffix : tokens <:+ whole) : error.PointsAt whole := by
  cases error with
  | unexpectedCharacter => exact h.elim
  | emptyExpression | unexpectedEnd => trivial
  | unexpectedToken | trailingToken =>
      obtain ⟨token, hmem, htext⟩ := h
      exact ⟨token, suffix.subset hmem, htext⟩
  | unclosedParenthesis =>
      obtain ⟨before, rfl⟩ := suffix
      exact ⟨List.mem_append_right before h.1, head?_unclosed_append before h.2⟩
  | argumentCount => exact Called.widen h suffix.isInfix
  | tooDeep =>
      obtain ⟨token, hmem⟩ := h
      exact ⟨token, suffix.subset hmem⟩

namespace Grammar

/-- A rule whose errors point into the tokens that it is given. -/
def Locates (rule : Rule) : Prop :=
  ∀ tokens error, rule.read tokens = .error error → error.PointsAt tokens

variable {phrase : Phrase} {rule inner deeper : Rule} {tokens rest : List PlacedToken}
  {node : Expression} {error : SyntaxError} {opening position : Nat}

theorem Sound.suffix (sound : Sound phrase rule) (h : rule.read tokens = .ok (node, rest)) :
    rest <:+ tokens := by
  obtain ⟨used, _, rfl, -⟩ := sound h
  exact List.suffix_append used rest

theorem build_eq_error (h : build node rest = .error error) : error = .tooDeep node.position := by
  simp only [build] at h
  split at h
  · exact (Except.error.inj h).symm
  · simp at h

theorem Locates.andThen {continued : Expression → List PlacedToken → Reading}
    {shorter_or_same : ∀ {first node tokens rest}, continued first tokens = .ok (node, rest) →
      rest.length ≤ tokens.length}
    (sound : Sound phrase rule) (locates : Locates rule)
    (hcontinued : ∀ {first tokens error}, continued first tokens = .error error →
      error.PointsAt tokens) : Locates (rule.andThen continued shorter_or_same) := by
  intro tokens error h
  rcases bind_eq_error.mp h with hrule | ⟨⟨first, rest⟩, hfirst, hrest⟩
  · exact locates tokens error hrule
  · exact (hcontinued hrest).widen (sound.suffix hfirst)

theorem locates_tooDeep : Locates tooDeep := by
  intro tokens error h
  cases tokens with
  | nil =>
      obtain rfl := Except.error.inj h
      trivial
  | cons next tail =>
      obtain rfl := Except.error.inj h
      exact ⟨next.token, List.mem_cons_self⟩

theorem readChain_locates {operator? : Token → Option BinaryOperator} {operand : Rule}
    {left : Expression} (sound : Sound phrase operand) (locates : Locates operand)
    (h : readChain operator? operand left tokens = .error error) : error.PointsAt tokens := by
  fun_induction readChain operator? operand left tokens with
  | case1 | case2 => simp at h
  | case3 left next tail operator _ found hread =>
      obtain rfl := Except.error.inj h
      exact (locates _ _ hread).widen (List.suffix_cons next tail)
  | case4 left next =>
      obtain rfl := Except.error.inj h
      exact ⟨next.token, List.mem_cons_self⟩
  | case5 left next tail operator _ right after hread tree _ ih =>
      exact (ih h).widen ((sound.suffix hread).trans (List.suffix_cons next tail))

theorem locates_chain {operator? : Token → Option BinaryOperator} {operand : Rule}
    (sound : Sound phrase operand) (locates : Locates operand) :
    Locates (chain operator? operand) :=
  locates.andThen sound (readChain_locates sound locates)

theorem readMark_locates (h : readMark node tokens = .error error) : error.PointsAt tokens := by
  cases tokens with
  | nil => simp [readMark] at h
  | cons next tail =>
      simp only [readMark] at h
      split at h
      · obtain rfl := build_eq_error h
        exact ⟨next.token, List.mem_cons_self⟩
      · simp at h

theorem locates_expression {operand : Rule} (sound : Sound .signed operand)
    (locates : Locates operand) : Locates (expression operand) := by
  have hproduct : Locates (chain Token.multiplicative? operand) := locates_chain sound locates
  have hsum : Locates (sum operand) := locates_chain (sound_product sound) hproduct
  exact hsum.andThen (sound_sum sound) readMark_locates

section Parentheses

variable (sound : Sound .expression inner) (locates : Locates inner)
include sound locates

theorem readGroup_locates (h : readGroup inner opening tokens = .error error) :
    error.PointsAt (⟨opening, .symbol .opening⟩ :: tokens) := by
  rcases bind_eq_error.mp h with hinner | ⟨⟨node, rest⟩, hread, hclosing⟩
  · exact (locates _ _ hinner).widen (List.suffix_cons _ tokens)
  · obtain ⟨used, _, rfl, derives⟩ := sound hread
    cases rest with
    | nil =>
        obtain rfl := Except.error.inj hclosing
        rw [List.append_nil]
        refine ⟨List.mem_cons_self, ?_⟩
        rw [derives.balanced.unclosed_cons]
        rfl
    | cons next after =>
        simp only at hclosing
        split at hclosing
        · simp at hclosing
        · obtain rfl := Except.error.inj hclosing
          exact ⟨next.token, by simp, rfl⟩

/-- The arguments that have been read, with their commas, stand between the parenthesis and the
tokens that are still to come. -/
theorem readArguments_locates (h : readArguments inner opening tokens = .error error)
    {arguments : List PlacedToken} (balanced : Balanced arguments) :
    error.PointsAt (⟨opening, .symbol .opening⟩ :: (arguments ++ tokens)) := by
  fun_induction readArguments inner opening tokens generalizing arguments with
  | case1 tokens found hread =>
      obtain rfl := Except.error.inj h
      have hinside := (locates _ _ hread).widen (List.suffix_append arguments tokens)
      exact hinside.widen (List.suffix_cons _ _)
  | case2 tokens node hread =>
      obtain rfl := Except.error.inj h
      obtain ⟨used, _, rfl, derives⟩ := sound hread
      have hall : Balanced (arguments ++ used) := balanced.append derives.balanced
      rw [List.append_nil]
      refine ⟨List.mem_cons_self, ?_⟩
      rw [hall.unclosed_cons]
      rfl
  | case3 => simp at h
  | case4 tokens node next after hread _ hcomma ih =>
      obtain ⟨used, _, rfl, derives⟩ := sound hread
      rcases bind_eq_error.mp h with hothers | ⟨_, -, h⟩
      · have hcomma : next.token.parentheses = [] := by rw [hcomma]; rfl
        have hall := (balanced.append derives.balanced).join balanced_nil hcomma
        simpa using ih hothers hall
      · simp [pure, Except.pure] at h
  | case5 tokens node next after hread =>
      obtain rfl := Except.error.inj h
      obtain ⟨used, _, rfl, -⟩ := sound hread
      exact ⟨next.token, by simp, rfl⟩

theorem readArgumentList_locates (h : readArgumentList inner opening tokens = .error error) :
    error.PointsAt (⟨opening, .symbol .opening⟩ :: tokens) := by
  cases tokens with
  | nil => exact readArguments_locates sound locates h balanced_nil
  | cons next tail =>
      simp only [readArgumentList] at h
      split at h
      · simp at h
      · exact readArguments_locates sound locates h balanced_nil

theorem readName_locates {name : String} (h : readName inner name position tokens = .error error) :
    error.PointsAt (⟨position, .identifier name⟩ :: tokens) := by
  cases tokens with
  | nil => simp [readName] at h
  | cons next tail =>
      obtain ⟨opening, token⟩ := next
      simp only [readName] at h
      split at h
      · rename_i hopening
        subst hopening
        rcases bind_eq_error.mp h with hread | ⟨⟨arguments, after⟩, -, hcall⟩
        · exact (readArgumentList_locates sound locates hread).widen (List.suffix_cons _ _)
        · simp only at hcall
          split at hcall
          · obtain rfl := build_eq_error hcall
            exact ⟨.identifier name, List.mem_cons_self⟩
          · obtain rfl := Except.error.inj hcall
            exact ⟨opening, [], tail, rfl⟩
      · simp at h

theorem locates_primary : Locates (primary inner) := by
  intro tokens error h
  cases tokens with
  | nil =>
      obtain rfl := Except.error.inj h
      trivial
  | cons next tail =>
      obtain ⟨position, token⟩ := next
      simp only [primary, readPrimary] at h
      split at h
      · simp at h
      · exact readName_locates sound locates h
      · exact readGroup_locates sound locates h
      · obtain rfl := Except.error.inj h
        exact ⟨token, List.mem_cons_self, rfl⟩

end Parentheses

section Levels

variable (sound : Sound .signed deeper) (locates : Locates deeper)
include sound locates

omit sound in
theorem readExponent_locates (h : readExponent deeper node tokens = .error error) :
    error.PointsAt tokens := by
  cases tokens with
  | nil => simp [readExponent] at h
  | cons next tail =>
      simp only [readExponent] at h
      split at h
      · rcases bind_eq_error.mp h with hread | ⟨_, -, hnode⟩
        · exact (locates _ _ hread).widen (List.suffix_cons next tail)
        · obtain rfl := build_eq_error hnode
          exact ⟨next.token, List.mem_cons_self⟩
      · simp at h

theorem locates_power : Locates (power deeper) :=
  (locates_primary (sound_expression sound) (locates_expression sound locates)).andThen
    (sound_primary (sound_expression sound)) (readExponent_locates locates)

theorem locates_signed : Locates (signed deeper) := by
  intro tokens error h
  cases tokens with
  | nil => exact locates_power sound locates _ _ h
  | cons next tail =>
      simp only [signed] at h
      split at h
      · exact locates_power sound locates _ _ h
      · rcases bind_eq_error.mp h with hread | ⟨_, -, hnode⟩
        · exact (locates _ _ hread).widen (List.suffix_cons next tail)
        · obtain rfl := build_eq_error hnode
          exact ⟨next.token, List.mem_cons_self⟩

end Levels

theorem locates_operand (levels : Nat) : Locates (operand levels) := by
  induction levels with
  | zero => exact locates_tooDeep
  | succ levels ih => exact locates_signed (sound_operand levels) ih

/-- An error in a list of tokens points at one of them, if it has a position. -/
theorem pointsAt_of_ofTokens (h : Expression.ofTokens tokens = .error error) :
    error.PointsAt tokens := by
  cases tokens with
  | nil =>
      obtain rfl := Except.error.inj h
      trivial
  | cons first tail =>
      have hoperand : Sound .signed (operand (depthLimit + 1)) := sound_operand _
      have locates := locates_expression hoperand (locates_operand _)
      rcases bind_eq_error.mp h with hread | ⟨⟨node, rest⟩, hread, hrest⟩
      · exact locates _ _ hread
      · cases rest with
        | nil => simp at hrest
        | cons next after =>
            obtain rfl := Except.error.inj hrest
            have hsuffix := Sound.suffix (sound_expression hoperand) hread
            exact ⟨next.token, hsuffix.subset List.mem_cons_self, rfl⟩

end Grammar
end Calculator
