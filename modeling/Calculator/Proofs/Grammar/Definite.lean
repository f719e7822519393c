import Calculator.Proofs.Grammar.Completeness

/-!
Errors that no further tokens change.

The rules look at most one token ahead. So a reading that leaves a token behind does the same in
front of more tokens, and an error about a token, or about the arguments of a call that is closed,
stays the error when more tokens follow. The other errors depend on where the tokens end: at the
end something is missing, and the height of a tree is only known once all of it has been read.
-/

namespace Calculator

/-- Errors about a token that may not stand where it does, and about a call that is complete. -/
def SyntaxError.Definite : SyntaxError → Prop
  | unexpectedToken _ _ _ | trailingToken _ _ | argumentCount _ _ _ => True
  | unexpectedCharacter _ _ | emptyExpression | unexpectedEnd _ | unclosedParenthesis _
  | tooDeep _ => False

namespace Grammar

variable {α : Type} {rule inner deeper : Rule} {tokens rest : List PlacedToken}
  {node : Expression} {error : SyntaxError} {opening position : Nat}

/-- A reader that does the same in front of more tokens, unless it has used its own up or fails for
the want of more. -/
structure Stable (read : List PlacedToken → Except SyntaxError (α × List PlacedToken)) : Prop where
  ok : ∀ {tokens value rest}, read tokens = .ok (value, rest) → rest ≠ [] →
    ∀ more, read (tokens ++ more) = .ok (value, rest ++ more)
  error : ∀ {tokens error}, read tokens = .error error → error.Definite →
    ∀ more, read (tokens ++ more) = .error error
  empty : ∀ {error}, read [] = .error error → ¬ error.Definite

theorem not_definite_of_build (h : build node rest = .error error) : ¬ error.Definite := by
  simp only [build] at h
  split at h
  · obtain rfl := Except.error.inj h
    exact id
  · simp at h

theorem build_append {tree : Expression} {after : List PlacedToken}
    (h : build node rest = .ok (tree, after)) (more : List PlacedToken) :
    build node (rest ++ more) = .ok (tree, after ++ more) := by
  obtain ⟨hheight, rfl, rfl⟩ := build_eq_ok.mp h
  exact build_eq_ok.mpr ⟨hheight, rfl, rfl⟩

theorem Stable.andThen {continued : Expression → List PlacedToken → Reading}
    {shorter_or_same : ∀ {first node tokens rest}, continued first tokens = .ok (node, rest) →
      rest.length ≤ tokens.length}
    (stable : Stable rule.read) (continues : ∀ first, Stable (continued first)) :
    Stable (rule.andThen continued shorter_or_same).read where
  ok {tokens node after} h hafter more := by
    obtain ⟨⟨first, rest⟩, hfirst, hrest⟩ := bind_eq_ok.mp h
    have hne : rest ≠ [] := by
      rintro rfl
      exact hafter (List.length_eq_zero_iff.mp (Nat.le_zero.mp (shorter_or_same hrest)))
    exact bind_eq_ok.mpr ⟨_, stable.ok hfirst hne more, (continues first).ok hrest hafter more⟩
  error {tokens error} h definite more := by
    rcases bind_eq_error.mp h with hfirst | ⟨⟨first, rest⟩, hfirst, hrest⟩
    · exact bind_eq_error.mpr (.inl (stable.error hfirst definite more))
    · have hne : rest ≠ [] := by
        rintro rfl
        exact (continues first).empty hrest definite
      exact bind_eq_error.mpr
        (.inr ⟨_, stable.ok hfirst hne more, (continues first).error hrest definite more⟩)
  empty h := by
    rcases bind_eq_error.mp h with hfirst | ⟨⟨first, rest⟩, hfirst, -⟩
    · exact stable.empty hfirst
    · exact absurd (rule.shorter hfirst) (Nat.not_lt_zero _)

theorem stable_tooDeep : Stable tooDeep.read where
  ok {tokens _ _} h := by cases tokens <;> simp [tooDeep] at h
  error {tokens _} h definite := by
    cases tokens <;> obtain rfl := Except.error.inj h <;> exact definite.elim
  empty h := by
    obtain rfl := Except.error.inj h
    exact id

section Chains

variable {operator? : Token → Option BinaryOperator} {operand : Rule} {left : Expression}

theorem readChain_nil : readChain operator? operand left [] = .ok (left, []) :=
  readChain_stop nofun

theorem readChain_append (stable : Stable operand.read)
    (h : readChain operator? operand left tokens = .ok (node, rest)) (hrest : rest ≠ [])
    (more : List PlacedToken) :
    readChain operator? operand left (tokens ++ more) = .ok (node, rest ++ more) := by
  fun_induction readChain operator? operand left tokens with
  | case1 left =>
      obtain ⟨-, rfl⟩ := Prod.mk.inj (Except.ok.inj h)
      exact absurd rfl hrest
  | case2 left next tail hnext =>
      obtain ⟨rfl, rfl⟩ := Prod.mk.inj (Except.ok.inj h)
      exact readChain_stop (by simpa using hnext)
  | case3 | case4 => simp at h
  | case5 left next tail operator hnext right after hread tree hheight ih =>
      have hafter : after ≠ [] := by
        rintro rfl
        obtain ⟨-, rfl⟩ := Prod.mk.inj (Except.ok.inj (readChain_nil.symm.trans h))
        exact hrest rfl
      rw [List.cons_append, readChain_of_ok hnext (stable.ok hread hafter more), if_neg hheight]
      exact ih h

theorem readChain_append_of_error (stable : Stable operand.read)
    (h : readChain operator? operand left tokens = .error error) (definite : error.Definite)
    (more : List PlacedToken) :
    readChain operator? operand left (tokens ++ more) = .error error := by
  fun_induction readChain operator? operand left tokens with
  | case1 | case2 => simp at h
  | case3 left next tail operator hnext found hread =>
      obtain rfl := Except.error.inj h
      rw [List.cons_append]
      exact readChain_of_error hnext (stable.error hread definite more)
  | case4 =>
      obtain rfl := Except.error.inj h
      exact definite.elim
  | case5 left next tail operator hnext right after hread tree hheight ih =>
      have hafter : after ≠ [] := by
        rintro rfl
        simp [readChain_nil] at h
      rw [List.cons_append, readChain_of_ok hnext (stable.ok hread hafter more), if_neg hheight]
      exact ih h

theorem stable_readChain (stable : Stable operand.read) (left : Expression) :
    Stable (readChain operator? operand left) where
  ok := readChain_append stable
  error := readChain_append_of_error stable
  empty h := by simp [readChain_nil] at h

theorem stable_chain (stable : Stable operand.read) : Stable (chain operator? operand).read :=
  stable.andThen (stable_readChain stable)

end Chains

theorem stable_readMark (first : Expression) : Stable (readMark first) where
  ok {tokens _ _} h hrest more := by
    cases tokens with
    | nil =>
        obtain ⟨-, rfl⟩ := Prod.mk.inj (Except.ok.inj h)
        exact absurd rfl hrest
    | cons next tail =>
        simp only [List.cons_append, readMark] at h ⊢
        split at h
        · rename_i hmark
          rw [if_pos hmark]
          exact build_append h more
        · rename_i hother
          obtain ⟨rfl, rfl⟩ := Prod.mk.inj (Except.ok.inj h)
          rw [if_neg hother]
          rfl
  error {tokens _} h definite := by
    cases tokens with
    | nil => simp [readMark] at h
    | cons next tail =>
        simp only [readMark] at h
        split at h
        · exact absurd definite (not_definite_of_build h)
        · simp at h
  empty h := by simp [readMark] at h

theorem stable_expression {operand : Rule} (stable : Stable operand.read) :
    Stable (expression operand).read :=
  (stable_chain (stable_chain stable)).andThen stable_readMark

section Parentheses

variable (stable : Stable inner.read)
include stable

theorem stable_readGroup (opening : Nat) : Stable (readGroup inner opening) where
  ok {tokens _ _} h _ more := by
    obtain ⟨⟨node, rest⟩, hread, hclosing⟩ := bind_eq_ok.mp h
    cases rest with
    | nil => simp at hclosing
    | cons next after =>
        refine bind_eq_ok.mpr ⟨_, stable.ok hread (List.cons_ne_nil _ _) more, ?_⟩
        simp only [List.cons_append] at hclosing ⊢
        split at hclosing
        · rename_i htoken
          obtain ⟨rfl, rfl⟩ := Prod.mk.inj (Except.ok.inj hclosing)
          rw [if_pos htoken]
        · simp at hclosing
  error {tokens _} h definite more := by
    rcases bind_eq_error.mp h with hread | ⟨⟨node, rest⟩, hread, hclosing⟩
    · exact bind_eq_error.mpr (.inl (stable.error hread definite more))
    · cases rest with
      | nil =>
          obtain rfl := Except.error.inj hclosing
          exact definite.elim
      | cons next after =>
          refine bind_eq_error.mpr (.inr ⟨_, stable.ok hread (List.cons_ne_nil _ _) more, ?_⟩)
          simp only [List.cons_append] at hclosing ⊢
          split at hclosing
          · simp at hclosing
          · rename_i htoken
            rw [if_neg htoken]
            exact hclosing
  empty h := by
    rcases bind_eq_error.mp h with hread | ⟨⟨node, rest⟩, hread, -⟩
    · exact stable.empty hread
    · exact absurd (inner.shorter hread) (Nat.not_lt_zero _)

omit stable in
theorem readArguments_of_error (h : inner.read tokens = .error error) :
    readArguments inner opening tokens = .error error := by
  rw [readArguments]
  split <;> simp_all

omit stable in
theorem readArguments_of_next {argument : Expression} {next : PlacedToken}
    {after : List PlacedToken} (h : inner.read tokens = .ok (argument, next :: after)) :
    readArguments inner opening tokens =
      if next.token = .symbol .closing then .ok ([argument], after)
      else if next.token = .symbol .comma then do
        let (others, rest) ← readArguments inner opening after
        return (argument :: others, rest)
      else .error (.unexpectedToken next.token.text .separator next.position) := by
  rw [readArguments]
  split
  · simp_all
  · simp_all
  · rename_i hread
    rw [h] at hread
    obtain ⟨rfl, hrest⟩ := Prod.mk.inj (Except.ok.inj hread)
    obtain ⟨rfl, rfl⟩ := List.cons.inj hrest
    rfl

/-- A list of arguments ends with its parenthesis, even if no token follows. -/
theorem readArguments_append {nodes : List Expression}
    (h : readArguments inner opening tokens = .ok (nodes, rest)) (more : List PlacedToken) :
    readArguments inner opening (tokens ++ more) = .ok (nodes, rest ++ more) := by
  fun_induction readArguments inner opening tokens generalizing nodes rest with
  | case1 | case2 | case5 => simp at h
  | case3 tokens argument next after hread hclosing =>
      obtain ⟨rfl, rfl⟩ := Prod.mk.inj (Except.ok.inj h)
      have hmore := stable.ok hread (List.cons_ne_nil _ _) more
      rw [List.cons_append] at hmore
      rw [readArguments_of_next hmore, if_pos hclosing]
  | case4 tokens argument next after hread hclosing hcomma ih =>
      have hmore := stable.ok hread (List.cons_ne_nil _ _) more
      rw [List.cons_append] at hmore
      obtain ⟨⟨others, last⟩, hothers, hlast⟩ := bind_eq_ok.mp h
      obtain ⟨rfl, rfl⟩ := Prod.mk.inj (Except.ok.inj hlast)
      rw [readArguments_of_next hmore, if_neg hclosing, if_pos hcomma, ih hothers]
      rfl

theorem readArguments_append_of_error (h : readArguments inner opening tokens = .error error)
    (definite : error.Definite) (more : List PlacedToken) :
    readArguments inner opening (tokens ++ more) = .error error := by
  fun_induction readArguments inner opening tokens with
  | case1 tokens found hread =>
      obtain rfl := Except.error.inj h
      exact readArguments_of_error (stable.error hread definite more)
  | case2 =>
      obtain rfl := Except.error.inj h
      exact definite.elim
  | case3 => simp at h
  | case4 tokens argument next after hread hclosing hcomma ih =>
      have hmore := stable.ok hread (List.cons_ne_nil _ _) more
      rw [List.cons_append] at hmore
      rw [readArguments_of_next hmore, if_neg hclosing, if_pos hcomma]
      rcases bind_eq_error.mp h with hothers | ⟨_, -, hlast⟩
      · rw [ih hothers]
        rfl
      · simp [pure, Except.pure] at hlast
  | case5 tokens argument next after hread hclosing hcomma =>
      have hmore := stable.ok hread (List.cons_ne_nil _ _) more
      rw [List.cons_append] at hmore
      rw [readArguments_of_next hmore, if_neg hclosing, if_neg hcomma]
      exact h

theorem readArgumentList_append {nodes : List Expression}
    (h : readArgumentList inner opening tokens = .ok (nodes, rest)) (more : List PlacedToken) :
    readArgumentList inner opening (tokens ++ more) = .ok (nodes, rest ++ more) := by
  cases tokens with
  | nil =>
      -- Without a token there is no argument, and the list does not end.
      have hlength := length_lt_of_readArguments h
      simp at hlength
  | cons next tail =>
      simp only [List.cons_append, readArgumentList] at h ⊢
      split at h
      · rename_i hclosing
        obtain ⟨rfl, rfl⟩ := Prod.mk.inj (Except.ok.inj h)
        rw [if_pos hclosing]
      · rename_i hclosing
        rw [if_neg hclosing]
        exact readArguments_append stable h more

theorem not_definite_of_readArguments_nil (h : readArguments inner opening [] = .error error) :
    ¬ error.Definite := by
  rw [readArguments] at h
  split at h
  · rename_i hread
    obtain rfl := Except.error.inj h
    exact stable.empty hread
  · obtain rfl := Except.error.inj h
    exact id
  · rename_i hread
    exact absurd (inner.shorter hread) (Nat.not_lt_zero _)

theorem readArgumentList_append_of_error
    (h : readArgumentList inner opening tokens = .error error) (definite : error.Definite)
    (more : List PlacedToken) :
    readArgumentList inner opening (tokens ++ more) = .error error := by
  cases tokens with
  | nil => exact absurd definite (not_definite_of_readArguments_nil stable h)
  | cons next tail =>
      simp only [List.cons_append, readArgumentList] at h ⊢
      split at h
      · simp at h
      · rename_i hclosing
        rw [if_neg hclosing]
        exact readArguments_append_of_error stable h definite more

theorem stable_readName (name : String) (position : Nat) :
    Stable (readName inner name position) where
  ok {tokens _ _} h hrest more := by
    cases tokens with
    | nil =>
        obtain ⟨-, rfl⟩ := Prod.mk.inj (Except.ok.inj h)
        exact absurd rfl hrest
    | cons next tail =>
        simp only [List.cons_append, readName] at h ⊢
        split at h
        · rename_i hopening
          obtain ⟨⟨arguments, after⟩, hread, hcall⟩ := bind_eq_ok.mp h
          rw [if_pos hopening, readArgumentList_append stable hread more]
          simp only at hcall
          split at hcall
          · exact build_append hcall more
          · simp at hcall
        · rename_i hother
          obtain ⟨rfl, rfl⟩ := Prod.mk.inj (Except.ok.inj h)
          rw [if_neg hother]
          rfl
  error {tokens _} h definite more := by
    cases tokens with
    | nil => simp [readName] at h
    | cons next tail =>
        simp only [List.cons_append, readName] at h ⊢
        split at h
        · rename_i hopening
          rw [if_pos hopening]
          rcases bind_eq_error.mp h with hread | ⟨⟨arguments, after⟩, hread, hcall⟩
          · rw [readArgumentList_append_of_error stable hread definite more]
            rfl
          · rw [readArgumentList_append stable hread more]
            simp only at hcall
            split at hcall
            · exact absurd definite (not_definite_of_build hcall)
            · rename_i hcount
              obtain rfl := Except.error.inj hcall
              cases arguments with
              | nil => rfl
              | cons argument others =>
                  cases others with
                  | nil => exact absurd rfl (hcount argument)
                  | cons => rfl
        · simp at h
  empty h := by simp [readName] at h

theorem stable_primary : Stable (primary inner).read where
  ok {tokens _ _} h hrest more := by
    cases tokens with
    | nil => simp [primary, readPrimary] at h
    | cons next tail =>
        obtain ⟨position, token⟩ := next
        simp only [primary, List.cons_append, readPrimary] at h ⊢
        split at h
        · obtain ⟨rfl, rfl⟩ := Prod.mk.inj (Except.ok.inj h)
          rfl
        · exact (stable_readName stable _ position).ok h hrest more
        · exact (stable_readGroup stable position).ok h hrest more
        · simp at h
  error {tokens _} h definite more := by
    cases tokens with
    | nil =>
        obtain rfl := Except.error.inj h
        exact definite.elim
    | cons next tail =>
        obtain ⟨position, token⟩ := next
        simp only [primary, List.cons_append, readPrimary] at h ⊢
        split at h
        · simp at h
        · exact (stable_readName stable _ position).error h definite more
        · exact (stable_readGroup stable position).error h definite more
        · exact h
  empty h := by
    obtain rfl := Except.error.inj h
    exact id

end Parentheses

section Levels

variable (stable : Stable deeper.read)
include stable

theorem stable_readExponent (base : Expression) : Stable (readExponent deeper base) where
  ok {tokens _ _} h hrest more := by
    cases tokens with
    | nil =>
        obtain ⟨-, rfl⟩ := Prod.mk.inj (Except.ok.inj h)
        exact absurd rfl hrest
    | cons next tail =>
        simp only [List.cons_append, readExponent] at h ⊢
        split at h
        · rename_i hcaret
          obtain ⟨⟨exponent, after⟩, hread, hnode⟩ := bind_eq_ok.mp h
          have hafter : after ≠ [] := by
            obtain ⟨-, -, rfl⟩ := build_eq_ok.mp hnode
            exact hrest
          rw [if_pos hcaret, stable.ok hread hafter more]
          exact build_append hnode more
        · rename_i hother
          obtain ⟨rfl, rfl⟩ := Prod.mk.inj (Except.ok.inj h)
          rw [if_neg hother]
          rfl
  error {tokens _} h definite more := by
    cases tokens with
    | nil => simp [readExponent] at h
    | cons next tail =>
        simp only [List.cons_append, readExponent] at h ⊢
        split at h
        · rename_i hcaret
          rcases bind_eq_error.mp h with hread | ⟨_, -, hnode⟩
          · rw [if_pos hcaret, stable.error hread definite more]
            rfl
          · exact absurd definite (not_definite_of_build hnode)
        · simp at h
  empty h := by simp [readExponent] at h

theorem stable_power : Stable (power deeper).read :=
  (stable_primary (stable_expression stable)).andThen (stable_readExponent stable)

theorem stable_signed : Stable (signed deeper).read where
  ok {tokens _ _} h hrest more := by
    cases tokens with
    | nil => exact absurd ((power deeper).shorter h) (Nat.not_lt_zero _)
    | cons next tail =>
        simp only [List.cons_append, signed] at h ⊢
        split at h
        · exact (stable_power stable).ok h hrest more
        · obtain ⟨⟨operand, after⟩, hread, hnode⟩ := bind_eq_ok.mp h
          have hafter : after ≠ [] := by
            obtain ⟨-, -, rfl⟩ := build_eq_ok.mp hnode
            exact hrest
          rw [stable.ok hread hafter more]
          exact build_append hnode more
  error {tokens _} h definite more := by
    cases tokens with
    | nil => exact absurd definite ((stable_power stable).empty h)
    | cons next tail =>
        simp only [List.cons_append, signed] at h ⊢
        split at h
        · exact (stable_power stable).error h definite more
        · rcases bind_eq_error.mp h with hread | ⟨_, -, hnode⟩
          · rw [stable.error hread definite more]
            rfl
          · exact absurd definite (not_definite_of_build hnode)
  empty h := (stable_power stable).empty h

end Levels

theorem stable_operand (levels : Nat) : Stable (operand levels).read := by
  induction levels with
  | zero => exact stable_tooDeep
  | succ levels ih => exact stable_signed ih

/-- A definite error of a list of tokens is the error of every longer list. -/
theorem ofTokens_append_of_error (h : Expression.ofTokens tokens = .error error)
    (definite : error.Definite) (more : List PlacedToken) :
    Expression.ofTokens (tokens ++ more) = .error error := by
  cases tokens with
  | nil =>
      obtain rfl := Except.error.inj h
      exact definite.elim
  | cons first tail =>
      have stable := stable_expression (stable_operand (depthLimit + 1))
      rcases bind_eq_error.mp h with hread | ⟨⟨node, rest⟩, hread, hrest⟩
      · exact bind_eq_error.mpr (.inl (stable.error hread definite more))
      · cases rest with
        | nil => simp at hrest
        | cons next after =>
            have hmore := stable.ok hread (List.cons_ne_nil _ _) more
            exact bind_eq_error.mpr (.inr ⟨_, hmore, hrest⟩)

end Grammar
end Calculator
