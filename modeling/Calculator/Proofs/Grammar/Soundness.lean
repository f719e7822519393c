import Calculator.Proofs.Grammar.Derivation

/-!
Every reading has a derivation behind it: the tokens that a rule takes off the front derive the
phrase it is for, with the tree it returns.
-/

namespace Calculator
namespace Grammar

/-- A rule that reads only what derives a phrase. -/
def Sound (phrase : Phrase) (rule : Rule) : Prop :=
  ∀ {tokens node rest}, rule.read tokens = .ok (node, rest) →
    ∃ used nesting, tokens = used ++ rest ∧ Derives phrase used node nesting

theorem sound_tooDeep (phrase : Phrase) : Sound phrase tooDeep := by
  intro tokens node rest h
  cases tokens <;> simp [tooDeep] at h

/-- Chains keep what has been derived so far; the induction is on the operands still to come. -/
theorem readChain_sound {operator? : Token → Option BinaryOperator} {operand : Rule}
    {phrase operandPhrase : Phrase} (hoperand : Sound operandPhrase operand)
    (join : ∀ {next tokens rightTokens left right operator nesting rightNesting},
      operator? next.token = some operator → Derives phrase tokens left nesting →
      Derives operandPhrase rightTokens right rightNesting →
      ∃ nesting', Derives phrase (tokens ++ next :: rightTokens)
        (.binary operator left right next.position) nesting')
    {left node : Expression} {before tokens rest : List PlacedToken} {nesting : Nat}
    (hleft : Derives phrase before left nesting)
    (h : readChain operator? operand left tokens = .ok (node, rest)) :
    ∃ used nesting', tokens = used ++ rest ∧ Derives phrase (before ++ used) node nesting' := by
  fun_induction readChain operator? operand left tokens generalizing before nesting with
  | case1 left =>
      cases h
      exact ⟨[], nesting, rfl, by simpa using hleft⟩
  | case2 left next tail hnext =>
      cases h
      exact ⟨[], nesting, rfl, by simpa using hleft⟩
  | case3 | case4 => simp at h
  | case5 left next tail operator hnext right after hread =>
      rename_i ih
      obtain ⟨rightTokens, rightNesting, rfl, hright⟩ := hoperand hread
      obtain ⟨_, hjoined⟩ := join hnext hleft hright
      obtain ⟨used, nesting', rfl, hnode⟩ := ih hjoined h
      refine ⟨next :: (rightTokens ++ used), nesting', by simp, ?_⟩
      simpa using hnode

theorem sound_product {operand : Rule} (hoperand : Sound .signed operand) :
    Sound .product (chain Token.multiplicative? operand) := by
  intro tokens node rest h
  obtain ⟨⟨left, after⟩, hfirst, hchain⟩ := bind_eq_ok.mp h
  obtain ⟨used, nesting, rfl, hleft⟩ := hoperand hfirst
  obtain ⟨others, nesting', rfl, hnode⟩ := readChain_sound hoperand
    (fun {next} _ _ _ _ _ _ _ hnext hleft hright => by
      obtain ⟨known, hsymbol⟩ := multiplicative?_eq_some.mp hnext
      obtain ⟨position, token⟩ := next
      cases hsymbol
      exact ⟨_, .multiply position known hleft hright⟩)
    (.factor hleft) hchain
  exact ⟨used ++ others, nesting', by simp, hnode⟩

theorem sound_sum {operand : Rule} (hoperand : Sound .signed operand) :
    Sound .sum (sum operand) := by
  intro tokens node rest h
  obtain ⟨⟨left, after⟩, hfirst, hchain⟩ := bind_eq_ok.mp h
  obtain ⟨used, nesting, rfl, hleft⟩ := sound_product hoperand hfirst
  obtain ⟨others, nesting', rfl, hnode⟩ := readChain_sound (sound_product hoperand)
    (fun {next} _ _ _ _ _ _ _ hnext hleft hright => by
      obtain ⟨known, hsymbol⟩ := additive?_eq_some.mp hnext
      obtain ⟨position, token⟩ := next
      cases hsymbol
      exact ⟨_, .add position known hleft hright⟩)
    (.term hleft) hchain
  exact ⟨used ++ others, nesting', by simp, hnode⟩

theorem sound_expression {operand : Rule} (hoperand : Sound .signed operand) :
    Sound .expression (expression operand) := by
  intro tokens node rest h
  obtain ⟨⟨inner, after⟩, hsum, hmark⟩ := bind_eq_ok.mp h
  obtain ⟨used, nesting, rfl, hinner⟩ := sound_sum hoperand hsum
  cases after with
  | nil =>
      cases hmark
      exact ⟨used, nesting, rfl, .plain hinner⟩
  | cons next tail =>
      obtain ⟨position, token⟩ := next
      simp only [readMark] at hmark
      split at hmark
      · next hdegree =>
          obtain ⟨-, rfl, rfl⟩ := build_eq_ok.mp hmark
          cases hdegree
          exact ⟨_, nesting, by simp, .marked position hinner⟩
      · cases hmark
        exact ⟨used, nesting, rfl, .plain hinner⟩

theorem readGroup_sound {inner : Rule} (hinner : Sound .expression inner) {opening : Nat}
    {node : Expression} {tokens rest : List PlacedToken}
    (h : readGroup inner opening tokens = .ok (node, rest)) :
    ∃ used nesting closing, tokens = used ++ ⟨closing, .symbol .closing⟩ :: rest ∧
      Derives .expression used node nesting := by
  obtain ⟨⟨tree, after⟩, hread, hclosing⟩ := bind_eq_ok.mp h
  obtain ⟨used, nesting, rfl, htree⟩ := hinner hread
  cases after with
  | nil => simp at hclosing
  | cons next after =>
      obtain ⟨closing, token⟩ := next
      simp only at hclosing
      split at hclosing
      · next htoken =>
          cases hclosing
          cases htoken
          exact ⟨used, nesting, closing, rfl, htree⟩
      · simp at hclosing

theorem readArguments_ne_nil {inner : Rule} {opening : Nat} {nodes : List Expression}
    {tokens rest : List PlacedToken} (h : readArguments inner opening tokens = .ok (nodes, rest)) :
    nodes ≠ [] := by
  rw [readArguments] at h
  split at h
  · simp at h
  · simp at h
  · split at h
    · cases h
      simp
    · split at h
      · obtain ⟨⟨others, last⟩, -, hlast⟩ := bind_eq_ok.mp h
        cases hlast
        simp
      · simp at h

/-- A list of exactly one argument is that argument in parentheses. -/
theorem readArguments_sound {inner : Rule} (hinner : Sound .expression inner) {opening : Nat}
    {argument : Expression} {tokens rest : List PlacedToken}
    (h : readArguments inner opening tokens = .ok ([argument], rest)) :
    ∃ used nesting closing, tokens = used ++ ⟨closing, .symbol .closing⟩ :: rest ∧
      Derives .expression used argument nesting := by
  rw [readArguments] at h
  split at h
  · simp at h
  · simp at h
  · next node next after hread =>
      obtain ⟨used, nesting, rfl, hnode⟩ := hinner hread
      obtain ⟨closing, token⟩ := next
      simp only at h
      split at h
      · next htoken =>
          cases h
          cases htoken
          exact ⟨used, nesting, closing, rfl, hnode⟩
      · split at h
        · -- A comma means at least one argument more.
          obtain ⟨⟨others, last⟩, hothers, hlast⟩ := bind_eq_ok.mp h
          obtain ⟨hnodes, -⟩ := Prod.mk.inj (Except.ok.inj hlast)
          exact absurd (List.cons.inj hnodes).2 (readArguments_ne_nil hothers)
        · simp at h

theorem readArgumentList_sound {inner : Rule} (hinner : Sound .expression inner) {opening : Nat}
    {argument : Expression} {tokens rest : List PlacedToken}
    (h : readArgumentList inner opening tokens = .ok ([argument], rest)) :
    ∃ used nesting closing, tokens = used ++ ⟨closing, .symbol .closing⟩ :: rest ∧
      Derives .expression used argument nesting := by
  cases tokens with
  | nil => exact readArguments_sound hinner h
  | cons next tail =>
      simp only [readArgumentList] at h
      split at h
      · simp at h
      · exact readArguments_sound hinner h

theorem readName_sound {inner : Rule} (hinner : Sound .expression inner) {name : String}
    {position : Nat} {node : Expression} {tokens rest : List PlacedToken}
    (h : readName inner name position tokens = .ok (node, rest)) :
    ∃ used nesting, ⟨position, .identifier name⟩ :: tokens = used ++ rest ∧
      Derives .primary used node nesting := by
  cases tokens with
  | nil =>
      cases h
      exact ⟨[_], 0, rfl, .reference name position⟩
  | cons next tail =>
      obtain ⟨opening, token⟩ := next
      simp only [readName] at h
      split at h
      · next hopening =>
          cases hopening
          obtain ⟨⟨arguments, after⟩, hread, hcall⟩ := bind_eq_ok.mp h
          simp only at hcall
          split at hcall
          · next argument =>
              obtain ⟨-, rfl, rfl⟩ := build_eq_ok.mp hcall
              obtain ⟨used, nesting, closing, rfl, hargument⟩ :=
                readArgumentList_sound hinner hread
              exact ⟨_, nesting + 1, by simp, .call name position opening closing hargument⟩
          · simp at hcall
      · cases h
        exact ⟨[_], 0, rfl, .reference name position⟩

theorem sound_primary {inner : Rule} (hinner : Sound .expression inner) :
    Sound .primary (primary inner) := by
  intro tokens node rest h
  cases tokens with
  | nil => simp [primary, readPrimary] at h
  | cons next tail =>
      obtain ⟨position, token⟩ := next
      simp only [primary, readPrimary] at h
      split at h
      · cases h
        exact ⟨[_], 0, rfl, .literal _ position⟩
      · exact readName_sound hinner h
      · obtain ⟨used, nesting, closing, rfl, hnode⟩ := readGroup_sound hinner h
        exact ⟨_, nesting + 1, by simp, .group position closing hnode⟩
      · simp at h

theorem sound_power {deeper : Rule} (hdeeper : Sound .signed deeper) :
    Sound .power (power deeper) := by
  intro tokens node rest h
  obtain ⟨⟨base, after⟩, hbase, hexponent⟩ := bind_eq_ok.mp h
  obtain ⟨used, nesting, rfl, hleft⟩ := sound_primary (sound_expression hdeeper) hbase
  cases after with
  | nil =>
      cases hexponent
      exact ⟨used, nesting, rfl, .base hleft⟩
  | cons next tail =>
      obtain ⟨position, token⟩ := next
      simp only [readExponent] at hexponent
      split at hexponent
      · next hcaret =>
          obtain ⟨⟨exponent, after⟩, hread, hnode⟩ := bind_eq_ok.mp hexponent
          obtain ⟨exponentTokens, exponentNesting, rfl, hright⟩ := hdeeper hread
          obtain ⟨-, rfl, rfl⟩ := build_eq_ok.mp hnode
          cases hcaret
          exact ⟨_, _, by simp, .raise position hleft hright⟩
      · cases hexponent
        exact ⟨used, nesting, rfl, .base hleft⟩

theorem sound_signed {deeper : Rule} (hdeeper : Sound .signed deeper) :
    Sound .signed (signed deeper) := by
  intro tokens node rest h
  cases tokens with
  | nil =>
      obtain ⟨used, nesting, htokens, hnode⟩ := sound_power hdeeper h
      exact ⟨used, nesting, htokens, .unsigned hnode⟩
  | cons next tail =>
      obtain ⟨position, token⟩ := next
      simp only [signed] at h
      split at h
      · obtain ⟨used, nesting, htokens, hnode⟩ := sound_power hdeeper h
        exact ⟨used, nesting, htokens, .unsigned hnode⟩
      · next operator hsign =>
          obtain ⟨⟨operand, after⟩, hread, hnode⟩ := bind_eq_ok.mp h
          obtain ⟨used, nesting, rfl, hoperand⟩ := hdeeper hread
          obtain ⟨-, rfl, rfl⟩ := build_eq_ok.mp hnode
          obtain ⟨symbol, known, rfl⟩ := sign?_eq_some.mp hsign
          exact ⟨_, nesting + 1, rfl, .sign position known hoperand⟩

theorem sound_operand (levels : Nat) : Sound .signed (operand levels) := by
  induction levels with
  | zero => exact sound_tooDeep .signed
  | succ levels ih => exact sound_signed ih

end Grammar
end Calculator
