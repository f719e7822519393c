import Calculator.Proofs.Grammar.Acceptance

/-!
How an expression is written with the fewest parentheses.

Written without parentheses around it, a node is a phrase of one kind, its own, and where it stands
a kind of phrase is required. It goes into parentheses where its own phrase is looser than the
required one, and nowhere else. What is written in this way is read back as the node, whatever the
names are and wherever the parentheses stand in the text; and everything that is read as the node
has at least as many tokens.
-/

namespace Calculator
namespace Grammar

/-- How loosely the parts of a phrase hold together. -/
def Phrase.looseness : Phrase → Nat
  | primary => 0
  | power => 1
  | signed => 2
  | product => 3
  | sum => 4
  | expression => 5

/-- Tokens of an expression, and how deep they nest. -/
structure Spelling where
  tokens : List PlacedToken
  nesting : Nat

def Spelling.enclosed (spelling : Spelling) : Spelling :=
  ⟨⟨0, .symbol .opening⟩ :: (spelling.tokens ++ [⟨0, .symbol .closing⟩]), spelling.nesting + 1⟩

/-- Puts what is a phrase by itself where another phrase is required. -/
def Phrase.fit (required own : Phrase) (spelling : Spelling) : Spelling :=
  if own.looseness ≤ required.looseness then spelling else spelling.enclosed

end Grammar

open Grammar

namespace UnaryOperator

def phrase : UnaryOperator → Phrase
  | negate | keep => .signed
  | degrees => .expression

def operandPhrase : UnaryOperator → Phrase
  | negate | keep => .signed
  | degrees => .sum

/-- Writes an operator in front of its operand, or behind it if it is the degree mark. -/
def spell (position : Nat) (operand : Spelling) : UnaryOperator → Spelling
  | negate => ⟨⟨position, .symbol .minus⟩ :: operand.tokens, operand.nesting + 1⟩
  | keep => ⟨⟨position, .symbol .plus⟩ :: operand.tokens, operand.nesting + 1⟩
  | degrees =>
    ⟨operand.tokens ++ [⟨position, .identifier Expression.degreeName⟩], operand.nesting⟩

end UnaryOperator

namespace BinaryOperator

def phrase : BinaryOperator → Phrase
  | add | subtract => .sum
  | multiply | divide => .product
  | power => .power

def leftPhrase : BinaryOperator → Phrase
  | add | subtract => .sum
  | multiply | divide => .product
  | power => .primary

def rightPhrase : BinaryOperator → Phrase
  | add | subtract => .product
  | multiply | divide | power => .signed

/-- Writes an operator between its operands; an exponent is one level deeper. -/
def spell (position : Nat) (left right : Spelling) (operator : BinaryOperator) : Spelling :=
  ⟨left.tokens ++ ⟨position, .symbol operator.symbol⟩ :: right.tokens,
    max left.nesting (if operator = power then right.nesting + 1 else right.nesting)⟩

end BinaryOperator

namespace Expression

/-- The phrase that a node is without parentheses around it. -/
def phrase : Expression → Phrase
  | literal _ _ | reference _ _ | call _ _ _ => .primary
  | unary operator _ _ => operator.phrase
  | binary operator _ _ _ => operator.phrase

/-- A node without parentheses around it. Its parentheses all have the position zero. -/
def spelling : Expression → Spelling
  | literal value position => ⟨[⟨position, .number value⟩], 0⟩
  | reference name position => ⟨[⟨position, .identifier name⟩], 0⟩
  | unary operator operand position =>
    operator.spell position (operator.operandPhrase.fit operand.phrase operand.spelling)
  | binary operator left right position =>
    operator.spell position (operator.leftPhrase.fit left.phrase left.spelling)
      (operator.rightPhrase.fit right.phrase right.spelling)
  | call name argument position =>
    let inside := argument.spelling.enclosed
    ⟨⟨position, .identifier name⟩ :: inside.tokens, inside.nesting⟩

end Expression

namespace Grammar

variable {phrase required own : Phrase} {tokens : List PlacedToken} {node : Expression}
  {nesting : Nat} {spelling : Spelling}

/-- A phrase is also a phrase of every looser kind. -/
theorem Derives.loosen (h : Derives own tokens node nesting)
    (looser : own.looseness ≤ required.looseness) : Derives required tokens node nesting := by
  induction hlooseness : required.looseness generalizing required with
  | zero =>
      cases required <;> cases own <;> simp [Phrase.looseness] at hlooseness looser
      exact h
  | succ looseness ih =>
      rcases Nat.lt_or_eq_of_le looser with hlt | heq
      · have below : ∀ {tighter : Phrase}, tighter.looseness = looseness →
            Derives tighter tokens node nesting := fun htighter => ih (by omega) htighter
        cases required with
        | primary => simp [Phrase.looseness] at hlooseness
        | power => exact .base (below (Nat.succ.inj hlooseness))
        | signed => exact .unsigned (below (Nat.succ.inj hlooseness))
        | product => exact .factor (below (Nat.succ.inj hlooseness))
        | sum => exact .term (below (Nat.succ.inj hlooseness))
        | expression => exact .plain (below (Nat.succ.inj hlooseness))
      · have same : own = required := by
          cases own <;> cases required <;> simp_all [Phrase.looseness]
        exact same ▸ h

theorem looseness_le_expression (phrase : Phrase) :
    phrase.looseness ≤ Phrase.expression.looseness := by
  cases phrase <;> decide

theorem derives_enclosed (h : Derives own spelling.tokens node spelling.nesting) :
    Derives .primary spelling.enclosed.tokens node spelling.enclosed.nesting :=
  .group 0 0 (h.loosen (looseness_le_expression own))

theorem derives_fit (required : Phrase)
    (h : Derives own spelling.tokens node spelling.nesting) :
    Derives required (required.fit own spelling).tokens node
      (required.fit own spelling).nesting := by
  by_cases fits : own.looseness ≤ required.looseness
  · rw [Phrase.fit, if_pos fits]
    exact h.loosen fits
  · rw [Phrase.fit, if_neg fits]
    exact (derives_enclosed h).loosen (Nat.zero_le _)

theorem derives_spelling (node : Expression) :
    Derives node.phrase node.spelling.tokens node node.spelling.nesting := by
  induction node with
  | literal value position => exact .literal value position
  | reference name position => exact .reference name position
  | unary operator operand position ih =>
      have inner := derives_fit operator.operandPhrase ih
      cases operator with
      | negate => exact .sign position (by simp [signOperators]) inner
      | keep => exact .sign position (by simp [signOperators]) inner
      | degrees => exact .marked position inner
  | binary operator left right position ihLeft ihRight =>
      have first := derives_fit operator.leftPhrase ihLeft
      have second := derives_fit operator.rightPhrase ihRight
      cases operator with
      | add => exact .add position (by simp [sumOperators]) first second
      | subtract => exact .add position (by simp [sumOperators]) first second
      | multiply => exact .multiply position (by simp [productOperators]) first second
      | divide => exact .multiply position (by simp [productOperators]) first second
      | power => exact .raise position first second
  | call name argument position ih =>
      exact .call name position 0 0 (ih.loosen (looseness_le_expression _))

section Fewest

/-- A spelling that has as few tokens as others, and nests as little. -/
structure Spelling.Within (spelling : Spelling) (tokens : List PlacedToken) (nesting : Nat) :
    Prop where
  length_le : spelling.tokens.length ≤ tokens.length
  nesting_le : spelling.nesting ≤ nesting

theorem length_enclosed (spelling : Spelling) :
    spelling.enclosed.tokens.length = spelling.tokens.length + 2 := by
  simp [Spelling.enclosed]

theorem nesting_enclosed (spelling : Spelling) :
    spelling.enclosed.nesting = spelling.nesting + 1 := rfl

theorem fit_expression (own : Phrase) (spelling : Spelling) :
    Phrase.expression.fit own spelling = spelling :=
  if_pos (looseness_le_expression own)

namespace Spelling.Within

theorem loosen {looser : Phrase} (h : (required.fit own spelling).Within tokens nesting)
    (le : required.looseness ≤ looser.looseness) :
    (looser.fit own spelling).Within tokens nesting := by
  rw [Phrase.fit] at h ⊢
  by_cases fits : own.looseness ≤ required.looseness
  · rw [if_pos fits] at h
    rwa [if_pos (Nat.le_trans fits le)]
  · rw [if_neg fits] at h
    have length := length_enclosed spelling ▸ h.length_le
    have nests := nesting_enclosed spelling ▸ h.nesting_le
    split
    · exact ⟨by omega, by omega⟩
    · exact h

theorem enclosed (h : spelling.Within tokens nesting) (opening closing : PlacedToken) :
    spelling.enclosed.Within (opening :: (tokens ++ [closing])) (nesting + 1) := by
  refine ⟨?_, Nat.succ_le_succ h.nesting_le⟩
  rw [length_enclosed]
  simpa using h.length_le

theorem fit_enclosed (h : spelling.Within tokens nesting) (opening closing : PlacedToken) :
    (required.fit own spelling).Within (opening :: (tokens ++ [closing])) (nesting + 1) := by
  rw [Phrase.fit]
  split
  · have length := h.length_le
    have nests := h.nesting_le
    exact ⟨by simp only [List.length_cons, List.length_append]; omega, by omega⟩
  · exact h.enclosed opening closing

theorem spell {operator : BinaryOperator} {left right : Spelling}
    {leftTokens rightTokens : List PlacedToken} {leftNesting rightNesting : Nat} {position : Nat}
    (hleft : left.Within leftTokens leftNesting) (hright : right.Within rightTokens rightNesting) :
    (operator.spell position left right).Within
      (leftTokens ++ ⟨position, .symbol operator.symbol⟩ :: rightTokens)
      (max leftNesting (if operator = .power then rightNesting + 1 else rightNesting)) := by
  have lengths := Nat.add_le_add hleft.length_le hright.length_le
  have leftNests := hleft.nesting_le
  have rightNests := hright.nesting_le
  constructor
  · simp only [BinaryOperator.spell, List.length_append, List.length_cons]
    omega
  · simp only [BinaryOperator.spell]
    split <;> omega

end Spelling.Within

/-- No way to write a node has fewer tokens or nests less; the induction is on how it is derived. -/
theorem Derives.within (h : Derives phrase tokens node nesting) :
    (phrase.fit node.phrase node.spelling).Within tokens nesting := by
  induction h with
  | literal | reference => exact ⟨Nat.le_refl _, Nat.le_refl _⟩
  | call name position opening closing _ ih =>
      rw [fit_expression] at ih
      have inside := ih.enclosed ⟨opening, .symbol .opening⟩ ⟨closing, .symbol .closing⟩
      exact ⟨Nat.succ_le_succ inside.length_le, inside.nesting_le⟩
  | group opening closing _ ih =>
      -- The parentheses may be needed or not; what is written has them only in the first case.
      rw [fit_expression] at ih
      exact ih.fit_enclosed _ _
  | base _ ih | unsigned _ ih | factor _ ih | term _ ih | plain _ ih =>
      exact ih.loosen (by decide)
  | raise position _ _ ihLeft ihRight =>
      exact ihLeft.spell ihRight
  | @sign position symbol operator _ _ _ known _ ih =>
      rcases eq_of_mem_signOperators known with ⟨rfl, rfl⟩ | ⟨rfl, rfl⟩ <;>
        exact ⟨Nat.succ_le_succ ih.length_le, Nat.succ_le_succ ih.nesting_le⟩
  | @multiply _ operator _ _ _ _ _ _ known _ _ ihLeft ihRight =>
      simp only [productOperators, List.mem_cons, List.not_mem_nil, or_false] at known
      rcases known with rfl | rfl <;> exact ihLeft.spell ihRight
  | @add _ operator _ _ _ _ _ _ known _ _ ihLeft ihRight =>
      simp only [sumOperators, List.mem_cons, List.not_mem_nil, or_false] at known
      rcases known with rfl | rfl <;> exact ihLeft.spell ihRight
  | marked position _ ih =>
      refine ⟨?_, ih.nesting_le⟩
      rw [fit_expression, List.length_append]
      exact Nat.le_trans (Nat.le_of_eq List.length_append) (Nat.succ_le_succ ih.length_le)

end Fewest

section Places

/-- A token with the position zero if it is a parenthesis. -/
def settle (placed : PlacedToken) : PlacedToken :=
  match placed.token with
  | .symbol .opening | .symbol .closing => ⟨0, placed.token⟩
  | _ => placed

theorem token_settle (placed : PlacedToken) : (settle placed).token = placed.token := by
  unfold settle
  split <;> rfl

theorem settle_settle (placed : PlacedToken) : settle (settle placed) = settle placed := by
  obtain ⟨position, token⟩ := placed
  cases token with
  | symbol symbol => cases symbol <;> rfl
  | number | identifier | blank => rfl

/-- Whether a token stays where it is. -/
def Stays (token : Token) : Prop :=
  ∀ position, settle ⟨position, token⟩ = ⟨position, token⟩

theorem stays_operator (operator : BinaryOperator) : Stays (.symbol operator.symbol) := by
  cases operator <;> exact fun _ => rfl

theorem stays_sign {symbol : Symbol} {operator : UnaryOperator}
    (known : (symbol, operator) ∈ signOperators) : Stays (.symbol symbol) := by
  rcases eq_of_mem_signOperators known with ⟨rfl, -⟩ | ⟨rfl, -⟩ <;> exact fun _ => rfl

theorem eq_of_stays {placed : PlacedToken} {position : Nat} {token : Token} (stays : Stays token)
    (same : settle placed = settle ⟨position, token⟩) : placed = ⟨position, token⟩ := by
  obtain ⟨place, found⟩ := placed
  obtain rfl : found = token := by
    simpa only [token_settle] using congrArg PlacedToken.token same
  rwa [stays, stays] at same

theorem exists_join {moved left right : List PlacedToken} {position : Nat} {token : Token}
    (stays : Stays token)
    (same : moved.map settle = (left ++ ⟨position, token⟩ :: right).map settle) :
    ∃ left' right', moved = left' ++ ⟨position, token⟩ :: right' ∧
      left'.map settle = left.map settle ∧ right'.map settle = right.map settle := by
  rw [List.map_append, List.map_cons, List.map_eq_append_iff] at same
  obtain ⟨left', others, rfl, hleft, hothers⟩ := same
  obtain ⟨next, right', rfl, hnext, hright⟩ := List.map_eq_cons_iff.mp hothers
  obtain rfl := eq_of_stays stays hnext
  exact ⟨left', right', rfl, hleft, hright⟩

theorem exists_enclosed {moved inner : List PlacedToken} {opening closing : Nat}
    (same : moved.map settle =
      (⟨opening, .symbol .opening⟩ :: (inner ++ [⟨closing, .symbol .closing⟩])).map settle) :
    ∃ opening' inner' closing', inner'.map settle = inner.map settle ∧
      moved = ⟨opening', .symbol .opening⟩ :: (inner' ++ [⟨closing', .symbol .closing⟩]) := by
  rw [List.map_cons, List.map_append, List.map_singleton] at same
  obtain ⟨⟨opening', first⟩, others, rfl, hfirst, hothers⟩ := List.map_eq_cons_iff.mp same
  obtain ⟨inner', last, rfl, hinner, hlast⟩ := List.map_eq_append_iff.mp hothers
  obtain ⟨⟨closing', final⟩, rfl, hfinal⟩ := List.map_eq_singleton_iff.mp hlast
  obtain rfl : first = .symbol .opening := by
    simpa only [token_settle] using congrArg PlacedToken.token hfirst
  obtain rfl : final = .symbol .closing := by
    simpa only [token_settle] using congrArg PlacedToken.token hfinal
  exact ⟨opening', inner', closing', hinner, rfl⟩

theorem exists_singleton {moved : List PlacedToken} {position : Nat} {token : Token}
    (stays : Stays token) (same : moved.map settle = [⟨position, token⟩].map settle) :
    moved = [⟨position, token⟩] := by
  have joined : moved.map settle = ([] ++ PlacedToken.mk position token :: []).map settle := same
  obtain ⟨left, right, rfl, hleft, hright⟩ := exists_join stays joined
  simp_all

/-- Where the parentheses stand in the text makes no difference to what is derived. -/
theorem Derives.move {moved : List PlacedToken} (h : Derives phrase tokens node nesting)
    (same : moved.map settle = tokens.map settle) : Derives phrase moved node nesting := by
  induction h generalizing moved with
  | literal value position =>
      obtain rfl := exists_singleton (fun _ => rfl) same
      exact .literal value position
  | reference name position =>
      obtain rfl := exists_singleton (fun _ => rfl) same
      exact .reference name position
  | call name position opening closing _ ih =>
      obtain ⟨next, others, rfl, hnext, hothers⟩ := List.map_eq_cons_iff.mp same
      obtain rfl := eq_of_stays (fun _ => rfl) hnext
      obtain ⟨opening', inner, closing', hinner, rfl⟩ := exists_enclosed hothers
      exact .call name position opening' closing' (ih hinner)
  | group opening closing _ ih =>
      obtain ⟨opening', inner, closing', hinner, rfl⟩ := exists_enclosed same
      exact .group opening' closing' (ih hinner)
  | base _ ih => exact .base (ih same)
  | unsigned _ ih => exact .unsigned (ih same)
  | factor _ ih => exact .factor (ih same)
  | term _ ih => exact .term (ih same)
  | plain _ ih => exact .plain (ih same)
  | raise position _ _ ihLeft ihRight =>
      obtain ⟨left, right, rfl, hleft, hright⟩ := exists_join (stays_operator .power) same
      exact .raise position (ihLeft hleft) (ihRight hright)
  | sign position known _ ih =>
      obtain ⟨next, others, rfl, hnext, hothers⟩ := List.map_eq_cons_iff.mp same
      obtain rfl := eq_of_stays (stays_sign known) hnext
      exact .sign position known (ih hothers)
  | multiply position known _ _ ihLeft ihRight =>
      obtain ⟨left, right, rfl, hleft, hright⟩ := exists_join (stays_operator _) same
      exact .multiply position known (ihLeft hleft) (ihRight hright)
  | add position known _ _ ihLeft ihRight =>
      obtain ⟨left, right, rfl, hleft, hright⟩ := exists_join (stays_operator _) same
      exact .add position known (ihLeft hleft) (ihRight hright)
  | marked position _ ih =>
      obtain ⟨left, right, rfl, hleft, hright⟩ := exists_join (fun _ => rfl) same
      obtain rfl : right = [] := by simpa using hright
      exact .marked position (ih hleft)

end Places

/-- What is written with the fewest parentheses, wherever they stand, is read back as the node it
was written from if both limits are kept, and is too deep if one is not. Nothing with fewer tokens
is read as this node. -/
theorem reads_what_is_spelled (node : Expression) (tokens : List PlacedToken)
    (spelled : tokens.map settle = node.spelling.tokens) :
    (node.spelling.nesting ≤ depthLimit → node.height ≤ heightLimit →
      Expression.ofTokens tokens = .ok node) ∧
    (depthLimit < node.spelling.nesting ∨ heightLimit < node.height →
      ∃ position, Expression.ofTokens tokens = .error (.tooDeep position)) ∧
    ∀ others, Expression.ofTokens others = .ok node → tokens.length ≤ others.length := by
  have settled : tokens.map settle = node.spelling.tokens.map settle := by
    simp [← spelled, settle_settle]
  have derives : Derives .expression tokens node node.spelling.nesting :=
    ((derives_spelling node).loosen (looseness_le_expression _)).move settled
  refine ⟨?_, isTooDeep_of_derives derives, ?_⟩
  · intro nesting height
    exact ofTokens_eq_ok.mpr ⟨_, derives, nesting, height⟩
  · intro others read
    obtain ⟨nesting, hothers⟩ := derives_of_ofTokens read
    have fewest := hothers.within.length_le
    rwa [fit_expression, ← spelled, List.length_map] at fewest

/-- The angle `deg` in degrees, raised to the opposite of a sum. -/
theorem reads_power_of_marked_angle :
    let tokens : List PlacedToken :=
      [⟨0, .symbol .opening⟩, ⟨1, .identifier "deg"⟩, ⟨5, .identifier "deg"⟩, ⟨8, .symbol .closing⟩,
        ⟨9, .symbol .caret⟩, ⟨10, .symbol .minus⟩, ⟨11, .symbol .opening⟩, ⟨12, .number 1⟩,
        ⟨13, .symbol .plus⟩, ⟨14, .number 2⟩, ⟨15, .symbol .closing⟩]
    let node : Expression :=
      .binary .power (.unary .degrees (.reference "deg" 1) 5)
        (.unary .negate (.binary .add (.literal 1 12) (.literal 2 14) 13) 10) 9
    tokens.map settle = node.spelling.tokens ∧ node.spelling.nesting ≤ depthLimit ∧
      node.height ≤ heightLimit ∧ Expression.ofTokens tokens = .ok node := by
  intro tokens node
  have spelled : tokens.map settle = node.spelling.tokens := rfl
  have nesting : node.spelling.nesting ≤ depthLimit := by decide
  have height : node.height ≤ heightLimit := by decide
  exact ⟨spelled, nesting, height, (reads_what_is_spelled node tokens spelled).1 nesting height⟩

end Grammar
end Calculator
