import Calculator.Proofs.Grammar.Derivation

/-!
Whatever the grammar derives is read, as long as the two limits are kept. When one of them is not,
the reading is too deep and fails in no other way.

A phrase is read in front of further tokens, which must not be able to extend it. A chain of
operands is a phrase that its rule continues to extend, so what is said of it is how its rule goes
on behind it.
-/

namespace Calculator
namespace Grammar

def IsTooDeep {α : Type} (reading : Except SyntaxError α) : Prop :=
  ∃ position, reading = .error (.tooDeep position)

/-- A reading that has a given outcome where the limits are kept and is too deep elsewhere. -/
def Within {α : Type} (fits : Prop) (reading outcome : Except SyntaxError α) : Prop :=
  (fits ∧ reading = outcome) ∨ (¬ fits ∧ IsTooDeep reading)

namespace Within

variable {α β : Type} {fits fits' : Prop} {reading middle outcome : Except SyntaxError α}

theorem congr (h : Within fits reading outcome) (hfits : fits ↔ fits') :
    Within fits' reading outcome := by
  rwa [Within, ← hfits]

theorem trans (first : Within fits reading middle) (second : Within fits' middle outcome) :
    Within (fits ∧ fits') reading outcome := by
  obtain ⟨hfits, rfl⟩ | ⟨hfits, deep⟩ := first
  · obtain ⟨hfits', rfl⟩ | ⟨hfits', deep⟩ := second
    · exact .inl ⟨⟨hfits, hfits'⟩, rfl⟩
    · exact .inr ⟨fun both => hfits' both.2, deep⟩
  · exact .inr ⟨fun both => hfits both.1, deep⟩

theorem bind {value : α} (h : Within fits reading (.ok value))
    (continued : α → Except SyntaxError β) :
    Within fits (reading >>= continued) (continued value) := by
  obtain ⟨hfits, rfl⟩ | ⟨hfits, position, rfl⟩ := h
  · exact .inl ⟨hfits, rfl⟩
  · exact .inr ⟨hfits, position, rfl⟩

/-- The same for a reading that begins with this one, however it goes on. -/
theorem through {value : α} {whole : Except SyntaxError β} {continued : α → Except SyntaxError β}
    (h : Within fits reading (.ok value)) (hwhole : whole = reading >>= continued) :
    Within fits whole (continued value) := by
  rw [hwhole]
  exact h.bind continued

theorem build (node : Expression) (rest : List PlacedToken) :
    Within (node.height ≤ heightLimit) (build node rest) (.ok (node, rest)) := by
  by_cases h : node.height ≤ heightLimit
  · exact .inl ⟨h, build_eq_ok.mpr ⟨h, rfl, rfl⟩⟩
  · exact .inr ⟨h, node.position, if_pos (Nat.lt_of_not_le h)⟩

/-- A node that is built of what was read. -/
theorem built {node : Expression} {rest : List PlacedToken} {reading : Reading}
    (h : Within fits reading (.ok (node, rest))) (wrap : Expression → Expression) :
    Within (fits ∧ (wrap node).height ≤ heightLimit)
      (reading >>= fun read => Grammar.build (wrap read.1) read.2) (.ok (wrap node, rest)) :=
  (h.bind fun read => Grammar.build (wrap read.1) read.2).trans (build (wrap node) rest)

/-- Two operands with an operator between them: the left one is read, and then the operator and the
right one, which may have another number of levels left. -/
theorem join {rule : Rule} {operator : BinaryOperator} {left right : Expression} {position : Nat}
    {tokens rightTokens rest : List PlacedToken} {next : PlacedToken} {middle outcome : Reading}
    {nesting rightNesting deepest levels rightLevels : Nat}
    (first : Within (nesting < levels ∧ left.height ≤ heightLimit)
      (rule.read (tokens ++ next :: (rightTokens ++ rest))) middle)
    (second : Within ((rightNesting < rightLevels ∧ right.height ≤ heightLimit) ∧
      (Expression.binary operator left right position).height ≤ heightLimit) middle outcome)
    (hdeepest : deepest < levels ↔ nesting < levels ∧ rightNesting < rightLevels) :
    Within (deepest < levels ∧
        (Expression.binary operator left right position).height ≤ heightLimit)
      (rule.read ((tokens ++ next :: rightTokens) ++ rest)) outcome := by
  rw [List.append_assoc]
  refine Within.congr (first.trans second) ?_
  rw [hdeepest]
  simp only [Expression.height]
  omega

end Within

/-- The tokens that do not extend a phrase when they stand behind it. -/
def Phrase.endsBefore : Phrase → Token → Prop
  | primary, token => token ≠ .symbol .opening
  | power, token | signed, token | product, token =>
      token ≠ .symbol .opening ∧ token ≠ .symbol .caret
  | sum, token =>
      (token ≠ .symbol .opening ∧ token ≠ .symbol .caret) ∧ token.multiplicative? = none
  | expression, token =>
      ((token ≠ .symbol .opening ∧ token ≠ .symbol .caret) ∧ token.multiplicative? = none) ∧
        token.additive? = none ∧ token ≠ .identifier Expression.degreeName

def Phrase.Before (phrase : Phrase) (rest : List PlacedToken) : Prop :=
  ∀ next ∈ rest.head?, phrase.endsBefore next.token

theorem Phrase.Before.mono {phrase phrase' : Phrase} {rest : List PlacedToken}
    (h : phrase.Before rest) (hmono : ∀ token, phrase.endsBefore token → phrase'.endsBefore token) :
    phrase'.Before rest :=
  fun next hnext => hmono _ (h next hnext)

theorem Phrase.before_cons {phrase : Phrase} {next : PlacedToken} {rest : List PlacedToken} :
    phrase.Before (next :: rest) ↔ phrase.endsBefore next.token := by
  simp [Phrase.Before]

theorem Phrase.before_closing (position : Nat) (rest : List PlacedToken) :
    expression.Before (⟨position, .symbol .closing⟩ :: rest) :=
  before_cons.mpr (by simp [endsBefore, Token.multiplicative?, Token.additive?,
    Token.binaryOperator?])

theorem Phrase.before_caret (position : Nat) (rest : List PlacedToken) :
    primary.Before (⟨position, .symbol .caret⟩ :: rest) :=
  before_cons.mpr (by simp [endsBefore])

theorem Phrase.before_mark (position : Nat) (rest : List PlacedToken) :
    sum.Before (⟨position, .identifier Expression.degreeName⟩ :: rest) :=
  before_cons.mpr (by simp [endsBefore, Token.multiplicative?, Token.binaryOperator?])

theorem Phrase.before_productOperator {operator : BinaryOperator}
    (known : operator ∈ productOperators) (position : Nat) (rest : List PlacedToken) :
    product.Before (⟨position, .symbol operator.symbol⟩ :: rest) := by
  rw [before_cons]
  cases operator <;> simp_all [productOperators, endsBefore, BinaryOperator.symbol]

theorem Phrase.before_sumOperator {operator : BinaryOperator}
    (known : operator ∈ sumOperators) (position : Nat) (rest : List PlacedToken) :
    sum.Before (⟨position, .symbol operator.symbol⟩ :: rest) := by
  rw [before_cons]
  cases operator <;>
    simp_all [sumOperators, endsBefore, BinaryOperator.symbol, Token.multiplicative?,
      Token.binaryOperator?]

/-- The rule for a phrase with a number of levels left. -/
def Phrase.rule : Phrase → Nat → Rule
  | expression, levels => Grammar.expression (operand levels)
  | sum, levels => Grammar.sum (operand levels)
  | product, levels => chain Token.multiplicative? (operand levels)
  | signed, levels => operand levels
  | power, levels + 1 => Grammar.power (operand levels)
  | primary, levels + 1 => Grammar.primary (Grammar.expression (operand levels))
  | power, 0 | primary, 0 => tooDeep

/-- What the rule for a phrase does once it has read the phrase. -/
def Phrase.continued : Phrase → Nat → Expression → List PlacedToken → Reading
  | sum, levels => readChain Token.additive? (product.rule levels)
  | product, levels => readChain Token.multiplicative? (operand levels)
  | _, _ => fun node rest => .ok (node, rest)

theorem isTooDeep_without_levels (phrase : Phrase) (next : PlacedToken)
    (rest : List PlacedToken) : IsTooDeep ((phrase.rule 0).read (next :: rest)) := by
  cases phrase <;> exact ⟨next.position, rfl⟩

theorem readChain_stop {operator? : Token → Option BinaryOperator} {operand : Rule}
    {left : Expression} {rest : List PlacedToken}
    (h : ∀ next ∈ rest.head?, operator? next.token = none) :
    readChain operator? operand left rest = .ok (left, rest) := by
  cases rest with
  | nil => rw [readChain]
  | cons next rest =>
      have hnext : operator? next.token = none := h next (by simp)
      rw [readChain, hnext]

theorem readChain_of_ok {operator? : Token → Option BinaryOperator} {operand : Rule}
    {operator : BinaryOperator} {left right : Expression} {next : PlacedToken}
    {tail rest : List PlacedToken} (hnext : operator? next.token = some operator)
    (hread : operand.read tail = .ok (right, rest)) :
    readChain operator? operand left (next :: tail) =
      if heightLimit < (Expression.binary operator left right next.position).height then
        .error (.tooDeep next.position)
      else readChain operator? operand (.binary operator left right next.position) rest := by
  rw [readChain, hnext]
  dsimp only
  split
  · simp_all
  · next hok =>
      rw [hread] at hok
      cases hok
      rfl

theorem readChain_of_error {operator? : Token → Option BinaryOperator} {operand : Rule}
    {operator : BinaryOperator} {left : Expression} {next : PlacedToken} {tail : List PlacedToken}
    {error : SyntaxError} (hnext : operator? next.token = some operator)
    (hread : operand.read tail = .error error) :
    readChain operator? operand left (next :: tail) = .error error := by
  rw [readChain, hnext]
  dsimp only
  split <;> simp_all

/-- A chain goes on with the next operator and operand, if its tree does not get too high. -/
theorem readChain_join {operator? : Token → Option BinaryOperator} {operand : Rule}
    {operator : BinaryOperator} (left : Expression) {right : Expression} (next : PlacedToken)
    {tail rest : List PlacedToken} {fits : Prop} (hnext : operator? next.token = some operator)
    (hright : Within fits (operand.read tail) (.ok (right, rest))) :
    Within (fits ∧ (Expression.binary operator left right next.position).height ≤ heightLimit)
      (readChain operator? operand left (next :: tail))
      (readChain operator? operand (.binary operator left right next.position) rest) := by
  obtain ⟨hfits, hread⟩ | ⟨hfits, position, hread⟩ := hright
  · rw [readChain_of_ok hnext hread]
    by_cases h : (Expression.binary operator left right next.position).height ≤ heightLimit
    · exact .inl ⟨⟨hfits, h⟩, if_neg (Nat.not_lt_of_le h)⟩
    · exact .inr ⟨fun both => h both.2, next.position, if_pos (Nat.lt_of_not_le h)⟩
  · exact .inr ⟨fun both => hfits both.1, position, readChain_of_error hnext hread⟩

theorem readArguments_single {inner : Rule} {opening closing : Nat} {argument : Expression}
    {tokens rest : List PlacedToken}
    (hread : inner.read tokens = .ok (argument, ⟨closing, .symbol .closing⟩ :: rest)) :
    readArguments inner opening tokens = .ok ([argument], rest) := by
  rw [readArguments]
  split <;> simp_all

theorem readArgumentList_single {inner : Rule} (opening : Nat) {closing : Nat} {phrase : Phrase}
    {argument node : Expression} {tokens rest : List PlacedToken} {nesting : Nat} {fits : Prop}
    (derives : Derives phrase tokens node nesting)
    (hread : Within fits (inner.read (tokens ++ ⟨closing, .symbol .closing⟩ :: rest))
      (.ok (argument, ⟨closing, .symbol .closing⟩ :: rest))) :
    Within fits
      (readArgumentList inner opening (tokens ++ ⟨closing, .symbol .closing⟩ :: rest))
      (.ok ([argument], rest)) := by
  obtain ⟨next, tail, rfl, hnext, -⟩ := derives.first
  rw [List.cons_append, readArgumentList, if_neg hnext]
  obtain ⟨hfits, hok⟩ | ⟨hfits, position, hdeep⟩ := hread
  · exact .inl ⟨hfits, readArguments_single hok⟩
  · refine .inr ⟨hfits, position, ?_⟩
    rw [readArguments]
    split <;> simp_all

theorem readExponent_stop {deeper : Rule} {base : Expression} {rest : List PlacedToken}
    (before : Phrase.power.Before rest) : readExponent deeper base rest = .ok (base, rest) := by
  cases rest with
  | nil => rfl
  | cons next tail => exact if_neg (Phrase.before_cons.mp before).2

theorem readMark_stop {node : Expression} {rest : List PlacedToken}
    (before : Phrase.expression.Before rest) : readMark node rest = .ok (node, rest) := by
  cases rest with
  | nil => rfl
  | cons next tail => exact if_neg (Phrase.before_cons.mp before).2.2

theorem continued_product_stop {levels : Nat} {node : Expression} {rest : List PlacedToken}
    (h : ∀ next ∈ rest.head?, next.token.multiplicative? = none) :
    Phrase.product.continued levels node rest = .ok (node, rest) :=
  readChain_stop h

theorem continued_sum_stop {levels : Nat} {node : Expression} {rest : List PlacedToken}
    (h : ∀ next ∈ rest.head?, next.token.additive? = none) :
    Phrase.sum.continued levels node rest = .ok (node, rest) :=
  readChain_stop h

/-- What is derived is read in front of tokens that do not extend it. -/
def ReadBefore (phrase : Phrase) (tokens : List PlacedToken) (node : Expression) (nesting : Nat)
    (levels : Nat) : Prop :=
  ∀ rest, phrase.Before rest →
    Within (nesting < levels ∧ node.height ≤ heightLimit)
      ((phrase.rule levels).read (tokens ++ rest)) (phrase.continued levels node rest)

theorem readBefore_without_levels {phrase : Phrase} {tokens : List PlacedToken} {node : Expression}
    {nesting : Nat} (h : Derives phrase tokens node nesting) :
    ReadBefore phrase tokens node nesting 0 := by
  intro rest _
  obtain ⟨next, tail, rfl, -⟩ := h.first
  exact .inr ⟨by simp, isTooDeep_without_levels phrase next (tail ++ rest)⟩

theorem readBefore_of_level {phrase : Phrase} {tokens : List PlacedToken} {node : Expression}
    {nesting : Nat} (h : Derives phrase tokens node nesting)
    (hlevel : ∀ levels, ReadBefore phrase tokens node nesting (levels + 1)) (levels : Nat) :
    ReadBefore phrase tokens node nesting levels := by
  cases levels with
  | zero => exact readBefore_without_levels h
  | succ levels => exact hlevel levels

section Productions

variable {tokens rightTokens rest : List PlacedToken} {node left right : Expression}
  {nesting rightNesting levels : Nat}

theorem ReadBefore.call (h : ReadBefore .expression tokens node nesting levels)
    (inner : Derives .expression tokens node nesting) (name : String)
    (position opening closing : Nat) :
    ReadBefore .primary
      (⟨position, .identifier name⟩ :: ⟨opening, .symbol .opening⟩ ::
        (tokens ++ [⟨closing, .symbol .closing⟩]))
      (.call name node position) (nesting + 1) (levels + 1) := by
  intro rest _
  have argument := h _ (Phrase.before_closing closing rest)
  have arguments := readArgumentList_single opening inner argument
  have read : Within _ (readName (Grammar.expression (operand levels)) name position
      (⟨opening, .symbol .opening⟩ :: (tokens ++ ⟨closing, .symbol .closing⟩ :: rest))) _ :=
    arguments.through rfl
  simp only [List.cons_append, List.append_assoc, List.nil_append]
  refine Within.congr (read.trans (Within.build _ rest)) ?_
  simp only [Expression.height]
  omega

theorem ReadBefore.group (h : ReadBefore .expression tokens node nesting levels)
    (opening closing : Nat) :
    ReadBefore .primary
      (⟨opening, .symbol .opening⟩ :: (tokens ++ [⟨closing, .symbol .closing⟩]))
      node (nesting + 1) (levels + 1) := by
  intro rest _
  have read : Within _ (readGroup (Grammar.expression (operand levels)) opening
      (tokens ++ ⟨closing, .symbol .closing⟩ :: rest)) _ :=
    (h _ (Phrase.before_closing closing rest)).through rfl
  simp only [List.cons_append, List.append_assoc, List.nil_append]
  refine Within.congr read ?_
  omega

theorem ReadBefore.base (h : ReadBefore .primary tokens node nesting (levels + 1)) :
    ReadBefore .power tokens node nesting (levels + 1) := by
  intro rest before
  have read : Within _ _ (readExponent (operand levels) node rest) :=
    (h rest (before.mono fun _ h => h.1)).bind
      fun read => readExponent (operand levels) read.1 read.2
  rwa [readExponent_stop before] at read

theorem ReadBefore.raise (hleft : ReadBefore .primary tokens left nesting (levels + 1))
    (hright : ReadBefore .signed rightTokens right rightNesting levels) (position : Nat) :
    ReadBefore .power (tokens ++ ⟨position, .symbol .caret⟩ :: rightTokens)
      (.binary .power left right position) (max nesting (rightNesting + 1)) (levels + 1) := by
  intro rest before
  have first := (hleft _ (Phrase.before_caret position (rightTokens ++ rest))).bind
    fun read => readExponent (operand levels) read.1 read.2
  have second := (hright rest before).built (.binary .power left · position)
  exact Within.join first second (by omega)

theorem ReadBefore.unsigned (h : ReadBefore .power tokens node nesting (levels + 1))
    (power : Derives .power tokens node nesting) :
    ReadBefore .signed tokens node nesting (levels + 1) := by
  intro rest before
  obtain ⟨next, tail, rfl, -, hsign⟩ := power.first
  have read := h rest before
  simp only [Phrase.rule, operand, signed, List.cons_append, hsign (.inl rfl)]
  exact read

theorem ReadBefore.sign (h : ReadBefore .signed tokens node nesting levels) {symbol : Symbol}
    {operator : UnaryOperator} (known : (symbol, operator) ∈ signOperators) (position : Nat) :
    ReadBefore .signed (⟨position, .symbol symbol⟩ :: tokens) (.unary operator node position)
      (nesting + 1) (levels + 1) := by
  intro rest before
  have hsign := sign?_eq_some.mpr ⟨symbol, known, rfl⟩
  have read := (h rest before).built (.unary operator · position)
  simp only [Phrase.rule, Grammar.operand, signed, List.cons_append, hsign]
  refine Within.congr read ?_
  simp only [Expression.height]
  omega

theorem ReadBefore.factor (h : ReadBefore .signed tokens node nesting levels) :
    ReadBefore .product tokens node nesting levels :=
  fun rest before => (h rest before).bind fun read =>
    readChain Token.multiplicative? (operand levels) read.1 read.2

theorem ReadBefore.multiply (hleft : ReadBefore .product tokens left nesting levels)
    (hright : ReadBefore .signed rightTokens right rightNesting levels)
    {operator : BinaryOperator} (known : operator ∈ productOperators) (position : Nat) :
    ReadBefore .product (tokens ++ ⟨position, .symbol operator.symbol⟩ :: rightTokens)
      (.binary operator left right position) (max nesting rightNesting) levels := by
  intro rest before
  have first := hleft _ (Phrase.before_productOperator known position (rightTokens ++ rest))
  have second := readChain_join left ⟨position, .symbol operator.symbol⟩
    (multiplicative?_eq_some.mpr ⟨known, rfl⟩) (hright rest before)
  exact Within.join first second Nat.max_lt

/-- A product is no longer continued in front of what does not extend a sum. -/
theorem ReadBefore.product_stop (h : ReadBefore .product tokens node nesting levels)
    (before : Phrase.sum.Before rest) :
    Within (nesting < levels ∧ node.height ≤ heightLimit)
      ((Phrase.product.rule levels).read (tokens ++ rest)) (.ok (node, rest)) := by
  have read := h rest (before.mono fun _ h => h.1)
  rwa [continued_product_stop fun next hnext => (before next hnext).2] at read

theorem ReadBefore.term (h : ReadBefore .product tokens node nesting levels) :
    ReadBefore .sum tokens node nesting levels :=
  fun _ before => (h.product_stop before).bind fun read =>
    readChain Token.additive? (Phrase.product.rule levels) read.1 read.2

theorem ReadBefore.add (hleft : ReadBefore .sum tokens left nesting levels)
    (hright : ReadBefore .product rightTokens right rightNesting levels)
    {operator : BinaryOperator} (known : operator ∈ sumOperators) (position : Nat) :
    ReadBefore .sum (tokens ++ ⟨position, .symbol operator.symbol⟩ :: rightTokens)
      (.binary operator left right position) (max nesting rightNesting) levels := by
  intro rest before
  have first := hleft _ (Phrase.before_sumOperator known position (rightTokens ++ rest))
  have second := readChain_join left ⟨position, .symbol operator.symbol⟩
    (additive?_eq_some.mpr ⟨known, rfl⟩) (hright.product_stop before)
  exact Within.join first second Nat.max_lt

theorem ReadBefore.plain (h : ReadBefore .sum tokens node nesting levels) :
    ReadBefore .expression tokens node nesting levels := by
  intro rest before
  have read := h rest (before.mono fun _ h => h.1)
  rw [continued_sum_stop fun next hnext => (before next hnext).2.1] at read
  have marked : Within _ _ (readMark node rest) := read.bind fun first => readMark first.1 first.2
  rwa [readMark_stop before] at marked

theorem ReadBefore.marked (h : ReadBefore .sum tokens node nesting levels) (position : Nat) :
    ReadBefore .expression (tokens ++ [⟨position, .identifier Expression.degreeName⟩])
      (.unary .degrees node position) nesting levels := by
  intro rest before
  have read := h _ (Phrase.before_mark position rest)
  rw [continued_sum_stop (by simp [Token.additive?, Token.binaryOperator?])] at read
  have marked := (read.bind fun first => readMark first.1 first.2).trans
    (Within.build (.unary .degrees node position) rest)
  rw [List.append_assoc]
  refine Within.congr marked ?_
  simp only [Expression.height]
  omega

end Productions

/-- What is derived is read if a level is left. Only what is nested in it may have none. -/
theorem Derives.readBefore_with_level {phrase : Phrase} {tokens : List PlacedToken}
    {node : Expression} {nesting : Nat} (h : Derives phrase tokens node nesting) (levels : Nat) :
    ReadBefore phrase tokens node nesting (levels + 1) := by
  induction h generalizing levels with
  | literal => exact fun rest _ => .inl ⟨by simp [Expression.height, heightLimit], rfl⟩
  | reference =>
      intro rest before
      refine .inl ⟨by simp [Expression.height, heightLimit], ?_⟩
      cases rest with
      | nil => rfl
      | cons next tail => exact if_neg (Phrase.before_cons.mp before)
  | call name position opening closing inner ih =>
      exact (readBefore_of_level inner ih levels).call inner name position opening closing
  | group opening closing inner ih =>
      exact (readBefore_of_level inner ih levels).group opening closing
  | base _ ih => exact (ih levels).base
  | raise position _ right ihLeft ihRight =>
      exact (ihLeft levels).raise (readBefore_of_level right ihRight levels) position
  | unsigned power ih => exact (ih levels).unsigned power
  | sign position known inner ih =>
      exact (readBefore_of_level inner ih levels).sign known position
  | factor _ ih => exact (ih levels).factor
  | multiply position known _ _ ihLeft ihRight =>
      exact (ihLeft levels).multiply (ihRight levels) known position
  | term _ ih => exact (ih levels).term
  | add position known _ _ ihLeft ihRight =>
      exact (ihLeft levels).add (ihRight levels) known position
  | plain _ ih => exact (ih levels).plain
  | marked position _ ih => exact (ih levels).marked position

theorem Derives.readBefore {phrase : Phrase} {tokens : List PlacedToken} {node : Expression}
    {nesting : Nat} (h : Derives phrase tokens node nesting) (levels : Nat) :
    ReadBefore phrase tokens node nesting levels :=
  readBefore_of_level h h.readBefore_with_level levels

end Grammar
end Calculator
