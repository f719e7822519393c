import Calculator.Proofs.Evaluation
import Calculator.Proofs.Grammar.Derivation

/-!
The operand that a phrase begins with.

Outside of parentheses every operator has the first operand of the phrase in its left operand. So
another signed operand can take its place, and if the two have related values, and the operators
respect the relation in their left operands, the values of the phrases are related too.
-/

namespace Calculator

variable {arithmetic : Arithmetic} {registers : Registers} {related : Float → Float → Prop}

/-- A relation between numbers that the operators keep if their right operands are the same. -/
structure Compatible (arithmetic : Arithmetic) (related : Float → Float → Prop) : Prop where
  unary : ∀ (operator : UnaryOperator) {x x' : Float}, related x x' →
    related (operator.apply arithmetic x) (operator.apply arithmetic x')
  binary : ∀ (operator : BinaryOperator) {x x' y value value' : Float} {position position' : Nat},
    related x x' → y.isFinite = true →
      operator.apply arithmetic x y position = .ok value →
      operator.apply arithmetic x' y position' = .ok value' → related value value'

theorem compatible_eq (arithmetic : Arithmetic) : Compatible arithmetic Eq where
  unary operator x x' same := by rw [same]
  binary operator x x' y value value' position position' same _ happly happly' := by
    obtain ⟨-, rfl⟩ := BinaryOperator.apply_eq_ok.mp happly
    obtain ⟨-, rfl⟩ := BinaryOperator.apply_eq_ok.mp happly'
    rw [same]

/-- Where two expressions have values, these are related. -/
def Agree (arithmetic : Arithmetic) (registers : Registers) (related : Float → Float → Prop)
    (node node' : Expression) : Prop :=
  ∀ value value', node.evaluate arithmetic registers = .ok value →
    node'.evaluate arithmetic registers = .ok value' → related value value'

theorem Agree.unary (compatible : Compatible arithmetic related) (operator : UnaryOperator)
    {node node' : Expression} {position position' : Nat}
    (agree : Agree arithmetic registers related node node') :
    Agree arithmetic registers related (.unary operator node position)
      (.unary operator node' position') := by
  intro value value' hvalue hvalue'
  obtain ⟨x, hx, -, rfl⟩ := Expression.evaluate_unary_eq_ok.mp hvalue
  obtain ⟨x', hx', -, rfl⟩ := Expression.evaluate_unary_eq_ok.mp hvalue'
  exact compatible.unary operator (agree x x' hx hx')

theorem Agree.binary (compatible : Compatible arithmetic related) (operator : BinaryOperator)
    {left left' right : Expression} {position position' : Nat}
    (agree : Agree arithmetic registers related left left') :
    Agree arithmetic registers related (.binary operator left right position)
      (.binary operator left' right position') := by
  intro value value' hvalue hvalue'
  obtain ⟨x, hx, y, hy, happly, -⟩ := Expression.evaluate_binary_eq_ok.mp hvalue
  obtain ⟨x', hx', y', hy', happly', -⟩ := Expression.evaluate_binary_eq_ok.mp hvalue'
  have hsame : y = y' := Except.ok.inj (hy.symm.trans hy')
  subst hsame
  have hfinite := Expression.isFinite_of_evaluate hy
  exact compatible.binary operator (agree x x' hx hx') hfinite happly happly'

/-- Equal values may also be put on the right of an operator. -/
theorem Agree.binary_right {operator : BinaryOperator} {left right right' : Expression}
    {position : Nat} (agree : Agree arithmetic registers Eq right right') :
    Agree arithmetic registers Eq (.binary operator left right position)
      (.binary operator left right' position) := by
  intro value value' hvalue hvalue'
  obtain ⟨x, hx, y, hy, happly, -⟩ := Expression.evaluate_binary_eq_ok.mp hvalue
  obtain ⟨x', hx', y', hy', happly', -⟩ := Expression.evaluate_binary_eq_ok.mp hvalue'
  obtain rfl := Except.ok.inj (hx.symm.trans hx')
  obtain rfl := agree y y' hy hy'
  exact Except.ok.inj (happly.symm.trans happly')

namespace Grammar

variable {phrase : Phrase} {tokens : List PlacedToken} {node : Expression} {nesting : Nat}

/-- Any signed operand that agrees with this one makes a phrase of this kind out of the tokens that
follow, and the phrase agrees with this node. -/
def Replaceable (arithmetic : Arithmetic) (registers : Registers) (related : Float → Float → Prop)
    (phrase : Phrase) (rest : List PlacedToken) (operand node : Expression) : Prop :=
  ∀ first operand' depth, Derives .signed first operand' depth →
    Agree arithmetic registers related operand operand' →
    ∃ node' nesting, Derives phrase (first ++ rest) node' nesting ∧
      Agree arithmetic registers related node node'

section Replaceable

variable {rest : List PlacedToken} {operand : Expression} {phrase' : Phrase}

theorem Replaceable.whole (operand : Expression) :
    Replaceable arithmetic registers related .signed [] operand operand := by
  intro first operand' depth derives agree
  rw [List.append_nil]
  exact ⟨operand', depth, derives, agree⟩

theorem Replaceable.widen
    (h : Replaceable arithmetic registers related phrase rest operand node)
    (widens : ∀ {tokens node nesting}, Derives phrase tokens node nesting →
      Derives phrase' tokens node nesting) :
    Replaceable arithmetic registers related phrase' rest operand node := by
  intro first operand' depth derives agree
  obtain ⟨node', nesting, hnode, hagree⟩ := h first operand' depth derives agree
  exact ⟨node', nesting, widens hnode, hagree⟩

theorem Replaceable.extend {wrap : Expression → Expression} {extra : List PlacedToken}
    (h : Replaceable arithmetic registers related phrase rest operand node)
    (builds : ∀ {tokens node nesting}, Derives phrase tokens node nesting →
      ∃ nesting', Derives phrase' (tokens ++ extra) (wrap node) nesting')
    (wraps : ∀ {node'}, Agree arithmetic registers related node node' →
      Agree arithmetic registers related (wrap node) (wrap node')) :
    Replaceable arithmetic registers related phrase' (rest ++ extra) operand (wrap node) := by
  intro first operand' depth derives agree
  obtain ⟨node', nesting, hnode, hagree⟩ := h first operand' depth derives agree
  obtain ⟨nesting', hextended⟩ := builds hnode
  rw [← List.append_assoc]
  exact ⟨wrap node', nesting', hextended, wraps hagree⟩

end Replaceable

/-- A phrase begins with a signed operand that can be replaced. -/
theorem Derives.leading (registers : Registers) (compatible : Compatible arithmetic related)
    (h : Derives phrase tokens node nesting) (outer : phrase ≠ .power ∧ phrase ≠ .primary) :
    ∃ first rest operand depth, tokens = first ++ rest ∧ Derives .signed first operand depth ∧
      Replaceable arithmetic registers related phrase rest operand node := by
  induction h with
  | literal | reference | call | group => exact absurd rfl outer.2
  | base | raise => exact absurd rfl outer.1
  | unsigned power _ =>
      exact ⟨_, [], _, _, (List.append_nil _).symm, .unsigned power, Replaceable.whole _⟩
  | sign position known inner _ =>
      exact ⟨_, [], _, _, (List.append_nil _).symm, .sign position known inner, Replaceable.whole _⟩
  | factor _ ih =>
      obtain ⟨first, rest, operand, depth, rfl, hfirst, hrest⟩ := ih (by simp)
      exact ⟨first, rest, operand, depth, rfl, hfirst, hrest.widen .factor⟩
  | term _ ih =>
      obtain ⟨first, rest, operand, depth, rfl, hfirst, hrest⟩ := ih (by simp)
      exact ⟨first, rest, operand, depth, rfl, hfirst, hrest.widen .term⟩
  | plain _ ih =>
      obtain ⟨first, rest, operand, depth, rfl, hfirst, hrest⟩ := ih (by simp)
      exact ⟨first, rest, operand, depth, rfl, hfirst, hrest.widen .plain⟩
  | multiply position known _ right ih _ =>
      obtain ⟨first, rest, operand, depth, rfl, hfirst, hrest⟩ := ih (by simp)
      exact ⟨first, _, operand, depth, List.append_assoc _ _ _, hfirst,
        hrest.extend (fun left => ⟨_, .multiply position known left right⟩)
          fun agree => agree.binary compatible _⟩
  | add position known _ right ih _ =>
      obtain ⟨first, rest, operand, depth, rfl, hfirst, hrest⟩ := ih (by simp)
      exact ⟨first, _, operand, depth, List.append_assoc _ _ _, hfirst,
        hrest.extend (fun left => ⟨_, .add position known left right⟩)
          fun agree => agree.binary compatible _⟩
  | marked position _ ih =>
      obtain ⟨first, rest, operand, depth, rfl, hfirst, hrest⟩ := ih (by simp)
      exact ⟨first, _, operand, depth, List.append_assoc _ _ _, hfirst,
        hrest.extend (fun sum => ⟨_, .marked position sum⟩) fun agree => agree.unary compatible _⟩

variable {number : Float} {position : Nat} {more : List PlacedToken}

theorem Derives.of_number_primary (h : Derives .primary tokens node nesting)
    (shape : tokens = ⟨position, .number number⟩ :: more) :
    more = [] ∧ node = .literal number position := by
  cases h with
  | literal value place => simp_all
  | reference | call | group => simp at shape

/-- A signed operand that begins with a number is the number or a power of it. -/
theorem Derives.of_number (h : Derives .signed tokens node nesting)
    (shape : tokens = ⟨position, .number number⟩ :: more) :
    (more = [] ∧ node = .literal number position) ∨
      ∃ place exponentTokens exponent depth, more = ⟨place, .symbol .caret⟩ :: exponentTokens ∧
        node = .binary .power (.literal number position) exponent place ∧
        Derives .signed exponentTokens exponent depth := by
  cases h with
  | sign => simp at shape
  | unsigned power =>
      cases power with
      | base primary => exact .inl (primary.of_number_primary shape)
      | raise place left right =>
          obtain ⟨next, rest, rfl, -⟩ := left.first
          rw [List.cons_append] at shape
          obtain ⟨rfl, hmore⟩ := List.cons.inj shape
          obtain ⟨rfl, hbase⟩ := left.of_number_primary rfl
          exact .inr ⟨place, _, _, _, hmore.symm, by rw [hbase], right⟩

/-- Another primary phrase in the place of the number, with what follows it. -/
theorem Derives.replace_number (compatible : Compatible arithmetic related)
    (h : Derives .signed (⟨position, .number number⟩ :: more) node nesting)
    {base : List PlacedToken} {baseNode : Expression} {depth : Nat}
    (primary : Derives .primary base baseNode depth)
    (agree : Agree arithmetic registers related (.literal number position) baseNode) :
    ∃ node' nesting', Derives .signed (base ++ more) node' nesting' ∧
      Agree arithmetic registers related node node' := by
  rcases h.of_number rfl with ⟨rfl, rfl⟩ | ⟨place, _, exponent, _, rfl, rfl, right⟩
  · rw [List.append_nil]
    exact ⟨baseNode, depth, .unsigned (.base primary), agree⟩
  · exact ⟨.binary .power baseNode exponent place, _, .unsigned (.raise place primary right),
      agree.binary compatible .power⟩

theorem Derives.of_minus (h : Derives .signed tokens node nesting)
    (shape : tokens = ⟨position, .symbol .minus⟩ :: more) :
    ∃ operand depth, node = .unary .negate operand position ∧
      Derives .signed more operand depth := by
  cases h with
  | unsigned power =>
      obtain ⟨next, rest, hfirst, -, unsigned⟩ := power.first
      obtain ⟨rfl, -⟩ := List.cons.inj (hfirst.symm.trans shape)
      simp [Token.sign?] at unsigned
  | sign place known inner =>
      simp only [List.cons.injEq, PlacedToken.mk.injEq, Token.symbol.injEq] at shape
      obtain ⟨⟨rfl, rfl⟩, rfl⟩ := shape
      rcases eq_of_mem_signOperators known with ⟨-, rfl⟩ | ⟨hplus, -⟩
      · exact ⟨_, _, rfl, inner⟩
      · simp at hplus

/-- Where a phrase begins with these tokens and goes on with the ones behind, its first operand has
one that agrees with it in a phrase that begins with the other tokens. -/
def Replaces (arithmetic : Arithmetic) (registers : Registers) (related : Float → Float → Prop)
    (lead lead' behind : List PlacedToken) : Prop :=
  ∀ first rest operand depth, Derives .signed first operand depth →
    first ++ rest = lead ++ behind →
    ∃ first' operand' depth', Derives .signed first' operand' depth' ∧
      first' ++ rest = lead' ++ behind ∧ Agree arithmetic registers related operand operand'

section Replaces

variable {lead lead' behind base : List PlacedToken} {baseNode : Expression} {depth : Nat}

theorem replaces_number (compatible : Compatible arithmetic related)
    (primary : Derives .primary base baseNode depth)
    (agree : Agree arithmetic registers related (.literal number position) baseNode) :
    Replaces arithmetic registers related [⟨position, .number number⟩] base behind := by
  intro first rest operand depth derives shape
  obtain ⟨next, more, rfl, -⟩ := derives.first
  obtain ⟨rfl, (hmore : more ++ rest = behind)⟩ := List.cons.inj shape
  obtain ⟨operand', depth', hoperand, hagree⟩ := derives.replace_number compatible primary agree
  refine ⟨base ++ more, operand', depth', hoperand, ?_, hagree⟩
  rw [List.append_assoc, hmore]

theorem Replaces.minus {place : Nat} (compatible : Compatible arithmetic related)
    (h : Replaces arithmetic registers related lead lead' behind) :
    Replaces arithmetic registers related (⟨place, .symbol .minus⟩ :: lead)
      (⟨place, .symbol .minus⟩ :: lead') behind := by
  intro first rest operand depth derives shape
  obtain ⟨next, more, rfl, -⟩ := derives.first
  obtain ⟨rfl, hmore⟩ := List.cons.inj shape
  obtain ⟨inner, innerDepth, rfl, hinner⟩ := derives.of_minus rfl
  obtain ⟨first', operand', depth', hoperand, hrest, hagree⟩ :=
    h more rest inner innerDepth hinner hmore
  refine ⟨⟨place, .symbol .minus⟩ :: first', _, _, .sign place (by decide) hoperand, ?_,
    hagree.unary compatible .negate⟩
  rw [List.cons_append, hrest, List.cons_append]

/-- A minus sign and a number are an operand of their own, unless the number is raised to a
power. -/
theorem replaces_negative_number {place joint : Nat} {symbol : Symbol} (unraised : symbol ≠ .caret)
    (signed : Derives .signed base baseNode depth)
    (agree : Agree arithmetic registers related
      (.unary .negate (.literal number position) place) baseNode) :
    Replaces arithmetic registers related
      [⟨place, .symbol .minus⟩, ⟨position, .number number⟩] base
      (⟨joint, .symbol symbol⟩ :: behind) := by
  intro first rest operand depth derives shape
  obtain ⟨next, more, rfl, -⟩ := derives.first
  obtain ⟨rfl, hmore⟩ := List.cons.inj shape
  obtain ⟨inner, innerDepth, rfl, hinner⟩ := derives.of_minus rfl
  obtain ⟨next, more, rfl, -⟩ := hinner.first
  obtain ⟨rfl, (hrest : more ++ rest = ⟨joint, .symbol symbol⟩ :: behind)⟩ :=
    List.cons.inj hmore
  cases hinner.of_number rfl with
  | inl alone =>
      obtain ⟨rfl, rfl⟩ := alone
      exact ⟨base, baseNode, _, signed, by rw [← hrest, List.nil_append], agree⟩
  | inr raised =>
      obtain ⟨_, _, _, _, rfl, -, -⟩ := raised
      obtain ⟨heq, -⟩ := List.cons.inj hrest
      simp only [PlacedToken.mk.injEq, Token.symbol.injEq] at heq
      exact absurd heq.2.symm unraised

theorem Replaces.derives (compatible : Compatible arithmetic related)
    (h : Replaces arithmetic registers related lead lead' behind)
    (derives : Derives .expression (lead ++ behind) node nesting) :
    ∃ node' nesting', Derives .expression (lead' ++ behind) node' nesting' ∧
      Agree arithmetic registers related node node' := by
  obtain ⟨first, rest, operand, depth, shape, hfirst, hrest⟩ :=
    derives.leading registers compatible (by simp)
  obtain ⟨first', operand', depth', hfirst', shape', hagree⟩ :=
    h first rest operand depth hfirst shape.symm
  rw [← shape']
  exact hrest first' operand' depth' hfirst' hagree

end Replaces

end Grammar
end Calculator
