import Calculator.Proofs.Grammar.Acceptance
import Calculator.Proofs.Grammar.Adjacent
import Calculator.Proofs.Grammar.Leading

/-!
Quotients without their parentheses.

A number and its divisor in parentheses are a primary phrase. Without the parentheses the division
is an operator of the product around them, and takes all of the product in front of it. So the
parentheses may be left out if there is only a sign in front of the number, and no power behind the
divisor. The sign is then divided with the number, which gives the same in an arithmetic that
divides opposite numbers into opposite ones.
-/

namespace Calculator
namespace Grammar

/-- Numbers are divided by this one without regard to their sign. -/
def DividesOpposites (arithmetic : Arithmetic) (divisor : Float) : Prop :=
  ∀ x : Float, x.isFinite = true →
    arithmetic.divide (-x) divisor = -(arithmetic.divide x divisor)

/-- A number and its divisor. -/
def quotientTokens (number divisor : Float) : List PlacedToken :=
  [⟨0, .number number⟩, ⟨0, .symbol .slash⟩, ⟨0, .number divisor⟩]

def groupTokens (number divisor : Float) : List PlacedToken :=
  ⟨0, .symbol .opening⟩ :: (quotientTokens number divisor ++ [⟨0, .symbol .closing⟩])

def isSign (placed : PlacedToken) : Bool :=
  placed.token.sign?.isSome

/-- The token in front of an operand, past its signs. -/
def tokenBefore? (front : List PlacedToken) : Option Token :=
  (front.reverse.find? (!isSign ·)).map (·.token)

/-- The operators that take an operand from the product behind or in front of it. -/
def factorTokens : List Token :=
  [.symbol .star, .symbol .slash, .symbol .caret]

/-- Between these tokens a quotient needs no parentheses. -/
structure Loose (front behind : List PlacedToken) : Prop where
  flatFront : parentheses front = []
  flatBehind : parentheses behind = []
  apart : ∀ placed ∈ front.getLast?, ¬ placed.token.IsOperand
  unbound : ∀ token ∈ tokenBefore? front, token ∉ factorTokens
  unraised : ∀ placed ∈ behind.head?, placed.token ≠ .symbol .caret

section Parts

variable {front behind left right : List PlacedToken} {operator : PlacedToken}

theorem tokenBefore?_append (left front : List PlacedToken) :
    tokenBefore? (left ++ front) = (tokenBefore? front).or (tokenBefore? left) := by
  rw [tokenBefore?, List.reverse_append, List.find?_append, Option.map_or]
  rfl

theorem tokenBefore?_signs (signs : front.all isSign = true) : tokenBefore? front = none := by
  rw [tokenBefore?, Option.map_eq_none_iff, List.find?_eq_none]
  simpa using signs

theorem Loose.behind_operator (h : Loose (left ++ operator :: front) behind) :
    Loose front behind where
  flatFront := by
    have hflat := h.flatFront
    rw [parentheses_append, parentheses_cons, List.append_eq_nil_iff,
      List.append_eq_nil_iff] at hflat
    exact hflat.2.2
  flatBehind := h.flatBehind
  apart placed hlast := by
    refine h.apart placed ?_
    rw [getLast?_join]
    · exact hlast
    · rintro rfl
      simp at hlast
  unbound token htoken := by
    refine h.unbound token ?_
    rw [List.append_cons, tokenBefore?_append, htoken]
    rfl
  unraised := h.unraised

theorem Loose.before_operator (h : Loose front (behind ++ operator :: right)) :
    Loose front behind where
  flatFront := h.flatFront
  flatBehind := by
    have hflat := h.flatBehind
    rw [parentheses_append, List.append_eq_nil_iff] at hflat
    exact hflat.1
  apart := h.apart
  unbound := h.unbound
  unraised placed hhead := h.unraised placed (by
    rw [Option.mem_def] at hhead
    simp [hhead])

/-- Only signs stand between an operator that takes factors and the operand behind it. -/
theorem Loose.not_factor (h : Loose (left ++ operator :: front) behind)
    (signs : front.all isSign = true) : operator.token ∉ factorTokens := by
  intro hfactor
  have hunsigned : isSign operator = false := by
    have hnone : ∀ token ∈ factorTokens, token.sign?.isSome = false := by decide
    exact hnone operator.token hfactor
  refine h.unbound operator.token ?_ hfactor
  have hlast : tokenBefore? (left ++ [operator]) = some operator.token := by
    rw [tokenBefore?, List.reverse_append]
    simp [hunsigned]
  rw [List.append_cons, tokenBefore?_append, tokenBefore?_signs signs, hlast]
  rfl

/-- What the quotient is cut off behind has the opening parenthesis. -/
theorem parentheses_of_cut {number divisor : Float} {token : Token} {position : Nat}
    {used cut : List PlacedToken} (other : token.parentheses = [])
    (shape : groupTokens number divisor = used ++ ⟨position, token⟩ :: cut) :
    parentheses used = ['('] := by
  cases used with
  | nil =>
      obtain ⟨heq, -⟩ := List.cons.inj shape
      rw [← (PlacedToken.mk.inj heq).2] at other
      simp [Token.parentheses] at other
  | cons opening used =>
      obtain ⟨rfl, hinner⟩ := List.cons.inj shape
      rw [parentheses_cons]
      rcases List.append_eq_append_iff.mp hinner with ⟨rest, rfl, hclosing⟩ | ⟨rest, hused, -⟩
      · cases rest with
        | nil =>
            obtain ⟨heq, -⟩ := List.cons.inj hclosing
            rw [← (PlacedToken.mk.inj heq).2] at other
            simp [Token.parentheses] at other
        | cons _ _ => simp at hclosing
      · have hnone : parentheses (quotientTokens number divisor) = [] := rfl
        rw [hused, parentheses_append, List.append_eq_nil_iff] at hnone
        rw [hnone.1]
        rfl

/-- The two sides of an operator do not cut the quotient in its parentheses. -/
theorem split_at_operator {number divisor : Float} {operator : BinaryOperator} {position : Nat}
    (flat : parentheses front = []) (enclosed : Enclosed (parentheses left))
    (shape : left ++ ⟨position, .symbol operator.symbol⟩ :: right =
      front ++ (groupTokens number divisor ++ behind)) :
    (∃ between, front = left ++ ⟨position, .symbol operator.symbol⟩ :: between ∧
      right = between ++ (groupTokens number divisor ++ behind)) ∨
    ∃ between, behind = between ++ ⟨position, .symbol operator.symbol⟩ :: right ∧
      left = front ++ (groupTokens number divisor ++ between) := by
  have hoperator : (Token.symbol operator.symbol).parentheses = [] := parentheses_operator
  rcases List.append_eq_append_iff.mp shape with ⟨rest, rfl, hrest⟩ | ⟨used, rfl, hused⟩
  · cases rest with
    | nil =>
        obtain ⟨heq, -⟩ := List.cons.inj hrest
        rw [(PlacedToken.mk.inj heq).2] at hoperator
        simp [Token.parentheses] at hoperator
    | cons next between =>
        obtain ⟨rfl, hright⟩ := List.cons.inj hrest
        exact .inl ⟨between, rfl, hright⟩
  · rcases List.append_eq_append_iff.mp hused.symm with ⟨cut, hgroup, hcut⟩ | ⟨between, rfl, rfl⟩
    · cases cut with
      | nil =>
          rw [List.append_nil] at hgroup
          exact .inr ⟨[], hcut.symm, by rw [List.append_nil, hgroup]⟩
      | cons next cut =>
          obtain ⟨rfl, -⟩ := List.cons.inj hcut
          refine absurd ?_ enclosed.2
          rw [parentheses_append, flat, parentheses_of_cut hoperator hgroup]
          simp
    · exact .inr ⟨between, rfl, rfl⟩

/-- The quotient is in one of the operands of an operator, and is as loose there. -/
theorem Loose.split {number divisor : Float} {operator : BinaryOperator} {position : Nat}
    (loose : Loose front behind) (enclosed : Enclosed (parentheses left))
    (shape : left ++ ⟨position, .symbol operator.symbol⟩ :: right =
      front ++ (groupTokens number divisor ++ behind)) :
    (∃ between, front = left ++ ⟨position, .symbol operator.symbol⟩ :: between ∧
      right = between ++ (groupTokens number divisor ++ behind) ∧ Loose between behind) ∨
    ∃ between, behind = between ++ ⟨position, .symbol operator.symbol⟩ :: right ∧
      left = front ++ (groupTokens number divisor ++ between) ∧ Loose front between := by
  rcases split_at_operator loose.flatFront enclosed shape with
    ⟨between, rfl, hright⟩ | ⟨between, rfl, hleft⟩
  · exact .inl ⟨between, rfl, hright, loose.behind_operator⟩
  · exact .inr ⟨between, rfl, hleft, loose.before_operator⟩

/-- It is in the left operand of an operator that takes factors, because the right one would have
only signs in front of it. -/
theorem Loose.split_factor {number divisor : Float} {operator : BinaryOperator} {position : Nat}
    (factor : .symbol operator.symbol ∈ factorTokens) (loose : Loose front behind)
    (enclosed : Enclosed (parentheses left))
    (shape : left ++ ⟨position, .symbol operator.symbol⟩ :: right =
      front ++ (groupTokens number divisor ++ behind))
    (signs : ∀ between, right = between ++ (groupTokens number divisor ++ behind) →
      Loose between behind → between.all isSign = true) :
    ∃ between, behind = between ++ ⟨position, .symbol operator.symbol⟩ :: right ∧
      left = front ++ (groupTokens number divisor ++ between) ∧ Loose front between := by
  rcases loose.split enclosed shape with ⟨between, rfl, hright, hloose⟩ | hleft
  · exact absurd factor (loose.not_factor (signs between hright hloose))
  · exact hleft

theorem factor_of_mem {operator : BinaryOperator} (known : operator ∈ productOperators) :
    Token.symbol operator.symbol ∈ factorTokens := by
  have hall : ∀ operator ∈ productOperators, Token.symbol operator.symbol ∈ factorTokens := by
    decide
  exact hall operator known

end Parts

/-- Some phrase without the parentheses has the value of a node with them. -/
def HasUngrouped (arithmetic : Arithmetic) (registers : Registers) (number divisor : Float)
    (front behind : List PlacedToken) (node : Expression) (phrase : Phrase) : Prop :=
  ∃ node' depth, Derives phrase (front ++ (quotientTokens number divisor ++ behind)) node' depth ∧
    Agree arithmetic registers Eq node node'

/-- What a phrase with a quotient in parentheses is without them. As a signed operand it is the
number with its signs, and the quotient of the two has its value. -/
def Ungrouped (arithmetic : Arithmetic) (registers : Registers) (number divisor : Float)
    (front behind : List PlacedToken) (node : Expression) : Phrase → Prop
  | .primary | .power | .signed =>
    front.all isSign = true ∧ behind = [] ∧
      ∃ operand depth, Derives .signed (front ++ [⟨0, .number number⟩]) operand depth ∧
        ∀ value x, node.evaluate arithmetic registers = .ok value →
          operand.evaluate arithmetic registers = .ok x → value = arithmetic.divide x divisor
  | phrase => HasUngrouped arithmetic registers number divisor front behind node phrase

variable {arithmetic : Arithmetic} {registers : Registers} {number divisor : Float}
  {front behind tokens : List PlacedToken} {phrase : Phrase} {node : Expression} {nesting : Nat}

/-- The parentheses that enclose the quotient are its own. -/
theorem tokens_of_group {opening closing : Nat}
    (shape : ⟨opening, .symbol .opening⟩ :: (tokens ++ [⟨closing, .symbol .closing⟩]) =
      front ++ (groupTokens number divisor ++ behind))
    (flatFront : parentheses front = []) (flatBehind : parentheses behind = []) :
    front = [] ∧ behind = [] ∧ tokens = quotientTokens number divisor := by
  cases front with
  | cons next front =>
      obtain ⟨rfl, -⟩ := List.cons.inj shape
      simp [parentheses_cons, Token.parentheses] at flatFront
  | nil =>
      have hinner : tokens ++ [⟨closing, .symbol .closing⟩] =
          quotientTokens number divisor ++ [⟨0, .symbol .closing⟩] ++ behind :=
        (List.cons.inj shape).2
      rcases List.eq_nil_or_concat behind with rfl | ⟨behind, last, rfl⟩
      · rw [List.append_nil] at hinner
        exact ⟨rfl, rfl, (List.append_inj' hinner rfl).1⟩
      · rw [List.concat_eq_append, ← List.append_assoc] at hinner
        obtain ⟨-, hlast⟩ := List.append_inj' hinner rfl
        obtain rfl := (List.cons.inj hlast).1
        simp [parentheses_append, parentheses_cons, Token.parentheses] at flatBehind

theorem Derives.dividedBy (h : Derives .signed tokens node nesting) (divisor : Float) :
    Derives .product (tokens ++ [⟨0, .symbol .slash⟩, ⟨0, .number divisor⟩])
      (.binary .divide node (.literal divisor 0) 0) (max nesting 0) := by
  have hdivide : BinaryOperator.divide ∈ productOperators := by decide
  exact .multiply 0 hdivide (.factor h) (.unsigned (.base (.literal divisor 0)))

theorem node_of_quotient (h : Derives .expression (quotientTokens number divisor) node nesting) :
    node = .binary .divide (.literal number 0) (.literal divisor 0) 0 := by
  have number : Derives .signed [⟨0, .number number⟩] (.literal number 0) 0 :=
    .unsigned (.base (.literal number 0))
  have derives := Derives.plain (.term (number.dividedBy divisor))
  exact node_eq_of_limits derives (by decide) (by simp [Expression.height, heightLimit]) h

theorem value_of_quotient {operand : Expression} {value x : Float}
    (h : (Expression.binary .divide operand (.literal divisor 0) 0).evaluate arithmetic registers =
      .ok value)
    (hoperand : operand.evaluate arithmetic registers = .ok x) :
    value = arithmetic.divide x divisor := by
  obtain ⟨x', hx, y, hy, happly, -⟩ := Expression.evaluate_binary_eq_ok.mp h
  obtain rfl := Except.ok.inj (hoperand.symm.trans hx)
  obtain ⟨-, rfl⟩ := checkFinite_eq_ok.mp hy
  exact (BinaryOperator.apply_eq_ok.mp happly).2.symm

section Joins

variable {joined : Phrase} {operator : BinaryOperator} {left right : Expression} {position : Nat}
  {next : PlacedToken}

theorem HasUngrouped.join_left {rightTokens : List PlacedToken} {rightNesting : Nat}
    (h : HasUngrouped arithmetic registers number divisor front behind left phrase)
    (hjoin : ∀ {tokens node nesting}, Derives phrase tokens node nesting →
      Derives joined (tokens ++ next :: rightTokens) (.binary operator node right position)
        (max nesting rightNesting)) :
    HasUngrouped arithmetic registers number divisor front (behind ++ next :: rightTokens)
      (.binary operator left right position) joined := by
  obtain ⟨node', depth, hnode, agree⟩ := h
  have hjoined := hjoin hnode
  rw [List.append_assoc, List.append_assoc] at hjoined
  exact ⟨_, _, hjoined, agree.binary (compatible_eq arithmetic) operator⟩

theorem HasUngrouped.join_right {leftTokens : List PlacedToken} {leftNesting : Nat}
    (h : HasUngrouped arithmetic registers number divisor front behind right phrase)
    (hjoin : ∀ {tokens node nesting}, Derives phrase tokens node nesting →
      Derives joined (leftTokens ++ next :: tokens) (.binary operator left node position)
        (max leftNesting nesting)) :
    HasUngrouped arithmetic registers number divisor (leftTokens ++ next :: front) behind
      (.binary operator left right position) joined := by
  obtain ⟨node', depth, hnode, agree⟩ := h
  have hjoined := hjoin hnode
  rw [← List.cons_append, ← List.append_assoc] at hjoined
  exact ⟨_, _, hjoined, agree.binary_right⟩

end Joins

theorem HasUngrouped.mono {wider : Phrase}
    (h : HasUngrouped arithmetic registers number divisor front behind node phrase)
    (hwider : ∀ {tokens node nesting}, Derives phrase tokens node nesting →
      Derives wider tokens node nesting) :
    HasUngrouped arithmetic registers number divisor front behind node wider := by
  obtain ⟨node', depth, hnode, agree⟩ := h
  exact ⟨node', depth, hwider hnode, agree⟩

/-- The parentheses of a quotient may be left out where it is loose. -/
theorem Derives.ungroup (registers : Registers) (divides : DividesOpposites arithmetic divisor)
    (h : Derives phrase tokens node nesting)
    (shape : tokens = front ++ (groupTokens number divisor ++ behind))
    (loose : Loose front behind) :
    Ungrouped arithmetic registers number divisor front behind node phrase := by
  induction h generalizing front behind with
  | literal | reference =>
      have hlength := congrArg List.length shape
      simp only [groupTokens, quotientTokens, List.length_append, List.length_cons,
        List.length_nil] at hlength
      omega
  | call name position opening closing _ _ =>
      rcases front with _ | ⟨_, _ | ⟨_, front⟩⟩
      · simp [groupTokens] at shape
      · obtain ⟨rfl, -⟩ := List.cons.inj shape
        exact absurd trivial (loose.apart _ rfl)
      · obtain ⟨-, hrest⟩ := List.cons.inj shape
        obtain ⟨rfl, -⟩ := List.cons.inj hrest
        have hflat := loose.flatFront
        simp [parentheses_cons, Token.parentheses] at hflat
  | group opening closing inner _ =>
      obtain ⟨rfl, rfl, rfl⟩ := tokens_of_group shape loose.flatFront loose.flatBehind
      obtain rfl := node_of_quotient inner
      refine ⟨rfl, rfl, .literal number 0, 0, .unsigned (.base (.literal number 0)), ?_⟩
      exact fun value x => value_of_quotient
  | base _ ih | unsigned _ ih => exact ih shape loose
  | raise position left _ ihLeft ihRight =>
      have hfactor : Token.symbol BinaryOperator.power.symbol ∈ factorTokens := by decide
      obtain ⟨between, rfl, hleft, hloose⟩ := loose.split_factor hfactor left.enclosed shape
        fun _ hright hloose => (ihRight hright hloose).1
      obtain ⟨-, rfl, -⟩ := ihLeft hleft hloose
      exact absurd rfl (loose.unraised _ rfl)
  | sign position known _ ih =>
      cases front with
      | nil =>
          obtain ⟨heq, -⟩ := List.cons.inj shape
          obtain rfl := Token.symbol.inj (PlacedToken.mk.inj heq).2
          simp [signOperators] at known
      | cons next front =>
          obtain ⟨rfl, hrest⟩ := List.cons.inj shape
          obtain ⟨signs, rfl, operand, depth, hoperand, hquotient⟩ :=
            ih hrest (@Loose.behind_operator _ _ [] _ loose)
          refine ⟨?_, rfl, _, _, .sign position known hoperand, ?_⟩
          · rcases eq_of_mem_signOperators known with ⟨rfl, -⟩ | ⟨rfl, -⟩ <;> exact signs
          · intro value x hvalue hx
            obtain ⟨value, hnode, -, rfl⟩ := Expression.evaluate_unary_eq_ok.mp hvalue
            obtain ⟨y, hy, -, rfl⟩ := Expression.evaluate_unary_eq_ok.mp hx
            obtain rfl := hquotient value y hnode hy
            rcases eq_of_mem_signOperators known with ⟨-, rfl⟩ | ⟨-, rfl⟩
            · exact (divides y (Expression.isFinite_of_evaluate hy)).symm
            · rfl
  | factor _ ih =>
      obtain ⟨-, rfl, operand, depth, hoperand, hquotient⟩ := ih shape loose
      have hproduct := hoperand.dividedBy divisor
      rw [List.append_assoc] at hproduct
      refine ⟨_, _, hproduct, fun value value' hvalue hvalue' => ?_⟩
      obtain ⟨x, hx, -⟩ := Expression.evaluate_binary_eq_ok.mp hvalue'
      rw [hquotient value x hvalue hx, value_of_quotient hvalue' hx]
  | multiply position known left right ihLeft ihRight =>
      obtain ⟨between, rfl, hleft, hloose⟩ := loose.split_factor (factor_of_mem known)
        left.enclosed shape fun _ hright hloose => (ihRight hright hloose).1
      exact (ihLeft hleft hloose).join_left fun h => .multiply position known h right
  | term _ ih => exact (ih shape loose).mono .term
  | add position known left right ihLeft ihRight =>
      rcases loose.split left.enclosed shape with
        ⟨between, rfl, hright, hloose⟩ | ⟨between, rfl, hleft, hloose⟩
      · exact (ihRight hright hloose).join_right fun h => .add position known left h
      · exact (ihLeft hleft hloose).join_left fun h => .add position known h right
  | plain _ ih => exact (ih shape loose).mono .plain
  | marked position sum ih =>
      rcases List.eq_nil_or_concat behind with rfl | ⟨behind, last, rfl⟩
      · rw [List.append_nil, groupTokens, ← List.cons_append, ← List.append_assoc] at shape
        obtain ⟨-, hlast⟩ := List.append_inj' shape rfl
        simp at hlast
      · rw [List.concat_eq_append] at shape loose ⊢
        rw [← List.append_assoc, ← List.append_assoc] at shape
        obtain ⟨htokens, hlast⟩ := List.append_inj' shape rfl
        obtain rfl := (List.cons.inj hlast).1
        rw [List.append_assoc] at htokens
        obtain ⟨node', depth, hnode, agree⟩ := ih htokens loose.before_operator
        have hmarked := Derives.marked position hnode
        rw [List.append_assoc, List.append_assoc] at hmarked
        exact ⟨_, _, hmarked, agree.unary (compatible_eq arithmetic) .degrees⟩

end Grammar
end Calculator
