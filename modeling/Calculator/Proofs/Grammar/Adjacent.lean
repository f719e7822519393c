import Calculator.Proofs.Grammar.Operands
import Calculator.Proofs.Grammar.Shape

/-!
Operands next to each other.

Multiplication is never left out: behind the end of an operand another one may begin only as the
argument of a call, apart from the degree mark. Without parentheses nothing is called, so the names
of an expression that has a value are those of the two constants, of the last answer and of the
mark.
-/

namespace Calculator

/-- The last token of a primary phrase. -/
def Token.EndsOperand : Token → Prop
  | .number _ | .identifier _ | .symbol .closing => True
  | .symbol _ | .blank => False

/-- The first token of a primary phrase. -/
def Token.BeginsOperand : Token → Prop
  | .number _ | .identifier _ | .symbol .opening => True
  | .symbol _ | .blank => False

theorem Token.IsOperand.ends {token : Token} (h : token.IsOperand) : token.EndsOperand := by
  cases token with
  | number | identifier => trivial
  | symbol | blank => exact h.elim

theorem Token.IsOperand.begins {token : Token} (h : token.IsOperand) : token.BeginsOperand := by
  cases token with
  | number | identifier => trivial
  | symbol | blank => exact h.elim

namespace Grammar

/-- An operand ends and another one begins behind it only as a degree mark or in a call. -/
def Adjoins (first second : PlacedToken) : Prop :=
  first.token.EndsOperand → second.token.BeginsOperand →
    second.token = .identifier Expression.degreeName ∨
      (∃ name, first.token = .identifier name) ∧ second.token = .symbol .opening

section Symbols

variable {first second : PlacedToken} {position : Nat}

@[simp]
theorem opening_adjoins : Adjoins ⟨position, .symbol .opening⟩ second :=
  False.elim

@[simp]
theorem adjoins_closing : Adjoins first ⟨position, .symbol .closing⟩ :=
  fun _ => False.elim

@[simp]
theorem name_adjoins_opening {name : String} {place : Nat} :
    Adjoins ⟨place, .identifier name⟩ ⟨position, .symbol .opening⟩ :=
  fun _ _ => .inr ⟨⟨name, rfl⟩, rfl⟩

@[simp]
theorem adjoins_mark : Adjoins first ⟨position, .identifier Expression.degreeName⟩ :=
  fun _ _ => .inl rfl

@[simp]
theorem adjoins_operator {operator : BinaryOperator} :
    Adjoins first ⟨position, .symbol operator.symbol⟩ := by
  cases operator <;> exact fun _ => False.elim

@[simp]
theorem operator_adjoins {operator : BinaryOperator} :
    Adjoins ⟨position, .symbol operator.symbol⟩ second := by
  cases operator <;> exact False.elim

theorem sign_adjoins {symbol : Symbol} {operator : UnaryOperator}
    (known : (symbol, operator) ∈ signOperators) :
    Adjoins ⟨position, .symbol symbol⟩ second := by
  rcases eq_of_mem_signOperators known with ⟨rfl, -⟩ | ⟨rfl, -⟩ <;> exact False.elim

end Symbols

variable {phrase : Phrase} {tokens : List PlacedToken} {node : Expression} {nesting : Nat}

theorem Derives.adjoins_chain (h : Derives phrase tokens node nesting) :
    tokens.IsChain Adjoins := by
  induction h with
  | literal | reference => exact .singleton _
  | base _ ih | unsigned _ ih | factor _ ih | term _ ih | plain _ ih => exact ih
  | call _ _ _ _ _ ih | group _ _ _ ih | marked _ _ ih =>
      simp [List.isChain_cons, List.isChain_append, ih]
  | sign _ known _ ih =>
      simp [List.isChain_cons, ih, sign_adjoins known]
  | raise position left _ ihLeft ihRight =>
      have hcaret : Symbol.caret = BinaryOperator.power.symbol := rfl
      simp [List.isChain_cons, List.isChain_append, ihLeft, ihRight, hcaret]
  | multiply _ _ _ _ ihLeft ihRight | add _ _ _ _ ihLeft ihRight =>
      simp [List.isChain_cons, List.isChain_append, ihLeft, ihRight]

theorem Derives.adjoins {front back : List PlacedToken} {first second : PlacedToken}
    (h : Derives phrase (front ++ first :: second :: back) node nesting) :
    Adjoins first second := by
  have hback := (List.isChain_append.mp h.adjoins_chain).2.1
  exact (List.isChain_cons_cons.mp hback).1

/-- A token that is no name but a plain one. -/
def IsPlain : Token → Prop
  | .identifier name => name ∈ plainNames
  | .number _ | .symbol _ | .blank => True

theorem Derives.names_are_plain {arithmetic : Arithmetic} {registers : Registers} {value : Float}
    (h : Derives phrase tokens node nesting) (flat : parentheses tokens = [])
    (hvalue : node.evaluate arithmetic registers = .ok value) :
    ∀ placed ∈ tokens, IsPlain placed.token := by
  induction h generalizing value with
  | literal => exact List.forall_mem_singleton.mpr trivial
  | reference =>
      have hname := mem_plainNames_of_valueOf (Expression.evaluate_reference_eq_ok.mp hvalue).1
      exact List.forall_mem_singleton.mpr hname
  | call | group => simp [parentheses_cons, Token.parentheses] at flat
  | base _ ih | unsigned _ ih | factor _ ih | term _ ih | plain _ ih => exact ih flat hvalue
  | sign _ _ _ ih =>
      rw [parentheses_cons, List.append_eq_nil_iff] at flat
      obtain ⟨_, hoperand, -⟩ := Expression.evaluate_unary_eq_ok.mp hvalue
      exact List.forall_mem_cons.mpr ⟨trivial, ih flat.2 hoperand⟩
  | marked _ _ ih =>
      rw [parentheses_append, List.append_eq_nil_iff] at flat
      obtain ⟨_, hoperand, -⟩ := Expression.evaluate_unary_eq_ok.mp hvalue
      have hmark : Expression.degreeName ∈ plainNames := List.mem_cons_self
      exact List.forall_mem_append.mpr ⟨ih flat.1 hoperand, List.forall_mem_singleton.mpr hmark⟩
  | raise _ _ _ ihLeft ihRight | multiply _ _ _ _ ihLeft ihRight | add _ _ _ _ ihLeft ihRight =>
      rw [parentheses_append, parentheses_cons, List.append_eq_nil_iff,
        List.append_eq_nil_iff] at flat
      obtain ⟨_, hleft, _, hright, -⟩ := Expression.evaluate_binary_eq_ok.mp hvalue
      refine List.forall_mem_append.mpr ⟨ihLeft flat.1 hleft, ?_⟩
      exact List.forall_mem_cons.mpr ⟨trivial, ihRight flat.2.2 hright⟩

end Grammar
end Calculator
