import Calculator.Proofs.Evaluation

/-!
Where the error of an evaluation comes from.

An expression fails because one of its nodes does: the node refers to nothing that is known, has no
value at its operands, or has one that is not finite. The error carries the position of this node
and says what the node is. It is never about a register: evaluation writes none.
-/

namespace Calculator

open Grammar (bind_eq_error)

variable {arithmetic : Arithmetic} {registers : Registers} {error : EvaluationError}
  {position : Nat}

theorem error_of_checkFinite {value : Float} (h : checkFinite value position = .error error) :
    error = .nonFiniteResult position := by
  simp only [checkFinite] at h
  split at h
  · simp at h
  · exact (Except.error.inj h).symm

theorem BinaryOperator.error_of_apply {operator : BinaryOperator} {left right : Float}
    (h : operator.apply arithmetic left right position = .error error) :
    error = .undefinedResult operator.text [left, right] position := by
  simp only [BinaryOperator.apply] at h
  split at h
  · exact (Except.error.inj h).symm
  · simp at h

theorem BuiltIn.error_of_apply {builtIn : BuiltIn} {argument : Float}
    (h : builtIn.apply arithmetic argument position = .error error) :
    error = .undefinedResult builtIn.name [argument] position := by
  simp only [BuiltIn.apply] at h
  split at h
  · exact (Except.error.inj h).symm
  · simp at h

theorem BuiltIn.name_of_ofName {name : String} {builtIn : BuiltIn}
    (h : BuiltIn.ofName name position = .ok builtIn) : builtIn.name = name := by
  simp only [BuiltIn.ofName] at h
  split at h
  · rename_i hfound
    obtain rfl := Except.ok.inj h
    simpa using List.find?_some hfound
  · simp at h

theorem BuiltIn.error_of_ofName {name : String}
    (h : BuiltIn.ofName name position = .error error) :
    error = .unknownFunction name position := by
  simp only [BuiltIn.ofName] at h
  split at h
  · simp at h
  · exact (Except.error.inj h).symm

theorem Registers.error_of_valueOf {name : String}
    (h : registers.valueOf name position = .error error) :
    error = .unknownReference name position := by
  simp only [Registers.valueOf] at h
  split at h
  · simp at h
  · split at h
    · simp at h
    · exact (Except.error.inj h).symm

namespace Expression

/-- An expression and the expressions in it. -/
def parts : Expression → List Expression
  | literal value position => [literal value position]
  | reference name position => [reference name position]
  | unary operator operand position => unary operator operand position :: operand.parts
  | binary operator left right position =>
    binary operator left right position :: (left.parts ++ right.parts)
  | call function argument position => call function argument position :: argument.parts

theorem mem_parts_self (node : Expression) : node ∈ node.parts := by
  cases node <;> simp [parts]

/-- The errors of a node itself, when its operands have values. -/
inductive Reports : Expression → EvaluationError → Prop where
  | reference (name : String) (position : Nat) :
      Reports (.reference name position) (.unknownReference name position)
  | function (name : String) (argument : Expression) (position : Nat) :
      Reports (.call name argument position) (.unknownFunction name position)
  | argument (name : String) (argument : Expression) (operands : List Float) (position : Nat) :
      Reports (.call name argument position) (.undefinedResult name operands position)
  | operands (operator : BinaryOperator) (left right : Expression) (operands : List Float)
      (position : Nat) :
      Reports (.binary operator left right position)
        (.undefinedResult operator.text operands position)
  | result (node : Expression) : Reports node (.nonFiniteResult node.position)

/-- The error of an expression is one that a part of it reports. -/
theorem reports_of_evaluate {node : Expression}
    (h : node.evaluate arithmetic registers = .error error) :
    ∃ part ∈ node.parts, Reports part error := by
  induction node with
  | literal value position =>
      obtain rfl := error_of_checkFinite h
      exact ⟨_, mem_parts_self _, .result (.literal value position)⟩
  | reference name position =>
      refine ⟨_, mem_parts_self _, ?_⟩
      rcases bind_eq_error.mp h with hname | ⟨value, -, hresult⟩
      · obtain rfl := Registers.error_of_valueOf hname
        exact .reference name position
      · obtain rfl := error_of_checkFinite hresult
        exact .result (.reference name position)
  | unary operator operand position ih =>
      rcases bind_eq_error.mp h with hoperand | ⟨value, -, hresult⟩
      · obtain ⟨part, hpart, reports⟩ := ih hoperand
        exact ⟨part, List.mem_cons_of_mem _ hpart, reports⟩
      · obtain rfl := error_of_checkFinite hresult
        exact ⟨_, mem_parts_self _, .result (.unary operator operand position)⟩
  | binary operator left right position ihLeft ihRight =>
      rcases bind_eq_error.mp h with hleft | ⟨x, -, h⟩
      · obtain ⟨part, hpart, reports⟩ := ihLeft hleft
        exact ⟨part, List.mem_cons_of_mem _ (List.mem_append_left _ hpart), reports⟩
      rcases bind_eq_error.mp h with hright | ⟨y, -, h⟩
      · obtain ⟨part, hpart, reports⟩ := ihRight hright
        exact ⟨part, List.mem_cons_of_mem _ (List.mem_append_right _ hpart), reports⟩
      refine ⟨_, mem_parts_self _, ?_⟩
      rcases bind_eq_error.mp h with happly | ⟨value, -, hresult⟩
      · obtain rfl := BinaryOperator.error_of_apply happly
        exact .operands operator left right [x, y] position
      · obtain rfl := error_of_checkFinite hresult
        exact .result (.binary operator left right position)
  | call function argument position ih =>
      rcases bind_eq_error.mp h with hname | ⟨builtIn, hbuiltIn, h⟩
      · obtain rfl := BuiltIn.error_of_ofName hname
        exact ⟨_, mem_parts_self _, .function function argument position⟩
      rcases bind_eq_error.mp h with hargument | ⟨x, -, h⟩
      · obtain ⟨part, hpart, reports⟩ := ih hargument
        exact ⟨part, List.mem_cons_of_mem _ hpart, reports⟩
      refine ⟨_, mem_parts_self _, ?_⟩
      rcases bind_eq_error.mp h with happly | ⟨value, -, hresult⟩
      · obtain rfl := BuiltIn.error_of_apply happly
        rw [BuiltIn.name_of_ofName hbuiltIn]
        exact .argument function argument [x] position
      · obtain rfl := error_of_checkFinite hresult
        exact .result (.call function argument position)

end Expression
end Calculator
