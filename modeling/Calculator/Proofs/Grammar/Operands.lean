import Calculator.Proofs.Evaluation
import Calculator.Proofs.Grammar.Derivation
import Mathlib.Data.List.Chain

/-!
Numbers and names among the tokens of an expression.

Two of them stand in a row only if the second one is the degree mark. In an expression that has a
value every name is this mark or the name of something.
-/

namespace Calculator

/-- A number or a name. -/
def Token.IsOperand : Token → Prop
  | .number _ | .identifier _ => True
  | .symbol _ | .blank => False

namespace Grammar

/-- Behind a number or a name there is no other one but the degree mark. -/
def MayFollow (first second : PlacedToken) : Prop :=
  first.token.IsOperand → second.token.IsOperand →
    second.token = .identifier Expression.degreeName

@[simp]
theorem mayFollow_symbol {first : PlacedToken} {position : Nat} {symbol : Symbol} :
    MayFollow first ⟨position, .symbol symbol⟩ :=
  fun _ => False.elim

@[simp]
theorem symbol_mayFollow {second : PlacedToken} {position : Nat} {symbol : Symbol} :
    MayFollow ⟨position, .symbol symbol⟩ second :=
  False.elim

@[simp]
theorem mayFollow_mark {first : PlacedToken} {position : Nat} :
    MayFollow first ⟨position, .identifier Expression.degreeName⟩ :=
  fun _ _ => rfl

variable {phrase : Phrase} {tokens : List PlacedToken} {node : Expression} {nesting : Nat}

theorem Derives.isChain (h : Derives phrase tokens node nesting) : tokens.IsChain MayFollow := by
  induction h with
  | literal | reference => exact .singleton _
  | base _ ih | unsigned _ ih | factor _ ih | term _ ih | plain _ ih => exact ih
  | call _ _ _ _ _ ih | group _ _ _ ih | sign _ _ _ ih | marked _ _ ih =>
      simp [List.isChain_cons, List.isChain_append, ih]
  | raise _ _ _ ihLeft ihRight | multiply _ _ _ _ ihLeft ihRight | add _ _ _ _ ihLeft ihRight =>
      simp [List.isChain_cons, List.isChain_append, ihLeft, ihRight]

theorem Derives.mayFollow {front back : List PlacedToken} {first second : PlacedToken}
    (h : Derives phrase (front ++ first :: second :: back) node nesting) :
    MayFollow first second := by
  have hback := (List.isChain_append.mp h.isChain).2.1
  exact (List.isChain_cons_cons.mp hback).1

/-- The names that need no parentheses. -/
def plainNames : List String :=
  Expression.degreeName :: Registers.answerName :: Constant.all.map (·.name)

theorem mem_plainNames_of_valueOf {registers : Registers} {name : String} {position : Nat}
    {value : Float} (h : registers.valueOf name position = .ok value) : name ∈ plainNames := by
  simp only [Registers.valueOf] at h
  split at h
  · rename_i hname
    simp [plainNames, hname]
  · split at h
    · rename_i constant hnamed
      have hmem := List.mem_of_find?_eq_some hnamed
      have hname : constant.name = name := by simpa using List.find?_some hnamed
      have hconstant : name ∈ Constant.all.map (·.name) := List.mem_map.mpr ⟨_, hmem, hname⟩
      simp [plainNames, hconstant]
    · simp at h

/-- The names that an expression with a value can have. -/
def knownNames : List String :=
  Expression.degreeName :: Registers.answerName :: (Constant.all.map (·.name) ++
    BuiltIn.all.map (·.name))

theorem mem_knownNames_of_valueOf {registers : Registers} {name : String} {position : Nat}
    {value : Float} (h : registers.valueOf name position = .ok value) : name ∈ knownNames := by
  have hsubset : plainNames ⊆ knownNames := by decide
  exact hsubset (mem_plainNames_of_valueOf h)

theorem mem_knownNames_of_ofName {builtIn : BuiltIn} {name : String} {position : Nat}
    (h : BuiltIn.ofName name position = .ok builtIn) : name ∈ knownNames := by
  simp only [BuiltIn.ofName] at h
  split at h
  · rename_i found hnamed
    have hmem := List.mem_of_find?_eq_some hnamed
    have hname : found.name = name := by simpa using List.find?_some hnamed
    have hfunction : name ∈ BuiltIn.all.map (·.name) := List.mem_map.mpr ⟨_, hmem, hname⟩
    simp [knownNames, hfunction]
  · simp at h

/-- A token that is no unknown name. -/
def IsKnown : Token → Prop
  | .identifier name => name ∈ knownNames
  | .number _ | .symbol _ | .blank => True

theorem Derives.isKnown {arithmetic : Arithmetic} {registers : Registers} {value : Float}
    (h : Derives phrase tokens node nesting)
    (hvalue : node.evaluate arithmetic registers = .ok value) :
    ∀ placed ∈ tokens, IsKnown placed.token := by
  induction h generalizing value with
  | literal => exact List.forall_mem_singleton.mpr trivial
  | reference =>
      have hname := mem_knownNames_of_valueOf (Expression.evaluate_reference_eq_ok.mp hvalue).1
      exact List.forall_mem_singleton.mpr hname
  | call _ _ _ _ _ ih =>
      obtain ⟨_, hname, _, hargument, -⟩ := Expression.evaluate_call_eq_ok.mp hvalue
      have hname := mem_knownNames_of_ofName hname
      simp only [List.forall_mem_cons, List.forall_mem_append]
      exact ⟨hname, trivial, ih hargument, trivial, nofun⟩
  | group _ _ _ ih =>
      simp only [List.forall_mem_cons, List.forall_mem_append]
      exact ⟨trivial, ih hvalue, trivial, nofun⟩
  | base _ ih | unsigned _ ih | factor _ ih | term _ ih | plain _ ih => exact ih hvalue
  | sign _ _ _ ih =>
      obtain ⟨_, hoperand, -⟩ := Expression.evaluate_unary_eq_ok.mp hvalue
      exact List.forall_mem_cons.mpr ⟨trivial, ih hoperand⟩
  | marked _ _ ih =>
      obtain ⟨_, hoperand, -⟩ := Expression.evaluate_unary_eq_ok.mp hvalue
      have hmark : Expression.degreeName ∈ knownNames := List.mem_cons_self
      exact List.forall_mem_append.mpr ⟨ih hoperand, List.forall_mem_singleton.mpr hmark⟩
  | raise _ _ _ ihLeft ihRight | multiply _ _ _ _ ihLeft ihRight | add _ _ _ _ ihLeft ihRight =>
      obtain ⟨_, hleft, _, hright, -⟩ := Expression.evaluate_binary_eq_ok.mp hvalue
      refine List.forall_mem_append.mpr ⟨ihLeft hleft, ?_⟩
      exact List.forall_mem_cons.mpr ⟨trivial, ihRight hright⟩

end Grammar
end Calculator
