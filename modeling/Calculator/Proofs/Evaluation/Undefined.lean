import Calculator.Proofs.Evaluation.Location
import Calculator.Proofs.Float.Defined
import Calculator.Proofs.Float.Product
import Calculator.Proofs.Session.Bookkeeping
import Calculator.Proofs.Token.Munch

/-!
Undefined results and infinite ones.

Operands are finite, since every node is checked, and where an operation on finite numbers has no
number as its result it is refused before its result is checked. So the check only ever sees
numbers, and what it refuses is infinite: a number that is too large, or a literal that is.

The operations that are defined by rounding an exact result are known to the logic. Of the others,
which the machine brings along, only what the standard says of them is assumed.
-/

namespace Calculator

open Magnitude
open Grammar (bind_eq_ok bind_eq_error)

namespace Magnitude

open Float.Model

/-- A finite double is a whole number. -/
def IsWhole (value : Float) : Prop :=
  ∃ whole : Nat, size value.toModel.unpack = whole

theorem size_nonneg (value : UnpackedFloat) : 0 ≤ size value := by
  cases value with
  | finite => exact mul_nonneg (Nat.cast_nonneg _) (by positivity)
  | infinity | notANumber | zero => exact le_refl _

theorem isWhole_iff {value : Float} :
    (size value.toModel.unpack).den = 1 ↔ IsWhole value := by
  constructor
  · intro hden
    have hnum := Rat.num_nonneg.mpr (size_nonneg value.toModel.unpack)
    refine ⟨(size value.toModel.unpack).num.toNat, ?_⟩
    rw [← Int.cast_natCast, Int.toNat_of_nonneg hnum, (Rat.den_eq_one_iff _).mp hden]
  · rintro ⟨whole, hwhole⟩
    rw [hwhole, Rat.den_natCast]

instance : DecidablePred IsWhole := fun _ => decidable_of_iff _ isWhole_iff

end Magnitude

namespace Arithmetic

/-- The operations that round an exact result have a number as theirs if there is an exact one. -/
structure Algebraic (arithmetic : Arithmetic) : Prop where
  add : ∀ {x y : Float}, x.isFinite = true → y.isFinite = true → (arithmetic.add x y).isNaN = false
  subtract : ∀ {x y : Float}, x.isFinite = true → y.isFinite = true →
    (arithmetic.subtract x y).isNaN = false
  multiply : ∀ {x y : Float}, x.isFinite = true → y.isFinite = true →
    (arithmetic.multiply x y).isNaN = false
  divide : ∀ {x y : Float}, x.isFinite = true → y.isFinite = true → (y == 0) = false →
    (arithmetic.divide x y).isNaN = false
  radians : ∀ {x : Float}, x.isFinite = true → (arithmetic.radians x).isNaN = false
  squareRoot : ∀ {x : Float}, x.isFinite = true → 0 ≤ x → (arithmetic.squareRoot x).isNaN = false

/-- So do the others. A power has none only if a negative number is raised to one that is not
whole. -/
structure Transcendental (arithmetic : Arithmetic) : Prop where
  exp : ∀ {x : Float}, x.isFinite = true → (arithmetic.exp x).isNaN = false
  sin : ∀ {x : Float}, x.isFinite = true → (arithmetic.sin x).isNaN = false
  cos : ∀ {x : Float}, x.isFinite = true → (arithmetic.cos x).isNaN = false
  tan : ∀ {x : Float}, x.isFinite = true → (arithmetic.tan x).isNaN = false
  log : ∀ {x : Float}, x.isFinite = true → 0 < x → (arithmetic.log x).isNaN = false
  log10 : ∀ {x : Float}, x.isFinite = true → 0 < x → (arithmetic.log10 x).isNaN = false
  power : ∀ {x y : Float}, x.isFinite = true → y.isFinite = true →
    ((arithmetic.power x y).isNaN = true ↔ x < 0 ∧ ¬ IsWhole y)

/-- The facts of the standard about which results are numbers. -/
structure Standard (arithmetic : Arithmetic) : Prop
    extends arithmetic.Algebraic, arithmetic.Transcendental

theorem algebraic_binary64 : binary64.Algebraic where
  add := isNaN_add
  subtract := isNaN_sub
  multiply := isNaN_mul
  divide := isNaN_div
  radians := fun hx => isNaN_of_isFinite (isFinite_radians hx)
  squareRoot := isNaN_sqrt

theorem standard_binary64 (transcendental : binary64.Transcendental) : binary64.Standard :=
  { algebraic_binary64, transcendental with }

end Arithmetic

variable {arithmetic : Arithmetic} {registers : Registers} {position : Nat}

section Operations

/-- A division by zero, a negative power of zero, or a power of a negative number with an exponent
that is not whole. -/
def BinaryOperator.HasNoValue (left right : Float) : BinaryOperator → Prop
  | divide => (right == 0) = true
  | power => ((left == 0) = true ∧ right < 0) ∨ (left < 0 ∧ ¬ IsWhole right)
  | add | subtract | multiply => False

theorem BinaryOperator.isUndefinedAt_iff (standard : arithmetic.Standard)
    (operator : BinaryOperator) {x y : Float} (hx : x.isFinite = true) (hy : y.isFinite = true) :
    operator.isUndefinedAt arithmetic x y = true ↔ operator.HasNoValue x y := by
  cases operator with
  | add | subtract | multiply => simp [isUndefinedAt, HasNoValue]
  | divide => rfl
  | power =>
      simp only [isUndefinedAt, HasNoValue, Bool.or_eq_true, Bool.and_eq_true, decide_eq_true_eq,
        standard.power hx hy]

theorem BinaryOperator.isNaN_of_apply (standard : arithmetic.Standard) {operator : BinaryOperator}
    {x y value : Float} (hx : x.isFinite = true) (hy : y.isFinite = true)
    (h : operator.apply arithmetic x y position = .ok value) : value.isNaN = false := by
  obtain ⟨hdefined, rfl⟩ := apply_eq_ok.mp h
  cases operator with
  | add => exact standard.add hx hy
  | subtract => exact standard.subtract hx hy
  | multiply => exact standard.multiply hx hy
  | divide => exact standard.divide hx hy hdefined
  | power => exact (Bool.or_eq_false_iff.mp hdefined).2

theorem BuiltIn.isNaN_of_apply (standard : arithmetic.Standard) {builtIn : BuiltIn}
    {x value : Float} (hx : x.isFinite = true)
    (h : builtIn.apply arithmetic x position = .ok value) : value.isNaN = false := by
  rw [BuiltIn.apply] at h
  split at h
  · simp at h
  · rename_i hdefined
    obtain rfl := Except.ok.inj h
    cases builtIn with
    | sin => exact standard.sin hx
    | cos => exact standard.cos hx
    | tan => exact standard.tan hx
    | exp => exact standard.exp hx
    | log =>
        simp only [isUndefinedAt, decide_eq_true_eq] at hdefined
        exact standard.log hx ((lt_or_le isFinite_zero hx).resolve_right hdefined)
    | log10 =>
        simp only [isUndefinedAt, decide_eq_true_eq] at hdefined
        exact standard.log10 hx ((lt_or_le isFinite_zero hx).resolve_right hdefined)
    | squareRoot =>
        simp only [isUndefinedAt, decide_eq_true_eq] at hdefined
        exact standard.squareRoot hx ((lt_or_le hx isFinite_zero).resolve_left hdefined)

theorem UnaryOperator.isNaN_apply (standard : arithmetic.Standard) (operator : UnaryOperator)
    {x : Float} (hx : x.isFinite = true) : (operator.apply arithmetic x).isNaN = false := by
  cases operator with
  | negate => exact isNaN_of_isFinite (isFinite_neg hx)
  | keep => exact isNaN_of_isFinite hx
  | degrees => exact standard.radians hx

theorem Constant.isFinite_value (constant : Constant) : constant.value.isFinite = true := by
  cases constant <;> decide +kernel

theorem Registers.isFinite_of_valueOf (finite : registers.Finite) {name : String} {value : Float}
    (h : registers.valueOf name position = .ok value) : value.isFinite = true := by
  rw [Registers.valueOf] at h
  split at h
  · obtain rfl := Except.ok.inj h
    exact finite.lastAnswer
  · split at h
    · obtain rfl := Except.ok.inj h
      exact Constant.isFinite_value _
    · simp at h

end Operations

namespace Expression

/-- The result of a node before it is checked to be finite. -/
def unchecked (arithmetic : Arithmetic) (registers : Registers) :
    Expression → Except EvaluationError Float
  | literal value _ => .ok value
  | reference name position => registers.valueOf name position
  | unary operator operand _ => do
    let value ← operand.evaluate arithmetic registers
    return operator.apply arithmetic value
  | binary operator left right position => do
    let leftValue ← left.evaluate arithmetic registers
    let rightValue ← right.evaluate arithmetic registers
    operator.apply arithmetic leftValue rightValue position
  | call function argument position => do
    let builtIn ← BuiltIn.ofName function position
    let argumentValue ← argument.evaluate arithmetic registers
    builtIn.apply arithmetic argumentValue position

theorem evaluate_eq_checked (node : Expression) :
    node.evaluate arithmetic registers =
      node.unchecked arithmetic registers >>= (checkFinite · node.position) := by
  cases node <;> simp only [evaluate, unchecked, bind_assoc, pure_bind] <;> rfl

/-- No literal of an expression is undefined. It may be infinite. -/
def NumericLiterals (node : Expression) : Prop :=
  ∀ value position, literal value position ∈ node.parts → value.isNaN = false

/-- The evaluation of an expression is refused as undefined. -/
def IsUndefined (arithmetic : Arithmetic) (registers : Registers) (node : Expression) : Prop :=
  ∃ operation operands position,
    node.evaluate arithmetic registers = .error (.undefinedResult operation operands position)

/-- A part of an expression that stands at a position has an infinite result. -/
def IsInfiniteAt (arithmetic : Arithmetic) (registers : Registers) (node : Expression)
    (position : Nat) : Prop :=
  ∃ part ∈ node.parts, part.position = position ∧
    ∃ value, part.unchecked arithmetic registers = .ok value ∧ value.isInf = true

/-- What a node's failures mean. -/
structure Distinguishes (arithmetic : Arithmetic) (registers : Registers) (node : Expression) :
    Prop where
  checked : node.evaluate arithmetic registers =
    node.unchecked arithmetic registers >>= (checkFinite · node.position)
  /-- The check whether the result is finite is not reached with something undefined. -/
  number : ∀ value, node.unchecked arithmetic registers = .ok value → value.isNaN = false
  /-- What is reported not to be finite is infinite. -/
  infinite : ∀ position,
    node.evaluate arithmetic registers = .error (.nonFiniteResult position) →
      node.IsInfiniteAt arithmetic registers position
  /-- Operators with one operand are defined everywhere. -/
  unary : ∀ operator operand position value, node = .unary operator operand position →
    operand.evaluate arithmetic registers = .ok value → ¬ node.IsUndefined arithmetic registers
  binary : ∀ operator left right position x y, node = .binary operator left right position →
    left.evaluate arithmetic registers = .ok x → right.evaluate arithmetic registers = .ok y →
      (node.IsUndefined arithmetic registers ↔ operator.HasNoValue x y)

section Nodes

variable {node : Expression}

theorem parts_of_mem {part : Expression} (h : part ∈ node.parts) : part.parts ⊆ node.parts := by
  induction node with
  | literal | reference =>
      obtain rfl := List.mem_singleton.mp h
      exact List.Subset.refl _
  | unary _ _ _ ih | call _ _ _ ih =>
      rcases List.mem_cons.mp h with rfl | h
      · exact List.Subset.refl _
      · exact List.subset_cons_of_subset _ (ih h)
  | binary _ _ _ _ ihLeft ihRight =>
      rcases List.mem_cons.mp h with rfl | h
      · exact List.Subset.refl _
      · refine List.subset_cons_of_subset _ ?_
        rcases List.mem_append.mp h with h | h
        · exact List.subset_append_of_subset_left _ (ihLeft h)
        · exact List.subset_append_of_subset_right _ (ihRight h)

theorem NumericLiterals.part (numeric : node.NumericLiterals) {part : Expression}
    (h : part ∈ node.parts) : part.NumericLiterals :=
  fun value position hliteral => numeric value position (parts_of_mem h hliteral)

theorem isNaN_of_unchecked (standard : arithmetic.Standard) (finite : registers.Finite)
    (numeric : node.NumericLiterals) {value : Float}
    (h : node.unchecked arithmetic registers = .ok value) : value.isNaN = false := by
  cases node with
  | literal value position =>
      obtain rfl := Except.ok.inj h
      exact numeric value position (mem_parts_self _)
  | reference => exact isNaN_of_isFinite (Registers.isFinite_of_valueOf finite h)
  | unary operator =>
      obtain ⟨x, hx, hvalue⟩ := bind_eq_ok.mp h
      obtain rfl := Except.ok.inj hvalue
      exact operator.isNaN_apply standard (isFinite_of_evaluate hx)
  | binary =>
      obtain ⟨x, hx, h⟩ := bind_eq_ok.mp h
      obtain ⟨y, hy, hvalue⟩ := bind_eq_ok.mp h
      exact BinaryOperator.isNaN_of_apply standard (isFinite_of_evaluate hx)
        (isFinite_of_evaluate hy) hvalue
  | call =>
      obtain ⟨builtIn, -, h⟩ := bind_eq_ok.mp h
      obtain ⟨x, hx, hvalue⟩ := bind_eq_ok.mp h
      exact BuiltIn.isNaN_of_apply standard (isFinite_of_evaluate hx) hvalue

theorem IsInfiniteAt.widen {part : Expression} (h : part.IsInfiniteAt arithmetic registers position)
    (hpart : part ∈ node.parts) : node.IsInfiniteAt arithmetic registers position := by
  obtain ⟨source, hsource, hresult⟩ := h
  exact ⟨source, parts_of_mem hpart hsource, hresult⟩

section Failures

variable (standard : arithmetic.Standard) (finite : registers.Finite)

include standard finite

/-- A node reports its own result, or what is reported comes from an operand. -/
theorem nonFinite_cases (numeric : node.NumericLiterals)
    (h : node.evaluate arithmetic registers = .error (.nonFiniteResult position)) :
    node.unchecked arithmetic registers = .error (.nonFiniteResult position) ∨
      node.IsInfiniteAt arithmetic registers position := by
  rw [evaluate_eq_checked] at h
  rcases bind_eq_error.mp h with hunchecked | ⟨value, hvalue, hcheck⟩
  · exact .inl hunchecked
  · right
    rw [checkFinite] at hcheck
    split at hcheck
    · simp at hcheck
    · rename_i hresult
      obtain rfl := EvaluationError.nonFiniteResult.inj (Except.error.inj hcheck)
      have hnumber := isNaN_of_unchecked standard finite numeric hvalue
      exact ⟨node, mem_parts_self _, rfl, value, hvalue,
        isInf_of_not_isFinite hnumber (Bool.eq_false_iff.mpr hresult)⟩

theorem isInfiniteAt_of_evaluate (numeric : node.NumericLiterals)
    (h : node.evaluate arithmetic registers = .error (.nonFiniteResult position)) :
    node.IsInfiniteAt arithmetic registers position := by
  induction node with
  | literal => exact (nonFinite_cases standard finite numeric h).resolve_left nofun
  | reference =>
      refine (nonFinite_cases standard finite numeric h).resolve_left fun hname => ?_
      cases Registers.error_of_valueOf hname
  | unary operator operand place ih =>
      have hpart : operand ∈ (unary operator operand place).parts :=
        List.mem_cons_of_mem _ (mem_parts_self _)
      rcases nonFinite_cases standard finite numeric h with hoperand | hresult
      · rcases bind_eq_error.mp hoperand with hoperand | ⟨_, _, happly⟩
        · exact (ih (numeric.part hpart) hoperand).widen hpart
        · cases happly
      · exact hresult
  | binary operator left right place ihLeft ihRight =>
      have hleft : left ∈ (binary operator left right place).parts :=
        List.mem_cons_of_mem _ (List.mem_append_left _ (mem_parts_self _))
      have hright : right ∈ (binary operator left right place).parts :=
        List.mem_cons_of_mem _ (List.mem_append_right _ (mem_parts_self _))
      rcases nonFinite_cases standard finite numeric h with hoperands | hresult
      · rcases bind_eq_error.mp hoperands with hoperand | ⟨_, _, hoperands⟩
        · exact (ihLeft (numeric.part hleft) hoperand).widen hleft
        rcases bind_eq_error.mp hoperands with hoperand | ⟨_, _, happly⟩
        · exact (ihRight (numeric.part hright) hoperand).widen hright
        · cases BinaryOperator.error_of_apply happly
      · exact hresult
  | call function argument place ih =>
      have hpart : argument ∈ (call function argument place).parts :=
        List.mem_cons_of_mem _ (mem_parts_self _)
      rcases nonFinite_cases standard finite numeric h with hoperand | hresult
      · rcases bind_eq_error.mp hoperand with hname | ⟨_, _, hoperand⟩
        · cases BuiltIn.error_of_ofName hname
        rcases bind_eq_error.mp hoperand with hoperand | ⟨_, _, happly⟩
        · exact (ih (numeric.part hpart) hoperand).widen hpart
        · cases BuiltIn.error_of_apply happly
      · exact hresult

end Failures

section Operators

variable {operand left right : Expression} {x y : Float}

theorem not_isUndefined_unary {operator : UnaryOperator}
    (h : operand.evaluate arithmetic registers = .ok x) :
    ¬ (unary operator operand position).IsUndefined arithmetic registers := by
  rintro ⟨operation, operands, place, herror⟩
  rw [evaluate, h] at herror
  cases error_of_checkFinite herror

theorem isUndefined_binary_iff (standard : arithmetic.Standard) {operator : BinaryOperator}
    (hleft : left.evaluate arithmetic registers = .ok x)
    (hright : right.evaluate arithmetic registers = .ok y) :
    (binary operator left right position).IsUndefined arithmetic registers ↔
      operator.HasNoValue x y := by
  rw [← operator.isUndefinedAt_iff standard (isFinite_of_evaluate hleft)
    (isFinite_of_evaluate hright)]
  have happly : (binary operator left right position).evaluate arithmetic registers =
      operator.apply arithmetic x y position >>= (checkFinite · position) := by
    rw [evaluate, hleft, hright]
    rfl
  rw [IsUndefined, happly, BinaryOperator.apply]
  constructor
  · rintro ⟨operation, operands, place, herror⟩
    by_contra hdefined
    rw [if_neg hdefined] at herror
    cases error_of_checkFinite herror
  · intro hundefined
    rw [if_pos hundefined]
    exact ⟨_, _, _, rfl⟩

end Operators

end Nodes

/-- The literals of what a text is parsed to are numbers. -/
theorem numericLiterals_of_ofTokens {text : String} {tokens : List PlacedToken} {node : Expression}
    (htokens : tokenize text = .ok tokens) (hnode : ofTokens tokens = .ok node) :
    node.NumericLiterals := by
  intro value position hliteral
  obtain ⟨nesting, derives, -, -⟩ := Grammar.ofTokens_eq_ok.mp hnode
  have hplaced : ⟨position, .number value⟩ ∈ tokens := standsIn_of_derives derives _ hliteral
  obtain ⟨_, _, _, -, -, hlongest⟩ := (munches_of_tokensFrom htokens).spells hplaced
  exact hlongest.spells.isWord.2

/-- With finite registers, and with the standard's facts about which results are numbers, every node
of an expression without undefined literals tells what is undefined from what is infinite. The
expressions that texts are parsed to have no such literals. -/
theorem tells_undefined_from_infinite (standard : arithmetic.Standard) (finite : registers.Finite) :
    (∀ text tokens node, tokenize text = .ok tokens → ofTokens tokens = .ok node →
      node.NumericLiterals) ∧
    ∀ node : Expression, node.NumericLiterals →
      ∀ part ∈ node.parts, part.Distinguishes arithmetic registers := by
  refine ⟨fun _ _ _ => numericLiterals_of_ofTokens, fun node numeric part hpart => ?_⟩
  have numericPart := numeric.part hpart
  constructor
  · exact evaluate_eq_checked part
  · exact fun value => isNaN_of_unchecked standard finite numericPart
  · exact fun position => isInfiniteAt_of_evaluate standard finite numericPart
  · rintro operator operand position value rfl hoperand
    exact not_isUndefined_unary hoperand
  · rintro operator left right position x y rfl hleft hright
    exact isUndefined_binary_iff standard hleft hright

end Expression

namespace Arithmetic

/-- The arithmetic of the machine with constants for the functions that it brings along. Where it
has no power there is none here either. -/
def coarse : Arithmetic where
  __ := binary64
  power base exponent := if base < 0 ∧ ¬ IsWhole exponent then 0 / 0 else 1
  exp _ := 1
  sin _ := 0
  cos _ := 1
  tan _ := 0
  log _ := 0
  log10 _ := 0

theorem standard_coarse : coarse.Standard := by
  have zero : (0 : Float).isNaN = false := by decide +kernel
  have one : (1 : Float).isNaN = false := by decide +kernel
  have undefined : (0 / 0 : Float).isNaN = true := by decide +kernel
  refine { add := isNaN_add, subtract := isNaN_sub, multiply := isNaN_mul, divide := isNaN_div,
           radians := algebraic_binary64.radians, squareRoot := isNaN_sqrt, exp := fun _ => one,
           sin := fun _ => zero, cos := fun _ => one, tan := fun _ => zero, log := fun _ _ => zero,
           log10 := fun _ _ => zero, power := fun {x y} _ _ => ?_ }
  show (if x < 0 ∧ ¬ IsWhole y then 0 / 0 else 1 : Float).isNaN = true ↔ _
  split <;> simp_all

end Arithmetic

/-- The square root of a negative number, as a power. -/
def rootOfNegative : Expression :=
  .binary .power (.unary .negate (.literal 8 2) 1) (.literal 0.5 5) 4

theorem rootOfNegative_isUndefined :
    Arithmetic.coarse.Standard ∧ ({} : Registers).Finite ∧ rootOfNegative.NumericLiterals ∧
      rootOfNegative.IsUndefined .coarse {} := by
  have hread : (tokenize "(-8)^0.5" >>= Expression.ofTokens) = .ok rootOfNegative := by
    decide +kernel
  obtain ⟨tokens, htokens, hnode⟩ := bind_eq_ok.mp hread
  obtain ⟨hparsed, hnodes⟩ :=
    Expression.tells_undefined_from_infinite Arithmetic.standard_coarse Registers.finite_default
  have numeric := hparsed _ _ _ htokens hnode
  have distinguishes := hnodes rootOfNegative numeric _ (Expression.mem_parts_self _)
  refine ⟨Arithmetic.standard_coarse, Registers.finite_default, numeric, ?_⟩
  refine (distinguishes.binary .power _ _ 4 (-8) 0.5 rfl ?_ ?_).mpr (.inr ⟨?_, ?_⟩)
  · decide +kernel
  · decide +kernel
  · decide +kernel
  · decide +kernel

end Calculator
