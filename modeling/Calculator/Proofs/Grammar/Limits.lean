import Calculator.Proofs.Grammar.Recorded

/-!
How deep the reader goes, and how high the trees are that it handles, whatever tokens it is given.

Everything that is nested is one deeper, and an activation one below the deepest allowed depth
nests nothing: with a token in front of it it fails, and without one there is nothing left to nest.
So the activations of the rule for signed operands inside one another are bounded, those of readings
that fail included. Every node is measured when it is built from trees that rules have returned, so
no tree that is returned is above the limit and none that is measured is more than one above it.
-/

namespace Calculator
namespace Grammar

/-- A record with a bound on its nesting, in which depths and trees keep their limits. -/
structure Record.Within (record : Record) (nested : Nat) : Prop where
  nested_le : record.nested ≤ nested
  depths_le : ∀ depth ∈ record.depths, depth ≤ depthLimit + 1
  returned_le : ∀ node ∈ record.returned, node.height ≤ heightLimit
  measured_le : ∀ node ∈ record.measured, node.height ≤ heightLimit + 1

namespace Record.Within

variable {nested : Nat} {first second : Record}

theorem empty (nested : Nat) : ({} : Record).Within nested :=
  ⟨Nat.zero_le _, by simp, by simp, by simp⟩

theorem append (hfirst : first.Within nested) (hsecond : second.Within nested) :
    (first ++ second).Within nested where
  nested_le := Nat.max_le.mpr ⟨hfirst.nested_le, hsecond.nested_le⟩
  depths_le depth h :=
    (List.mem_append.mp h).elim (hfirst.depths_le depth) (hsecond.depths_le depth)
  returned_le node h :=
    (List.mem_append.mp h).elim (hfirst.returned_le node) (hsecond.returned_le node)
  measured_le node h :=
    (List.mem_append.mp h).elim (hfirst.measured_le node) (hsecond.measured_le node)

theorem returned {node : Expression} (low : node.height ≤ heightLimit) :
    Record.Within { returned := [node] } nested :=
  ⟨Nat.zero_le _, by simp, by simpa using low, by simp⟩

theorem measured {node : Expression} (low : node.height ≤ heightLimit + 1) :
    Record.Within { measured := [node] } nested :=
  ⟨Nat.zero_le _, by simp, by simp, by simpa using low⟩

end Record.Within

namespace Recorded

variable {α β : Type} {nested : Nat}

/-- A reading that keeps the limits, whether or not it fails, and has a value that meets a
condition if it does not fail. -/
structure Keeps (nested : Nat) (condition : α → Prop) (recorded : Recorded α) : Prop where
  within : recorded.record.Within nested
  value : ∀ value, recorded.outcome = .ok value → condition value

/-- A tree, with the tokens after it, that is not above the limit. -/
def Low (reading : Expression × List PlacedToken) : Prop :=
  reading.1.height ≤ heightLimit

theorem keeps_pure {condition : α → Prop} {value : α} (h : condition value) :
    (pure value : Recorded α).Keeps nested condition where
  within := .empty nested
  value _ found := Except.ok.inj found ▸ h

theorem keeps_fail {condition : α → Prop} (error : SyntaxError) :
    (fail error : Recorded α).Keeps nested condition where
  within := .empty nested
  value _ found := by cases found

namespace Keeps

variable {condition : α → Prop} {final : β → Prop} {first : Recorded α}

theorem andThen {next : ∀ value, first.outcome = .ok value → Recorded β}
    (hfirst : first.Keeps nested condition)
    (hnext : ∀ value h, condition value → (next value h).Keeps nested final) :
    (first.andThen next).Keeps nested final := by
  cases houtcome : first.outcome with
  | error error =>
      rw [andThen_of_error houtcome]
      exact ⟨hfirst.within, by simp⟩
  | ok value =>
      rw [andThen_of_ok houtcome]
      have hvalue := hnext value houtcome (hfirst.value value houtcome)
      exact ⟨hfirst.within.append hvalue.within, hvalue.value⟩

theorem bind {next : α → Recorded β} (hfirst : first.Keeps nested condition)
    (hnext : ∀ value, condition value → (next value).Keeps nested final) :
    (first >>= next).Keeps nested final :=
  hfirst.andThen fun value _ => hnext value

theorem returning {body : RecordedReading} (h : body.Keeps nested Low) :
    (returning body).Keeps nested Low :=
  h.bind fun _ low => ⟨.returned low, fun _ found => Except.ok.inj found ▸ low⟩

theorem activation {depth : Nat} (allowed : depth ≤ depthLimit + 1)
    (h : first.Keeps nested condition) : (activation depth first).Keeps (nested + 1) condition where
  within :=
    { nested_le := Nat.succ_le_succ h.within.nested_le
      depths_le := List.forall_mem_cons.mpr ⟨allowed, h.within.depths_le⟩
      returned_le := h.within.returned_le
      measured_le := h.within.measured_le }
  value := h.value

end Keeps

/-- A node is measured once, before anything else can be done with it. -/
theorem keeps_bounded {node : Expression} (h : node.height ≤ heightLimit + 1) :
    (bounded node).Keeps nested fun node => node.height ≤ heightLimit := by
  have measured : (height node).Keeps nested fun found => found = node.height :=
    ⟨.measured h, fun _ found => (Except.ok.inj found).symm⟩
  refine measured.bind ?_
  rintro _ rfl
  split
  · exact keeps_fail _
  · exact keeps_pure (by omega)

theorem keeps_build {node : Expression} {rest : List PlacedToken}
    (h : node.height ≤ heightLimit + 1) : (build node rest).Keeps nested Low :=
  (keeps_bounded h).bind fun _ low => keeps_pure low

end Recorded

open Recorded (Keeps Low keeps_pure keeps_fail keeps_bounded keeps_build)

/-- A rule that keeps the limits on all tokens. -/
def RecordedRule.Keeps (nested : Nat) (rule : RecordedRule) : Prop :=
  ∀ tokens, (rule.read tokens).Keeps nested Low

variable {nested : Nat} {operand inner : RecordedRule}

theorem keeps_readChain {operator? : Token → Option BinaryOperator}
    (hoperand : operand.Keeps nested) {left : Expression} (tokens : List PlacedToken)
    (low : left.height ≤ heightLimit) :
    (Recorded.readChain operator? operand left tokens).Keeps nested Low := by
  fun_induction Recorded.readChain operator? operand left tokens with
  | case1 left => exact keeps_pure low
  | case2 left next rest h => exact keeps_pure low
  | case3 left next rest operator h ih =>
      refine (hoperand rest).andThen ?_
      rintro ⟨right, after⟩ hread lowRight
      have high : (Expression.binary operator left right next.position).height ≤ heightLimit + 1 :=
        Nat.succ_le_succ (Nat.max_le.mpr ⟨low, lowRight⟩)
      exact (keeps_bounded high).bind fun node lowNode => ih right after hread node lowNode

theorem keeps_readMark {node : Expression} (tokens : List PlacedToken)
    (low : node.height ≤ heightLimit) : (Recorded.readMark node tokens).Keeps nested Low := by
  cases tokens with
  | nil => exact keeps_pure low
  | cons next rest =>
      rw [Recorded.readMark]
      split
      · exact keeps_build (Nat.succ_le_succ low)
      · exact keeps_pure low

theorem keeps_readGroup (hinner : inner.Keeps nested) (opening : Nat)
    (tokens : List PlacedToken) : (Recorded.readGroup inner opening tokens).Keeps nested Low := by
  refine ((hinner tokens).bind ?_).returning
  rintro ⟨node, rest⟩ low
  cases rest with
  | nil => exact keeps_fail _
  | cons next after =>
      dsimp only
      split
      · exact keeps_pure low
      · exact keeps_fail _

/-- Arguments, with the tokens after them, that are not above the limit. -/
def LowArguments (reading : List Expression × List PlacedToken) : Prop :=
  ∀ argument ∈ reading.1, argument.height ≤ heightLimit

theorem keeps_readArguments (hinner : inner.Keeps nested) (opening : Nat)
    (tokens : List PlacedToken) :
    (Recorded.readArguments inner opening tokens).Keeps nested LowArguments := by
  fun_induction Recorded.readArguments inner opening tokens with
  | case1 tokens ih =>
      refine (hinner tokens).andThen ?_
      rintro ⟨argument, rest⟩ hread low
      cases rest with
      | nil => exact keeps_fail _
      | cons next after =>
          dsimp only
          split
          · exact keeps_pure (List.forall_mem_singleton.mpr low)
          · split
            · refine (ih argument next after hread).bind fun _ lowOthers => ?_
              exact keeps_pure (List.forall_mem_cons.mpr ⟨low, lowOthers⟩)
            · exact keeps_fail _

theorem keeps_readArgumentList (hinner : inner.Keeps nested) (opening : Nat)
    (tokens : List PlacedToken) :
    (Recorded.readArgumentList inner opening tokens).Keeps nested LowArguments := by
  cases tokens with
  | nil => exact keeps_readArguments hinner opening []
  | cons next rest =>
      rw [Recorded.readArgumentList]
      split
      · exact keeps_pure (by simp [LowArguments])
      · exact keeps_readArguments hinner opening _

theorem keeps_readName (hinner : inner.Keeps nested) (name : String) (position : Nat)
    (tokens : List PlacedToken) :
    (Recorded.readName inner name position tokens).Keeps nested Low := by
  have reference : (Expression.reference name position).height ≤ heightLimit := by
    simp [Expression.height, heightLimit]
  refine Keeps.returning ?_
  cases tokens with
  | nil => exact keeps_pure reference
  | cons next rest =>
      dsimp only
      split
      · refine (keeps_readArgumentList hinner _ rest).bind ?_
        rintro ⟨_ | ⟨argument, _ | ⟨second, others⟩⟩, after⟩ low
        · exact keeps_fail _
        · exact keeps_build (Nat.succ_le_succ (low argument List.mem_cons_self))
        · exact keeps_fail _
      · exact keeps_pure reference

namespace RecordedRule

theorem keeps_chain {operator? : Token → Option BinaryOperator} (hoperand : operand.Keeps nested) :
    (chain operator? operand).Keeps nested := fun tokens =>
  ((hoperand tokens).bind fun _ low => keeps_readChain hoperand _ low).returning

theorem keeps_sum (hoperand : operand.Keeps nested) : (sum operand).Keeps nested :=
  keeps_chain (keeps_chain hoperand)

theorem keeps_expression (hoperand : operand.Keeps nested) : (expression operand).Keeps nested :=
  fun tokens => ((keeps_sum hoperand tokens).bind fun _ low => keeps_readMark _ low).returning

variable {deeper : Family} {depth : Nat} (hdeeper : (deeper (depth + 1)).Keeps nested)
include hdeeper

theorem keeps_primary : (primary deeper depth).Keeps nested := by
  intro tokens
  refine Keeps.returning ?_
  cases tokens with
  | nil => exact keeps_fail _
  | cons next rest =>
      obtain ⟨position, token⟩ := next
      cases token with
      | number value => exact keeps_pure (by simp [Low, Expression.height, heightLimit])
      | identifier name => exact keeps_readName (keeps_expression hdeeper) name position rest
      | symbol symbol =>
          cases symbol with
          | opening => exact keeps_readGroup (keeps_expression hdeeper) position rest
          | plus | minus | star | slash | caret | closing | comma => exact keeps_fail _
      | blank => exact keeps_fail _

theorem keeps_readExponent {base : Expression} (tokens : List PlacedToken)
    (low : base.height ≤ heightLimit) :
    (readExponent deeper depth base tokens).Keeps nested Low := by
  cases tokens with
  | nil => exact keeps_pure low
  | cons next tail =>
      rw [readExponent]
      split
      · refine (hdeeper tail).bind fun _ lowExponent => ?_
        exact keeps_build (Nat.succ_le_succ (Nat.max_le.mpr ⟨low, lowExponent⟩))
      · exact keeps_pure low

theorem keeps_power : (power deeper depth).Keeps nested := fun tokens =>
  ((keeps_primary hdeeper tokens).bind fun _ low => keeps_readExponent hdeeper _ low).returning

theorem keeps_signed (allowed : depth ≤ depthLimit + 1) :
    (signed deeper depth).Keeps (nested + 1) := by
  intro tokens
  refine Keeps.activation allowed (Keeps.returning ?_)
  cases tokens with
  | nil => exact keeps_power hdeeper []
  | cons next rest =>
      dsimp only
      split
      · exact keeps_fail _
      · cases next.token.sign? with
        | none => exact keeps_power hdeeper (next :: rest)
        | some operator =>
            refine (hdeeper rest).bind fun _ low => ?_
            exact keeps_build (Nat.succ_le_succ low)

omit hdeeper in
/-- One below the deepest allowed depth nothing is nested, so it does not matter by which rule it
would be read. -/
theorem keeps_signed_deepest (deep : depth = depthLimit + 1) : (signed deeper depth).Keeps 1 := by
  intro tokens
  refine Keeps.activation (Nat.le_of_eq deep) (Keeps.returning ?_)
  cases tokens with
  | nil => exact ((keeps_fail _).returning.bind fun _ low => keeps_pure low).returning
  | cons next rest =>
      dsimp only
      rw [if_pos (by omega)]
      exact keeps_fail _

omit hdeeper in
theorem keeps_operand (beyond : RecordedRule) {activations depth levels : Nat}
    (enough : levels < activations) (left : depth + levels = depthLimit + 1) :
    (RecordedRule.operand beyond activations depth).Keeps (levels + 1) := by
  induction levels generalizing activations depth with
  | zero =>
      obtain ⟨activations, rfl⟩ := Nat.exists_eq_succ_of_ne_zero (Nat.ne_zero_of_lt enough)
      exact keeps_signed_deepest left
  | succ levels ih =>
      obtain ⟨activations, rfl⟩ := Nat.exists_eq_succ_of_ne_zero (Nat.ne_zero_of_lt enough)
      exact keeps_signed (ih (Nat.lt_of_succ_lt_succ enough) (by omega)) (by omega)

end RecordedRule

theorem keeps_ofTokens (beyond : RecordedRule) {activations : Nat}
    (enough : depthLimit + 1 < activations) (tokens : List PlacedToken) :
    (Recorded.ofTokens beyond activations tokens).Keeps (depthLimit + 2)
      fun node => node.height ≤ heightLimit := by
  cases tokens with
  | nil => exact keeps_fail _
  | cons next tail =>
      have operand := RecordedRule.keeps_operand beyond enough (Nat.zero_add _)
      refine (RecordedRule.keeps_expression operand (next :: tail)).bind ?_
      rintro ⟨node, rest⟩ low
      cases rest with
      | nil => exact keeps_pure low
      | cons trailing rest => exact keeps_fail _

/-- Whatever the tokens are, and whether or not they are read, at most 130 activations of the rule
for signed operands are inside one another, at the depths from 0 to 129. So a reader that may have
that many, or more, reads the same, whatever it would do in one beyond. No rule returns a tree that
is higher than 1024, in a reading that fails included, and no tree is asked for its height that is
higher than 1025. -/
theorem reading_is_bounded (tokens : List PlacedToken) (beyond : RecordedRule) (activations : Nat)
    (enough : 130 ≤ activations) :
    let reading := Recorded.ofTokens beyond activations tokens
    reading.outcome = Expression.ofTokens tokens ∧
      reading.record.nested ≤ 130 ∧
      (∀ depth ∈ reading.record.depths, depth ≤ 129) ∧
      (∀ node ∈ reading.record.returned, node.height ≤ 1024) ∧
      ∀ node ∈ reading.record.measured, node.height ≤ 1025 := by
  have within := (keeps_ofTokens beyond enough tokens).within
  exact ⟨Recorded.outcome_ofTokens beyond enough tokens, within.nested_le, within.depths_le,
    within.returned_le, within.measured_le⟩

/-- The number after 129 signs is one too deep; another activation would not go unnoticed. -/
theorem signs_reach_the_bound :
    let tokens := List.replicate 129 ⟨0, .symbol .minus⟩ ++ [⟨1, .number 1⟩]
    let beyond : RecordedRule :=
      ⟨fun _ => ⟨.error .emptyExpression, { nested := 1000, depths := [1000] }⟩,
        fun h => by cases h⟩
    (Recorded.ofTokens beyond 130 tokens).record.nested = 130 ∧
      let reading := Recorded.ofTokens beyond 130 tokens
      reading.outcome = Expression.ofTokens tokens ∧
        reading.record.nested ≤ 130 ∧
        (∀ depth ∈ reading.record.depths, depth ≤ 129) ∧
        (∀ node ∈ reading.record.returned, node.height ≤ 1024) ∧
        ∀ node ∈ reading.record.measured, node.height ≤ 1025 := by
  intro tokens beyond
  exact ⟨by decide +kernel, reading_is_bounded tokens beyond 130 (Nat.le_refl 130)⟩

end Grammar
end Calculator
