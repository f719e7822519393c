import Calculator.Proofs.Grammar.Derivation

/-!
The grammar without a rule for how many arguments a call has.

What it derives has no tree to evaluate, but an outline: the tokens, the calls among them with the
number of their arguments, the height that the tree would have, and the nesting. The calls are in
the order in which their parentheses are closed. Where every call has one argument, the outline is
that of a derivation of the stricter grammar, and every such derivation has one.
-/

namespace Calculator
namespace Grammar

/-- A call among tokens, with the number of tokens in front of its closing parenthesis. -/
structure Call where
  function : String
  position : Nat
  arguments : Nat
  closing : Nat
deriving DecidableEq, Repr

namespace Call

/-- The same call when more tokens stand in front. -/
def behind (count : Nat) (call : Call) : Call :=
  { call with closing := count + call.closing }

def error (call : Call) : SyntaxError :=
  .argumentCount call.function call.arguments call.position

end Call

structure Outline where
  tokens : List PlacedToken
  calls : List Call
  height : Nat
  nesting : Nat

/-- One or more arguments with commas between them, and the outline of the list. -/
inductive Lists : List Outline → Outline → Prop where
  | last (argument : Outline) : Lists [argument] argument
  | more (comma : Nat) (argument : Outline) {others : List Outline} {list : Outline}
      (rest : Lists others list) :
      Lists (argument :: others)
        ⟨argument.tokens ++ ⟨comma, .symbol .comma⟩ :: list.tokens,
          argument.calls ++ list.calls.map (·.behind (argument.tokens.length + 1)),
          max argument.height list.height, max argument.nesting list.nesting⟩

/-- A phrase that may have calls with any number of arguments. A call without arguments has no
operand inside it, so it nests nothing. -/
inductive Outlines : Phrase → Outline → Prop where
  | literal (value : Float) (position : Nat) :
      Outlines .primary ⟨[⟨position, .number value⟩], [], 1, 0⟩
  | reference (name : String) (position : Nat) :
      Outlines .primary ⟨[⟨position, .identifier name⟩], [], 1, 0⟩
  | empty (function : String) (position opening closing : Nat) :
      Outlines .primary
        ⟨[⟨position, .identifier function⟩, ⟨opening, .symbol .opening⟩,
          ⟨closing, .symbol .closing⟩], [⟨function, position, 0, 2⟩], 1, 0⟩
  | call (function : String) (position opening closing : Nat) {arguments : List Outline}
      {list : Outline} (inner : ∀ argument ∈ arguments, Outlines .expression argument)
      (lists : Lists arguments list) :
      Outlines .primary
        ⟨⟨position, .identifier function⟩ :: ⟨opening, .symbol .opening⟩ ::
            (list.tokens ++ [⟨closing, .symbol .closing⟩]),
          list.calls.map (·.behind 2) ++
            [⟨function, position, arguments.length, list.tokens.length + 2⟩],
          list.height + 1, list.nesting + 1⟩
  | group (opening closing : Nat) {inside : Outline} (inner : Outlines .expression inside) :
      Outlines .primary
        ⟨⟨opening, .symbol .opening⟩ :: (inside.tokens ++ [⟨closing, .symbol .closing⟩]),
          inside.calls.map (·.behind 1), inside.height, inside.nesting + 1⟩
  | base {outline : Outline} (primary : Outlines .primary outline) : Outlines .power outline
  | raise (position : Nat) {base exponent : Outline} (left : Outlines .primary base)
      (right : Outlines .signed exponent) :
      Outlines .power
        ⟨base.tokens ++ ⟨position, .symbol .caret⟩ :: exponent.tokens,
          base.calls ++ exponent.calls.map (·.behind (base.tokens.length + 1)),
          max base.height exponent.height + 1, max base.nesting (exponent.nesting + 1)⟩
  | unsigned {outline : Outline} (power : Outlines .power outline) : Outlines .signed outline
  | sign (position : Nat) {symbol : Symbol} {operator : UnaryOperator} {operand : Outline}
      (known : (symbol, operator) ∈ signOperators) (inner : Outlines .signed operand) :
      Outlines .signed
        ⟨⟨position, .symbol symbol⟩ :: operand.tokens, operand.calls.map (·.behind 1),
          operand.height + 1, operand.nesting + 1⟩
  | factor {outline : Outline} (signed : Outlines .signed outline) : Outlines .product outline
  | multiply (position : Nat) {operator : BinaryOperator} {left right : Outline}
      (known : operator ∈ productOperators) (first : Outlines .product left)
      (second : Outlines .signed right) :
      Outlines .product
        ⟨left.tokens ++ ⟨position, .symbol operator.symbol⟩ :: right.tokens,
          left.calls ++ right.calls.map (·.behind (left.tokens.length + 1)),
          max left.height right.height + 1, max left.nesting right.nesting⟩
  | term {outline : Outline} (product : Outlines .product outline) : Outlines .sum outline
  | add (position : Nat) {operator : BinaryOperator} {left right : Outline}
      (known : operator ∈ sumOperators) (first : Outlines .sum left)
      (second : Outlines .product right) :
      Outlines .sum
        ⟨left.tokens ++ ⟨position, .symbol operator.symbol⟩ :: right.tokens,
          left.calls ++ right.calls.map (·.behind (left.tokens.length + 1)),
          max left.height right.height + 1, max left.nesting right.nesting⟩
  | plain {outline : Outline} (sum : Outlines .sum outline) : Outlines .expression outline
  | marked (position : Nat) {angle : Outline} (sum : Outlines .sum angle) :
      Outlines .expression
        ⟨angle.tokens ++ [⟨position, .identifier Expression.degreeName⟩], angle.calls,
          angle.height + 1, angle.nesting⟩

/-- A phrase has a first token, with what `Derives.first` says of it. -/
theorem Outlines.first {phrase : Phrase} {outline : Outline} (h : Outlines phrase outline) :
    ∃ next rest, outline.tokens = next :: rest ∧ next.token ≠ .symbol .closing ∧
      (phrase = .power ∨ phrase = .primary → next.token.sign? = none) := by
  induction h with
  | literal | reference | empty | call | group => exact ⟨_, _, rfl, by simp, fun _ => rfl⟩
  | sign position known =>
      refine ⟨_, _, rfl, ?_, by simp⟩
      rcases eq_of_mem_signOperators known with ⟨rfl, -⟩ | ⟨rfl, -⟩ <;> simp
  | base _ ih =>
      obtain ⟨next, rest, htokens, hnext, hsign⟩ := ih
      exact ⟨next, rest, htokens, hnext, fun _ => hsign (.inr rfl)⟩
  | raise _ _ _ ih _ =>
      obtain ⟨next, rest, htokens, hnext, hsign⟩ := ih
      exact ⟨next, _, congrArg (· ++ _) htokens, hnext, fun _ => hsign (.inr rfl)⟩
  | unsigned _ ih | factor _ ih | term _ ih | plain _ ih =>
      obtain ⟨next, rest, htokens, hnext, -⟩ := ih
      exact ⟨next, rest, htokens, hnext, by simp⟩
  | multiply _ _ _ _ ih _ | add _ _ _ _ ih _ | marked _ _ ih =>
      obtain ⟨next, rest, htokens, hnext, -⟩ := ih
      exact ⟨next, _, congrArg (· ++ _) htokens, hnext, by simp⟩

section Order

variable {tokens more : List PlacedToken} {calls others : List Call}

/-- Every call is closed among the tokens, and each behind the one in front of it in the list. -/
structure ClosedInOrder (tokens : List PlacedToken) (calls : List Call) : Prop where
  closed : ∀ call ∈ calls, ∃ place, tokens[call.closing]? = some ⟨place, .symbol .closing⟩
  ordered : calls.Pairwise (·.closing < ·.closing)

theorem closedInOrder_nil (tokens : List PlacedToken) : ClosedInOrder tokens [] :=
  ⟨nofun, .nil⟩

theorem ClosedInOrder.closing_lt (h : ClosedInOrder tokens calls) {call : Call}
    (hcall : call ∈ calls) : call.closing < tokens.length := by
  obtain ⟨place, hplace⟩ := h.closed call hcall
  exact (List.getElem?_eq_some_iff.mp hplace).1

theorem ClosedInOrder.append (h : ClosedInOrder tokens calls)
    (hmore : ClosedInOrder more others) :
    ClosedInOrder (tokens ++ more) (calls ++ others.map (·.behind tokens.length)) where
  closed call hcall := by
    rcases List.mem_append.mp hcall with hcall | hcall
    · obtain ⟨place, hplace⟩ := h.closed call hcall
      exact ⟨place, by rwa [List.getElem?_append_left (h.closing_lt hcall)]⟩
    · obtain ⟨other, hother, rfl⟩ := List.mem_map.mp hcall
      obtain ⟨place, hplace⟩ := hmore.closed other hother
      refine ⟨place, ?_⟩
      rw [Call.behind, List.getElem?_append_right (Nat.le_add_right _ _), Nat.add_sub_cancel_left,
        hplace]
  ordered := by
    rw [List.pairwise_append]
    refine ⟨h.ordered, ?_, ?_⟩
    · rw [List.pairwise_map]
      exact hmore.ordered.imp fun hlt => Nat.add_lt_add_left hlt _
    · intro call hcall other hother
      obtain ⟨before, -, rfl⟩ := List.mem_map.mp hother
      exact Nat.lt_of_lt_of_le (h.closing_lt hcall) (Nat.le_add_right _ _)

/-- Tokens without calls in front move the others. -/
theorem ClosedInOrder.behind (h : ClosedInOrder more calls) (tokens : List PlacedToken) :
    ClosedInOrder (tokens ++ more) (calls.map (·.behind tokens.length)) :=
  (closedInOrder_nil tokens).append h

theorem ClosedInOrder.before (h : ClosedInOrder tokens calls) (more : List PlacedToken) :
    ClosedInOrder (tokens ++ more) calls := by
  simpa using h.append (closedInOrder_nil more)

theorem ClosedInOrder.join (h : ClosedInOrder tokens calls) (hmore : ClosedInOrder more others)
    (next : PlacedToken) :
    ClosedInOrder (tokens ++ next :: more)
      (calls ++ others.map (·.behind (tokens.length + 1))) := by
  have hjoined := (h.before [next]).append hmore
  rwa [List.append_assoc, List.length_append, List.length_singleton] at hjoined

theorem closedInOrder_call (function : String) (position arguments closing : Nat)
    (h : ClosedInOrder tokens calls) :
    ClosedInOrder (tokens ++ [⟨closing, .symbol .closing⟩])
      (calls ++ [⟨function, position, arguments, tokens.length⟩]) := by
  have own : ClosedInOrder [⟨closing, .symbol .closing⟩] [⟨function, position, arguments, 0⟩] :=
    ⟨by simp, List.pairwise_singleton _ _⟩
  exact h.append own

theorem Lists.closedInOrder {arguments : List Outline} {list : Outline} (h : Lists arguments list)
    (inner : ∀ argument ∈ arguments, ClosedInOrder argument.tokens argument.calls) :
    ClosedInOrder list.tokens list.calls := by
  induction h with
  | last argument => exact inner argument List.mem_cons_self
  | more comma argument _ ih =>
      exact (inner argument List.mem_cons_self).join
        (ih fun other hother => inner other (List.mem_cons_of_mem _ hother)) _

theorem Outlines.closedInOrder {phrase : Phrase} {outline : Outline}
    (h : Outlines phrase outline) : ClosedInOrder outline.tokens outline.calls := by
  induction h with
  | literal | reference => exact closedInOrder_nil _
  | empty function position opening closing =>
      exact closedInOrder_call function position 0 closing
        (closedInOrder_nil [⟨position, .identifier function⟩, ⟨opening, .symbol .opening⟩])
  | call function position opening closing _ lists ih =>
      have inside := (lists.closedInOrder ih).behind
        [⟨position, .identifier function⟩, ⟨opening, .symbol .opening⟩]
      exact closedInOrder_call function position _ closing inside
  | group opening closing _ ih =>
      exact (ih.behind [⟨opening, .symbol .opening⟩]).before [⟨closing, .symbol .closing⟩]
  | base _ ih | unsigned _ ih | factor _ ih | term _ ih | plain _ ih => exact ih
  | raise _ _ _ ihLeft ihRight => exact ihLeft.join ihRight _
  | sign position _ _ ih => exact ih.behind [⟨position, .symbol _⟩]
  | multiply _ _ _ _ ihLeft ihRight | add _ _ _ _ ihLeft ihRight => exact ihLeft.join ihRight _
  | marked position _ ih => exact ih.before [⟨position, .identifier Expression.degreeName⟩]

end Order

section Strict

variable {phrase : Phrase} {outline : Outline}

/-- Every call has the one argument that it needs. -/
def Counted (calls : List Call) : Prop :=
  ∀ call ∈ calls, call.arguments = 1

theorem counted_append {calls others : List Call} :
    Counted (calls ++ others) ↔ Counted calls ∧ Counted others :=
  List.forall_mem_append

theorem counted_behind {calls : List Call} {count : Nat} :
    Counted (calls.map (·.behind count)) ↔ Counted calls :=
  List.forall_mem_map

/-- Where every call has one argument, the stricter grammar derives the same tokens, with the height
and the nesting of the outline. -/
theorem Outlines.derives (h : Outlines phrase outline) (counted : Counted outline.calls) :
    ∃ node : Expression, node.height = outline.height ∧
      Derives phrase outline.tokens node outline.nesting := by
  induction h with
  | literal value position => exact ⟨_, rfl, .literal value position⟩
  | reference name position => exact ⟨_, rfl, .reference name position⟩
  | empty function position =>
      have := counted _ List.mem_cons_self
      simp at this
  | call function position opening closing _ lists ih =>
      obtain ⟨inside, own⟩ := counted_append.mp counted
      have hlength := own _ List.mem_cons_self
      cases lists with
      | last =>
          obtain ⟨node, hheight, derives⟩ :=
            ih _ List.mem_cons_self (counted_behind.mp inside)
          exact ⟨_, congrArg (· + 1) hheight, .call function position opening closing derives⟩
      | more comma argument rest => cases rest <;> simp at hlength
  | group opening closing _ ih =>
      obtain ⟨node, hheight, derives⟩ := ih (counted_behind.mp counted)
      exact ⟨node, hheight, .group opening closing derives⟩
  | base _ ih =>
      obtain ⟨node, hheight, derives⟩ := ih counted
      exact ⟨node, hheight, .base derives⟩
  | raise position _ _ ihLeft ihRight =>
      obtain ⟨hleft, hright⟩ := counted_append.mp counted
      obtain ⟨base, hbase, left⟩ := ihLeft hleft
      obtain ⟨exponent, hexponent, right⟩ := ihRight (counted_behind.mp hright)
      exact ⟨_, by simp [Expression.height, hbase, hexponent], .raise position left right⟩
  | unsigned _ ih =>
      obtain ⟨node, hheight, derives⟩ := ih counted
      exact ⟨node, hheight, .unsigned derives⟩
  | sign position known _ ih =>
      obtain ⟨node, hheight, derives⟩ := ih (counted_behind.mp counted)
      exact ⟨_, congrArg (· + 1) hheight, .sign position known derives⟩
  | factor _ ih =>
      obtain ⟨node, hheight, derives⟩ := ih counted
      exact ⟨node, hheight, .factor derives⟩
  | multiply position known _ _ ihLeft ihRight =>
      obtain ⟨hleft, hright⟩ := counted_append.mp counted
      obtain ⟨left, hleft, first⟩ := ihLeft hleft
      obtain ⟨right, hright, second⟩ := ihRight (counted_behind.mp hright)
      exact ⟨_, by simp [Expression.height, hleft, hright], .multiply position known first second⟩
  | term _ ih =>
      obtain ⟨node, hheight, derives⟩ := ih counted
      exact ⟨node, hheight, .term derives⟩
  | add position known _ _ ihLeft ihRight =>
      obtain ⟨hleft, hright⟩ := counted_append.mp counted
      obtain ⟨left, hleft, first⟩ := ihLeft hleft
      obtain ⟨right, hright, second⟩ := ihRight (counted_behind.mp hright)
      exact ⟨_, by simp [Expression.height, hleft, hright], .add position known first second⟩
  | plain _ ih =>
      obtain ⟨node, hheight, derives⟩ := ih counted
      exact ⟨node, hheight, .plain derives⟩
  | marked position _ ih =>
      obtain ⟨node, hheight, derives⟩ := ih counted
      exact ⟨_, congrArg (· + 1) hheight, .marked position derives⟩

/-- What the stricter grammar derives has an outline, in which every call has one argument. -/
theorem Derives.outlines {tokens : List PlacedToken} {node : Expression} {nesting : Nat}
    (h : Derives phrase tokens node nesting) :
    ∃ calls, Counted calls ∧ Outlines phrase ⟨tokens, calls, node.height, nesting⟩ := by
  induction h with
  | literal value position => exact ⟨[], nofun, .literal value position⟩
  | reference name position => exact ⟨[], nofun, .reference name position⟩
  | call name position opening closing _ ih =>
      obtain ⟨calls, counted, inner⟩ := ih
      refine ⟨_, counted_append.mpr ⟨counted_behind.mpr counted, ?_⟩,
        .call name position opening closing (List.forall_mem_singleton.mpr inner) (.last _)⟩
      simp [Counted]
  | group opening closing _ ih =>
      obtain ⟨calls, counted, inner⟩ := ih
      exact ⟨_, counted_behind.mpr counted, .group opening closing inner⟩
  | base _ ih =>
      obtain ⟨calls, counted, primary⟩ := ih
      exact ⟨calls, counted, .base primary⟩
  | raise position _ _ ihLeft ihRight =>
      obtain ⟨_, hleft, left⟩ := ihLeft
      obtain ⟨_, hright, right⟩ := ihRight
      exact ⟨_, counted_append.mpr ⟨hleft, counted_behind.mpr hright⟩, .raise position left right⟩
  | unsigned _ ih =>
      obtain ⟨calls, counted, power⟩ := ih
      exact ⟨calls, counted, .unsigned power⟩
  | sign position known _ ih =>
      obtain ⟨calls, counted, inner⟩ := ih
      exact ⟨_, counted_behind.mpr counted, .sign position known inner⟩
  | factor _ ih =>
      obtain ⟨calls, counted, signed⟩ := ih
      exact ⟨calls, counted, .factor signed⟩
  | multiply position known _ _ ihLeft ihRight =>
      obtain ⟨_, hleft, left⟩ := ihLeft
      obtain ⟨_, hright, right⟩ := ihRight
      exact ⟨_, counted_append.mpr ⟨hleft, counted_behind.mpr hright⟩,
        .multiply position known left right⟩
  | term _ ih =>
      obtain ⟨calls, counted, product⟩ := ih
      exact ⟨calls, counted, .term product⟩
  | add position known _ _ ihLeft ihRight =>
      obtain ⟨_, hleft, left⟩ := ihLeft
      obtain ⟨_, hright, right⟩ := ihRight
      exact ⟨_, counted_append.mpr ⟨hleft, counted_behind.mpr hright⟩,
        .add position known left right⟩
  | plain _ ih =>
      obtain ⟨calls, counted, sum⟩ := ih
      exact ⟨calls, counted, .plain sum⟩
  | marked position _ ih =>
      obtain ⟨calls, counted, sum⟩ := ih
      exact ⟨calls, counted, .marked position sum⟩

/-- The stricter grammar is the one in which every call has one argument. -/
theorem derives_iff_counted {tokens : List PlacedToken} {height nesting : Nat} :
    (∃ node : Expression, node.height = height ∧ Derives phrase tokens node nesting) ↔
      ∃ calls, Counted calls ∧ Outlines phrase ⟨tokens, calls, height, nesting⟩ := by
  constructor
  · rintro ⟨node, rfl, derives⟩
    exact derives.outlines
  · rintro ⟨calls, counted, outlines⟩
    exact outlines.derives counted

end Strict

end Grammar
end Calculator
