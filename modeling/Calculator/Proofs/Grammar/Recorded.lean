import Calculator.Expression.Grammar

/-!
The reader with a record of what it does.

The rules here do what the rules of the grammar do and keep a record besides: how many activations
of the rule for signed operands, which all nesting goes through, are inside one another and at which
depths, which trees the rules return, and which trees are asked for their height. A rule knows how
deep it is by a number that it hands on, one higher wherever something is nested, and nothing but
that number keeps it from going deeper. So the activations are given a bound of their own, and what
stands in for the one beyond it may do anything.
-/

namespace Calculator
namespace Grammar

structure Record where
  /-- The most activations that were inside one another. -/
  nested : Nat := 0
  /-- The depths of the activations. -/
  depths : List Nat := []
  /-- The trees that rules returned. -/
  returned : List Expression := []
  /-- The trees that were asked for their height. -/
  measured : List Expression := []

instance : Append Record where
  append first second :=
    ⟨max first.nested second.nested, first.depths ++ second.depths,
      first.returned ++ second.returned, first.measured ++ second.measured⟩

/-- The outcome of a reading and the record of it, up to where it fails if it does. -/
structure Recorded (α : Type) where
  outcome : Except SyntaxError α
  record : Record := {}

abbrev RecordedReading := Recorded (Expression × List PlacedToken)

namespace Recorded

variable {α β : Type}

/-- Goes on with the value of a reading. -/
def andThen (first : Recorded α) (next : ∀ value, first.outcome = .ok value → Recorded β) :
    Recorded β :=
  match h : first.outcome with
  | .error error => ⟨.error error, first.record⟩
  | .ok value => ⟨(next value h).outcome, first.record ++ (next value h).record⟩

instance : Monad Recorded where
  pure value := ⟨.ok value, {}⟩
  bind first next := first.andThen fun value _ => next value

def fail (error : SyntaxError) : Recorded α :=
  ⟨.error error, {}⟩

def height (node : Expression) : Recorded Nat :=
  ⟨.ok node.height, { measured := [node] }⟩

/-- What happens in an activation of the rule for signed operands. -/
def activation (depth : Nat) (body : Recorded α) : Recorded α :=
  ⟨body.outcome,
    { body.record with
      nested := body.record.nested + 1
      depths := depth :: body.record.depths }⟩

/-- What a rule does, and that it returns a tree if it does not fail. -/
def returning (body : RecordedReading) : RecordedReading := do
  let (node, rest) ← body
  ⟨.ok (node, rest), { returned := [node] }⟩

theorem andThen_of_error {first : Recorded α} {error : SyntaxError}
    {next : ∀ value, first.outcome = .ok value → Recorded β} (h : first.outcome = .error error) :
    first.andThen next = ⟨.error error, first.record⟩ := by
  unfold andThen
  split <;> simp_all

theorem andThen_of_ok {first : Recorded α} {value : α}
    {next : ∀ value, first.outcome = .ok value → Recorded β} (h : first.outcome = .ok value) :
    first.andThen next = ⟨(next value h).outcome, first.record ++ (next value h).record⟩ := by
  unfold andThen
  split
  · simp_all
  · rename_i found hfound
    obtain rfl : value = found := by simpa using h.symm.trans hfound
    rfl

@[simp] theorem outcome_activation (depth : Nat) (body : Recorded α) :
    (activation depth body).outcome = body.outcome := rfl

@[simp] theorem outcome_bind (first : Recorded α) (next : α → Recorded β) :
    (first >>= next).outcome = first.outcome >>= fun value => (next value).outcome := by
  obtain ⟨outcome, record⟩ := first
  cases outcome <;> rfl

@[simp] theorem outcome_returning (body : RecordedReading) :
    (returning body).outcome = body.outcome := by
  rw [returning, outcome_bind]
  cases body.outcome <;> rfl

/-- Passes a new node on unless its tree is too high. -/
def bounded (node : Expression) : Recorded Expression := do
  let height ← height node
  if heightLimit < height then fail (.tooDeep node.position) else pure node

def build (node : Expression) (rest : List PlacedToken) : RecordedReading := do
  let node ← bounded node
  pure (node, rest)

theorem outcome_bounded (node : Expression) :
    (bounded node).outcome =
      if heightLimit < node.height then .error (.tooDeep node.position) else .ok node := by
  rw [bounded, outcome_bind]
  show Recorded.outcome (if heightLimit < node.height then _ else _) = _
  split <;> rfl

@[simp] theorem outcome_build (node : Expression) (rest : List PlacedToken) :
    (build node rest).outcome = Grammar.build node rest := by
  rw [build, outcome_bind, outcome_bounded, Grammar.build]
  split <;> rfl

end Recorded

structure RecordedRule where
  read : List PlacedToken → RecordedReading
  shorter : ∀ {tokens node rest}, (read tokens).outcome = .ok (node, rest) →
    rest.length < tokens.length

namespace RecordedRule

/-- The rule without its record. -/
def plain (rule : RecordedRule) : Rule where
  read tokens := (rule.read tokens).outcome
  shorter := rule.shorter

/-- A record for a rule of the grammar. -/
def ofRule (rule : Rule) (read : List PlacedToken → RecordedReading)
    (same : ∀ tokens, (read tokens).outcome = rule.read tokens) : RecordedRule where
  read
  shorter h := rule.shorter ((same _).symm.trans h)

theorem plain_ofRule {rule : Rule} {read : List PlacedToken → RecordedReading}
    (same : ∀ tokens, (read tokens).outcome = rule.read tokens) :
    (ofRule rule read same).plain = rule := by
  obtain ⟨plainRead, _⟩ := rule
  obtain rfl : plainRead = fun tokens => (read tokens).outcome := (funext same).symm
  rfl

end RecordedRule

namespace Recorded

def readChain (operator? : Token → Option BinaryOperator) (operand : RecordedRule)
    (left : Expression) (tokens : List PlacedToken) : RecordedReading :=
  match tokens with
  | [] => pure (left, [])
  | next :: rest =>
    match operator? next.token with
    | none => pure (left, next :: rest)
    | some operator =>
      (operand.read rest).andThen fun (right, after) _h => do
        let node ← bounded (.binary operator left right next.position)
        readChain operator? operand node after
termination_by tokens.length
decreasing_by
  have := operand.shorter _h
  simp only [List.length_cons]
  omega

theorem outcome_readChain (operator? : Token → Option BinaryOperator) (operand : RecordedRule)
    (left : Expression) (tokens : List PlacedToken) :
    (readChain operator? operand left tokens).outcome =
      Grammar.readChain operator? operand.plain left tokens := by
  fun_induction Grammar.readChain operator? operand.plain left tokens with
  | case1 => rw [readChain]; rfl
  | case2 left next rest h => rw [readChain, h]; rfl
  | case3 left next rest operator h error hread =>
      rw [readChain, h]
      dsimp only
      rw [andThen_of_error hread]
  | case4 left next rest operator h right after hread node high =>
      rw [readChain, h]
      dsimp only
      rw [andThen_of_ok hread, outcome_bind, outcome_bounded, if_pos high]
      rfl
  | case5 left next rest operator h right after hread node high ih =>
      rw [readChain, h]
      dsimp only
      rw [andThen_of_ok hread, outcome_bind, outcome_bounded, if_neg high]
      exact ih

def readMark (node : Expression) : List PlacedToken → RecordedReading
  | [] => pure (node, [])
  | next :: rest =>
    if next.token = .identifier Expression.degreeName then
      build (.unary .degrees node next.position) rest
    else pure (node, next :: rest)

theorem outcome_readMark (node : Expression) (tokens : List PlacedToken) :
    (readMark node tokens).outcome = Grammar.readMark node tokens := by
  cases tokens with
  | nil => rfl
  | cons next rest =>
      rw [readMark, Grammar.readMark]
      split
      · exact outcome_build _ _
      · rfl

def readGroup (inner : RecordedRule) (opening : Nat) (tokens : List PlacedToken) :
    RecordedReading :=
  returning do
    let (node, rest) ← inner.read tokens
    match rest with
    | [] => fail (.unclosedParenthesis opening)
    | next :: after =>
      if next.token = .symbol .closing then pure (node, after)
      else fail (.unexpectedToken next.token.text .closing next.position)

theorem outcome_readGroup (inner : RecordedRule) (opening : Nat) (tokens : List PlacedToken) :
    (readGroup inner opening tokens).outcome = Grammar.readGroup inner.plain opening tokens := by
  rw [readGroup, outcome_returning, outcome_bind, Grammar.readGroup]
  refine congrArg _ (funext ?_)
  rintro ⟨node, rest⟩
  cases rest with
  | nil => rfl
  | cons next after =>
      dsimp only
      split <;> rfl

def readArguments (inner : RecordedRule) (opening : Nat) (tokens : List PlacedToken) :
    Recorded (List Expression × List PlacedToken) :=
  (inner.read tokens).andThen fun (argument, rest) _h =>
    match rest, _h with
    | [], _ => fail (.unclosedParenthesis opening)
    | next :: after, _h =>
      if next.token = .symbol .closing then pure ([argument], after)
      else if next.token = .symbol .comma then do
        let (others, last) ← readArguments inner opening after
        pure (argument :: others, last)
      else fail (.unexpectedToken next.token.text .separator next.position)
termination_by tokens.length
decreasing_by
  have := inner.shorter _h
  simp only [List.length_cons] at this
  omega

theorem outcome_readArguments (inner : RecordedRule) (opening : Nat) (tokens : List PlacedToken) :
    (readArguments inner opening tokens).outcome =
      Grammar.readArguments inner.plain opening tokens := by
  fun_induction Grammar.readArguments inner.plain opening tokens with
  | case1 tokens error hread => rw [readArguments, andThen_of_error hread]
  | case2 tokens argument hread => rw [readArguments, andThen_of_ok hread]; rfl
  | case3 tokens argument next after hread closing =>
      rw [readArguments, andThen_of_ok hread]
      simp only [if_pos closing]
      rfl
  | case4 tokens argument next after hread closing comma ih =>
      rw [readArguments, andThen_of_ok hread]
      simp only [if_neg closing, if_pos comma, outcome_bind, ih]
      rfl
  | case5 tokens argument next after hread closing comma =>
      rw [readArguments, andThen_of_ok hread]
      simp only [if_neg closing, if_neg comma]
      rfl

def readArgumentList (inner : RecordedRule) (opening : Nat) :
    List PlacedToken → Recorded (List Expression × List PlacedToken)
  | [] => readArguments inner opening []
  | next :: rest =>
    if next.token = .symbol .closing then pure ([], rest)
    else readArguments inner opening (next :: rest)

theorem outcome_readArgumentList (inner : RecordedRule) (opening : Nat)
    (tokens : List PlacedToken) :
    (readArgumentList inner opening tokens).outcome =
      Grammar.readArgumentList inner.plain opening tokens := by
  cases tokens with
  | nil => exact outcome_readArguments inner opening []
  | cons next rest =>
      rw [readArgumentList, Grammar.readArgumentList]
      split
      · rfl
      · exact outcome_readArguments inner opening _

def readName (inner : RecordedRule) (name : String) (position : Nat)
    (tokens : List PlacedToken) : RecordedReading :=
  returning <|
    match tokens with
    | [] => pure (.reference name position, [])
    | next :: rest =>
      if next.token = .symbol .opening then do
        let (arguments, after) ← readArgumentList inner next.position rest
        match arguments with
        | [argument] => build (.call name argument position) after
        | _ => fail (.argumentCount name arguments.length position)
      else pure (.reference name position, next :: rest)

theorem outcome_readName (inner : RecordedRule) (name : String) (position : Nat)
    (tokens : List PlacedToken) :
    (readName inner name position tokens).outcome =
      Grammar.readName inner.plain name position tokens := by
  cases tokens with
  | nil => rfl
  | cons next rest =>
      rw [readName, outcome_returning, Grammar.readName]
      split
      · rw [outcome_bind, outcome_readArgumentList]
        refine congrArg _ (funext ?_)
        rintro ⟨_ | ⟨argument, _ | ⟨second, others⟩⟩, after⟩
        · rfl
        · exact outcome_build _ _
        · rfl
      · rfl

end Recorded

namespace RecordedRule

open Recorded (returning activation fail)

def chain (operator? : Token → Option BinaryOperator) (operand : RecordedRule) : RecordedRule :=
  ofRule (Grammar.chain operator? operand.plain)
    (fun tokens => returning do
      let (left, rest) ← operand.read tokens
      Recorded.readChain operator? operand left rest)
    (fun tokens => by
      simp only [Recorded.outcome_returning, Recorded.outcome_bind, Recorded.outcome_readChain]
      rfl)

theorem plain_chain (operator? : Token → Option BinaryOperator) (operand : RecordedRule) :
    (chain operator? operand).plain = Grammar.chain operator? operand.plain :=
  plain_ofRule _

def sum (operand : RecordedRule) : RecordedRule :=
  chain Token.additive? (chain Token.multiplicative? operand)

theorem plain_sum (operand : RecordedRule) : (sum operand).plain = Grammar.sum operand.plain := by
  rw [sum, plain_chain, plain_chain, Grammar.sum]

def expression (operand : RecordedRule) : RecordedRule :=
  ofRule (Grammar.expression operand.plain)
    (fun tokens => returning do
      let (node, rest) ← (sum operand).read tokens
      Recorded.readMark node rest)
    (fun tokens => by
      rw [Grammar.expression, ← plain_sum]
      simp only [Recorded.outcome_returning, Recorded.outcome_bind, Recorded.outcome_readMark]
      rfl)

theorem plain_expression (operand : RecordedRule) :
    (expression operand).plain = Grammar.expression operand.plain :=
  plain_ofRule _

/-- What a rule of some depth may nest: the rule for signed operands at any depth. -/
abbrev Family := Nat → RecordedRule

def primary (deeper : Family) (depth : Nat) : RecordedRule :=
  ofRule (Grammar.primary (Grammar.expression (deeper (depth + 1)).plain))
    (fun tokens => returning <|
      match tokens with
      | [] => fail (.unexpectedEnd .operand)
      | ⟨position, token⟩ :: rest =>
        match token with
        | .number value => pure (.literal value position, rest)
        | .identifier name =>
          Recorded.readName (expression (deeper (depth + 1))) name position rest
        | .symbol .opening => Recorded.readGroup (expression (deeper (depth + 1))) position rest
        | token => fail (.unexpectedToken token.text .operand position))
    (fun tokens => by
      rw [Recorded.outcome_returning, ← plain_expression]
      cases tokens with
      | nil => rfl
      | cons next rest =>
        obtain ⟨position, token⟩ := next
        cases token with
        | number value => rfl
        | identifier name => exact Recorded.outcome_readName _ name position rest
        | symbol symbol =>
          cases symbol with
          | opening => exact Recorded.outcome_readGroup _ position rest
          | plus | minus | star | slash | caret | closing | comma => rfl
        | blank => rfl)

theorem plain_primary (deeper : Family) (depth : Nat) :
    (primary deeper depth).plain =
      Grammar.primary (Grammar.expression (deeper (depth + 1)).plain) :=
  plain_ofRule _

def readExponent (deeper : Family) (depth : Nat) (base : Expression) :
    List PlacedToken → RecordedReading
  | [] => pure (base, [])
  | next :: tail =>
    if next.token = .symbol .caret then do
      let (exponent, rest) ← (deeper (depth + 1)).read tail
      Recorded.build (.binary .power base exponent next.position) rest
    else pure (base, next :: tail)

theorem outcome_readExponent (deeper : Family) (depth : Nat) (base : Expression)
    (tokens : List PlacedToken) :
    (readExponent deeper depth base tokens).outcome =
      Grammar.readExponent (deeper (depth + 1)).plain base tokens := by
  cases tokens with
  | nil => rfl
  | cons next tail =>
      rw [readExponent, Grammar.readExponent]
      split
      · simp only [Recorded.outcome_bind, Recorded.outcome_build]
        rfl
      · rfl

def power (deeper : Family) (depth : Nat) : RecordedRule :=
  ofRule (Grammar.power (deeper (depth + 1)).plain)
    (fun tokens => returning do
      let (base, rest) ← (primary deeper depth).read tokens
      readExponent deeper depth base rest)
    (fun tokens => by
      rw [Grammar.power, ← plain_primary]
      simp only [Recorded.outcome_returning, Recorded.outcome_bind, outcome_readExponent]
      rfl)

theorem plain_power (deeper : Family) (depth : Nat) :
    (power deeper depth).plain = Grammar.power (deeper (depth + 1)).plain :=
  plain_ofRule _

/-- The rule of the grammar for signed operands at a depth. -/
def signedAt (deeper : Rule) (depth : Nat) : Rule :=
  if depthLimit < depth then tooDeep else Grammar.signed deeper

def signed (deeper : Family) (depth : Nat) : RecordedRule :=
  ofRule (signedAt (deeper (depth + 1)).plain depth)
    (fun tokens => activation depth <| returning <|
      match tokens with
      | [] => (power deeper depth).read []
      | next :: rest =>
        if depthLimit < depth then fail (.tooDeep next.position)
        else
          match next.token.sign? with
          | none => (power deeper depth).read (next :: rest)
          | some operator => do
            let (operand, after) ← (deeper (depth + 1)).read rest
            Recorded.build (.unary operator operand next.position) after)
    (fun tokens => by
      rw [Recorded.outcome_activation, Recorded.outcome_returning]
      cases tokens with
      | nil =>
        show (power deeper depth).plain.read [] = _
        rw [plain_power, signedAt]
        split <;> rfl
      | cons next rest =>
        dsimp only
        rw [signedAt]
        split
        · rfl
        · simp only [Grammar.signed]
          cases next.token.sign? with
          | none => exact congrArg (Rule.read · _) (plain_power deeper depth)
          | some operator =>
            simp only [Recorded.outcome_bind, Recorded.outcome_build]
            rfl)

theorem plain_signed (deeper : Family) (depth : Nat) :
    (signed deeper depth).plain = signedAt (deeper (depth + 1)).plain depth :=
  plain_ofRule _

/-- The rule for signed operands at a depth, which may have a number of activations inside one
another. The one beyond them is another rule. -/
def operand (beyond : RecordedRule) : Nat → Family
  | 0 => fun _ => beyond
  | activations + 1 => signed (operand beyond activations)

/-- The levels that a rule has left are the depths that it may still go down to. -/
theorem plain_operand (beyond : RecordedRule) {activations depth levels : Nat}
    (enough : levels < activations) (left : depth + levels = depthLimit + 1) :
    (operand beyond activations depth).plain = Grammar.operand levels := by
  -- Each activation takes one level, so the last level still has an activation of its own.
  induction levels generalizing activations depth with
  | zero =>
      obtain ⟨activations, rfl⟩ := Nat.exists_eq_succ_of_ne_zero (Nat.ne_zero_of_lt enough)
      rw [operand, plain_signed, signedAt, if_pos (by omega), Grammar.operand]
  | succ levels ih =>
      obtain ⟨activations, rfl⟩ := Nat.exists_eq_succ_of_ne_zero (Nat.ne_zero_of_lt enough)
      rw [operand, plain_signed, signedAt, if_neg (by omega), Grammar.operand,
        ih (Nat.lt_of_succ_lt_succ enough) (by omega)]

end RecordedRule

/-- The reader of whole token lists, with a record. -/
def Recorded.ofTokens (beyond : RecordedRule) (activations : Nat) :
    List PlacedToken → Recorded Expression
  | [] => .fail .emptyExpression
  | next :: tail => do
    let (node, rest) ←
      (RecordedRule.expression (RecordedRule.operand beyond activations 0)).read (next :: tail)
    match rest with
    | [] => pure node
    | trailing :: _ => .fail (.trailingToken trailing.token.text trailing.position)

theorem Recorded.outcome_ofTokens (beyond : RecordedRule) {activations : Nat}
    (enough : depthLimit + 1 < activations) (tokens : List PlacedToken) :
    (ofTokens beyond activations tokens).outcome = Expression.ofTokens tokens := by
  cases tokens with
  | nil => rfl
  | cons next tail =>
      have same := RecordedRule.plain_operand beyond enough (Nat.zero_add _)
      rw [ofTokens, outcome_bind, Expression.ofTokens, ← same, ← RecordedRule.plain_expression]
      · refine congrArg _ (funext ?_)
        rintro ⟨node, rest⟩
        cases rest <;> rfl
      · simp

end Grammar
end Calculator
