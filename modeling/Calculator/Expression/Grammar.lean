import Calculator.Error
import Calculator.Expression

/-!
The grammar of expressions, as rules that take an expression off the front of a list of tokens.

Sums are chains of products, products are chains of signed operands, and a sum may end in a degree
mark. What a sign, a power, a parenthesis or a call has inside it is one level deeper. The rules of
one level are built from the rule for signed operands of the next, and there are only finitely many
levels: the deepest rejects whatever it is given. A second limit bounds the height of the trees,
which chains can build without any nesting.
-/

namespace Calculator
namespace Grammar

/-- How many levels of nesting may enclose an operand. -/
def depthLimit : Nat := 128

def heightLimit : Nat := 1024

/-- An expression read and the tokens after it. -/
abbrev Reading := Except SyntaxError (Expression × List PlacedToken)

/-- A rule takes at least one token for every expression that it reads. -/
structure Rule where
  read : List PlacedToken → Reading
  shorter : ∀ {tokens node rest}, read tokens = .ok (node, rest) → rest.length < tokens.length

theorem bind_eq_ok {ε α β : Type} {x : Except ε α} {f : α → Except ε β} {b : β} :
    (x >>= f) = .ok b ↔ ∃ a, x = .ok a ∧ f a = .ok b := by
  cases x <;> simp [bind, Except.bind]

theorem bind_eq_error {ε α β : Type} {x : Except ε α} {f : α → Except ε β} {e : ε} :
    (x >>= f) = .error e ↔ x = .error e ∨ ∃ a, x = .ok a ∧ f a = .error e := by
  cases x <;> simp [bind, Except.bind]

/-- Accepts a new node together with the tokens after it, unless its tree is too high. -/
def build (node : Expression) (rest : List PlacedToken) : Reading :=
  if heightLimit < node.height then .error (.tooDeep node.position) else .ok (node, rest)

theorem build_eq_ok {node tree : Expression} {rest after : List PlacedToken} :
    build node rest = .ok (tree, after) ↔
      node.height ≤ heightLimit ∧ node = tree ∧ rest = after := by
  simp only [build]
  split <;> rename_i h
  · simp [Nat.not_le_of_lt h]
  · simp [Nat.le_of_not_lt h]

/-- Reads an expression by a rule and hands it to what continues it, which may or may not take
further tokens. -/
def Rule.andThen (rule : Rule) (continued : Expression → List PlacedToken → Reading)
    (shorter_or_same : ∀ {first node tokens rest}, continued first tokens = .ok (node, rest) →
      rest.length ≤ tokens.length) : Rule where
  read tokens := do
    let (first, rest) ← rule.read tokens
    continued first rest
  shorter h := by
    obtain ⟨⟨first, rest⟩, hfirst, hcontinued⟩ := bind_eq_ok.mp h
    exact Nat.lt_of_le_of_lt (shorter_or_same hcontinued) (rule.shorter hfirst)

/-- The rest of a chain of operands, after what has been read of it so far. -/
def readChain (operator? : Token → Option BinaryOperator) (operand : Rule) (left : Expression)
    (tokens : List PlacedToken) : Reading :=
  match tokens with
  | [] => .ok (left, [])
  | next :: rest =>
    match operator? next.token with
    | none => .ok (left, next :: rest)
    | some operator =>
      match _h : operand.read rest with
      | .error error => .error error
      | .ok (right, after) =>
        let node := .binary operator left right next.position
        if heightLimit < node.height then .error (.tooDeep next.position)
        else readChain operator? operand node after
termination_by tokens.length
decreasing_by
  have := operand.shorter _h
  simp only [List.length_cons]
  omega

theorem length_le_of_readChain {operator? : Token → Option BinaryOperator} {operand : Rule}
    {left node : Expression} {tokens rest : List PlacedToken}
    (h : readChain operator? operand left tokens = .ok (node, rest)) :
    rest.length ≤ tokens.length := by
  fun_induction readChain operator? operand left tokens with
  | case1 | case2 => simp_all
  | case3 | case4 => simp at h
  | case5 left next tail operator _ right after hread tree _ ih =>
    have := operand.shorter hread
    have := ih h
    simp only [List.length_cons]
    omega

/-- Operands joined by the operators of one level, grouped to the left. -/
def chain (operator? : Token → Option BinaryOperator) (operand : Rule) : Rule :=
  operand.andThen (readChain operator? operand) length_le_of_readChain

def sum (operand : Rule) : Rule :=
  chain Token.additive? (chain Token.multiplicative? operand)

/-- The degree mark that may follow a sum. -/
def readMark (node : Expression) : List PlacedToken → Reading
  | [] => .ok (node, [])
  | next :: rest =>
    if next.token = .identifier Expression.degreeName then
      build (.unary .degrees node next.position) rest
    else .ok (node, next :: rest)

theorem length_le_of_readMark {first node : Expression} {tokens rest : List PlacedToken}
    (h : readMark first tokens = .ok (node, rest)) : rest.length ≤ tokens.length := by
  cases tokens with
  | nil => simp_all [readMark]
  | cons next tail =>
    simp only [readMark] at h
    split at h
    · obtain ⟨-, -, rfl⟩ := build_eq_ok.mp h
      simp
    · obtain ⟨-, rfl⟩ := Prod.mk.inj (Except.ok.inj h)
      simp

def expression (operand : Rule) : Rule :=
  (sum operand).andThen readMark length_le_of_readMark

/-- The expression inside a parenthesis, up to the closing one. -/
def readGroup (inner : Rule) (opening : Nat) (tokens : List PlacedToken) : Reading := do
  let (node, rest) ← inner.read tokens
  match rest with
  | [] => .error (.unclosedParenthesis opening)
  | next :: after =>
    if next.token = .symbol .closing then .ok (node, after)
    else .error (.unexpectedToken next.token.text .closing next.position)

/-- One or more arguments, separated by commas, up to the closing parenthesis. -/
def readArguments (inner : Rule) (opening : Nat) (tokens : List PlacedToken) :
    Except SyntaxError (List Expression × List PlacedToken) :=
  match _h : inner.read tokens with
  | .error error => .error error
  | .ok (_, []) => .error (.unclosedParenthesis opening)
  | .ok (argument, next :: after) =>
    if next.token = .symbol .closing then .ok ([argument], after)
    else if next.token = .symbol .comma then do
      let (others, rest) ← readArguments inner opening after
      return (argument :: others, rest)
    else .error (.unexpectedToken next.token.text .separator next.position)
termination_by tokens.length
decreasing_by
  have := inner.shorter _h
  simp only [List.length_cons] at this
  omega

/-- The arguments of a call, of which there may be none. -/
def readArgumentList (inner : Rule) (opening : Nat) :
    List PlacedToken → Except SyntaxError (List Expression × List PlacedToken)
  | [] => readArguments inner opening []
  | next :: rest =>
    if next.token = .symbol .closing then .ok ([], rest)
    else readArguments inner opening (next :: rest)

/-- A call, if a parenthesis follows the name directly, and otherwise a reference. -/
def readName (inner : Rule) (name : String) (position : Nat) : List PlacedToken → Reading
  | [] => .ok (.reference name position, [])
  | next :: rest =>
    if next.token = .symbol .opening then do
      let (arguments, after) ← readArgumentList inner next.position rest
      match arguments with
      | [argument] => build (.call name argument position) after
      | _ => .error (.argumentCount name arguments.length position)
    else .ok (.reference name position, next :: rest)

def readPrimary (inner : Rule) : List PlacedToken → Reading
  | [] => .error (.unexpectedEnd .operand)
  | ⟨position, token⟩ :: rest =>
    match token with
    | .number value => .ok (.literal value position, rest)
    | .identifier name => readName inner name position rest
    | .symbol .opening => readGroup inner position rest
    | token => .error (.unexpectedToken token.text .operand position)

theorem length_lt_of_readGroup {inner : Rule} {opening : Nat} {node : Expression}
    {tokens rest : List PlacedToken} (h : readGroup inner opening tokens = .ok (node, rest)) :
    rest.length < tokens.length := by
  obtain ⟨⟨tree, after⟩, hinner, hclosing⟩ := bind_eq_ok.mp h
  have := inner.shorter hinner
  cases after with
  | nil => simp at hclosing
  | cons next after =>
    simp only at hclosing
    split at hclosing
    · obtain ⟨-, rfl⟩ := Prod.mk.inj (Except.ok.inj hclosing)
      simp_all only [List.length_cons]
      omega
    · simp at hclosing

theorem length_lt_of_readArguments {inner : Rule} {opening : Nat} {nodes : List Expression}
    {tokens rest : List PlacedToken} (h : readArguments inner opening tokens = .ok (nodes, rest)) :
    rest.length < tokens.length := by
  fun_induction readArguments inner opening tokens generalizing nodes rest with
  | case1 | case2 | case5 => simp at h
  | case3 tokens argument next after hread _ =>
    have := inner.shorter hread
    obtain ⟨-, rfl⟩ := Prod.mk.inj (Except.ok.inj h)
    simp_all only [List.length_cons]
    omega
  | case4 tokens argument next after hread _ _ ih =>
    have := inner.shorter hread
    obtain ⟨⟨others, last⟩, hothers, hlast⟩ := bind_eq_ok.mp h
    have := ih hothers
    obtain ⟨-, rfl⟩ := Prod.mk.inj (Except.ok.inj hlast)
    simp_all only [List.length_cons]
    omega

theorem length_lt_of_readArgumentList {inner : Rule} {opening : Nat} {nodes : List Expression}
    {tokens rest : List PlacedToken}
    (h : readArgumentList inner opening tokens = .ok (nodes, rest)) :
    rest.length < tokens.length := by
  cases tokens with
  | nil => exact length_lt_of_readArguments h
  | cons next tail =>
    simp only [readArgumentList] at h
    split at h
    · obtain ⟨-, rfl⟩ := Prod.mk.inj (Except.ok.inj h)
      simp
    · exact length_lt_of_readArguments h

theorem length_le_of_readName {inner : Rule} {name : String} {position : Nat} {node : Expression}
    {tokens rest : List PlacedToken} (h : readName inner name position tokens = .ok (node, rest)) :
    rest.length ≤ tokens.length := by
  cases tokens with
  | nil =>
    obtain ⟨-, rfl⟩ := Prod.mk.inj (Except.ok.inj h)
    simp
  | cons next tail =>
    simp only [readName] at h
    split at h
    · obtain ⟨⟨arguments, after⟩, harguments, hcall⟩ := bind_eq_ok.mp h
      have := length_lt_of_readArgumentList harguments
      simp only at hcall
      split at hcall
      · obtain ⟨-, -, rfl⟩ := build_eq_ok.mp hcall
        simp only [List.length_cons]
        omega
      · simp at hcall
    · obtain ⟨-, rfl⟩ := Prod.mk.inj (Except.ok.inj h)
      simp

/-- A literal, a name, a call or a parenthesis around the inner rule. -/
def primary (inner : Rule) : Rule where
  read := readPrimary inner
  shorter {tokens} _ _ h := by
    cases tokens with
    | nil => simp [readPrimary] at h
    | cons next tail =>
      simp only [readPrimary] at h
      split at h
      · obtain ⟨-, rfl⟩ := Prod.mk.inj (Except.ok.inj h)
        simp
      · exact Nat.lt_succ_of_le (length_le_of_readName h)
      · exact Nat.lt_succ_of_lt (length_lt_of_readGroup h)
      · simp at h

/-- The exponent that may follow a primary. -/
def readExponent (deeper : Rule) (base : Expression) : List PlacedToken → Reading
  | [] => .ok (base, [])
  | next :: tail =>
    if next.token = .symbol .caret then do
      let (exponent, rest) ← deeper.read tail
      build (.binary .power base exponent next.position) rest
    else .ok (base, next :: tail)

theorem length_le_of_readExponent {deeper : Rule} {base node : Expression}
    {tokens rest : List PlacedToken} (h : readExponent deeper base tokens = .ok (node, rest)) :
    rest.length ≤ tokens.length := by
  cases tokens with
  | nil => simp_all [readExponent]
  | cons next tail =>
    simp only [readExponent] at h
    split at h
    · obtain ⟨⟨exponent, after⟩, hexponent, hnode⟩ := bind_eq_ok.mp h
      have := deeper.shorter hexponent
      obtain ⟨-, -, rfl⟩ := build_eq_ok.mp hnode
      simp only [List.length_cons]
      omega
    · obtain ⟨-, rfl⟩ := Prod.mk.inj (Except.ok.inj h)
      simp

def power (deeper : Rule) : Rule :=
  (primary (expression deeper)).andThen (readExponent deeper) length_le_of_readExponent

/-- A power, or a sign in front of a signed operand of the next level. -/
def signed (deeper : Rule) : Rule where
  read
    | [] => (power deeper).read []
    | next :: rest =>
      match next.token.sign? with
      | none => (power deeper).read (next :: rest)
      | some operator => do
        let (operand, after) ← deeper.read rest
        build (.unary operator operand next.position) after
  shorter {tokens} _ _ h := by
    cases tokens with
    | nil => exact (power deeper).shorter h
    | cons next tail =>
      simp only at h
      split at h
      · exact (power deeper).shorter h
      · obtain ⟨⟨operand, after⟩, hoperand, hnode⟩ := bind_eq_ok.mp h
        have := deeper.shorter hoperand
        obtain ⟨-, -, rfl⟩ := build_eq_ok.mp hnode
        simp only [List.length_cons]
        omega

/-- What stands where no further nesting is allowed. -/
def tooDeep : Rule where
  read
    | [] => .error (.unexpectedEnd .operand)
    | next :: _ => .error (.tooDeep next.position)
  shorter {tokens} _ _ h := by cases tokens <;> simp at h

/-- Signed operands with a number of levels left, their own included. -/
def operand : Nat → Rule
  | 0 => tooDeep
  | levels + 1 => signed (operand levels)

end Grammar

/-- The expression that a list of tokens spells. -/
def Expression.ofTokens (tokens : List PlacedToken) : Except SyntaxError Expression :=
  match tokens with
  | [] => .error .emptyExpression
  | _ => do
    let (node, rest) ← (Grammar.expression (Grammar.operand (Grammar.depthLimit + 1))).read tokens
    match rest with
    | [] => .ok node
    | next :: _ => .error (.trailingToken next.token.text next.position)

end Calculator
