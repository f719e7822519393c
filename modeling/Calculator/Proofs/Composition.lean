import Calculator.Proofs.Evaluation.Errors
import Calculator.Proofs.Trigonometry

/-!
Texts in parentheses are evaluated on their own.

A text that has a value is closed: none of its parentheses is matched outside of it. So in
parentheses its shorthands are expanded as they are alone, no token reaches over a parenthesis, and
its tokens are an operand of whatever stands around them. An operator between two such operands, a
sign in front of one and a function other than the trigonometric ones therefore only see their
values, unless the whole is nested too deeply.
-/

namespace Calculator
namespace Composition

open Grammar Shorthand
open Trigonometry (call derives_call ofName_name tokensFrom_name)

/-- A text in parentheses. -/
def grouped (text : String) : String :=
  "(" ++ text ++ ")"

def joined (operator : BinaryOperator) (left right : String) : String :=
  grouped left ++ operator.text ++ grouped right

def opposite (text : String) : String :=
  "-" ++ grouped text

/-- The tokens of a text in parentheses, from the tokens that it has alone. -/
def groupTokens (opening closing : Nat) (tokens : List PlacedToken) : List PlacedToken :=
  ⟨opening, .symbol .opening⟩ ::
    (tokens.map (·.relocate (· + (opening + 1))) ++ [⟨closing, .symbol .closing⟩])

section Texts

variable {name text : List Char}

/-- A group is expanded as the text in it, whatever follows, and so is one behind a name that does
not end in a trigonometric one. -/
theorem expandAll_group (plain : ∀ c ∈ name, isPlain c = true)
    (other : ∀ head ∈ trigHeads, ¬ head <:+ name ++ ['(']) (closed : Closed text)
    (rest : List Char) :
    expandAll (name ++ '(' :: (text ++ ')' :: rest)) =
      name ++ '(' :: (expandAll text ++ ')' :: expandAll rest) := by
  rw [expandAll_opening plain other, expandAll_closing closed]

theorem expandAll_bare_group (closed : Closed text) (rest : List Char) :
    expandAll ('(' :: (text ++ ')' :: rest)) = '(' :: (expandAll text ++ ')' :: expandAll rest) :=
  @expandAll_group [] text nofun (by decide) closed rest

theorem expandAll_operator (operator : BinaryOperator) (rest : List Char) :
    expandAll (operator.symbol.char :: rest) = operator.symbol.char :: expandAll rest := by
  have hsymbols : expandSymbols [operator.symbol.char] = [operator.symbol.char] := by
    cases operator <;> decide
  have houtside : isNamePart operator.symbol.char = false ∧ operator.symbol.char ≠ '(' := by
    cases operator <;> decide
  have hpercent : percentDivision operator.symbol.char = [operator.symbol.char] := by
    cases operator <;> decide
  rw [expandAll_cons hsymbols houtside, hpercent]
  rfl

theorem tokensFrom_group {tokens more : List PlacedToken} {rest : List Char} (position : Nat)
    (h : tokensFrom 0 text = .ok tokens)
    (hrest : tokensFrom (position + (byteCount text + 2)) rest = .ok more) :
    tokensFrom position ('(' :: (text ++ ')' :: rest)) =
      .ok (groupTokens position (position + 1 + byteCount text) tokens ++ more) := by
  have hinside : tokensFrom (position + 1) text =
      .ok (tokens.map (·.relocate (· + (position + 1)))) :=
    tokensFrom_eq_ok_iff.mpr ⟨tokens, h, rfl⟩
  have happart : Apart (Symbol.closing.char :: rest) := apart_cons.mpr (by decide)
  have hend : position + 1 + byteCount text + 1 = position + (byteCount text + 2) := by omega
  show tokensFrom position (Symbol.opening.char :: (text ++ Symbol.closing.char :: rest)) = _
  rw [tokensFrom_symbol, tokensFrom_append happart, hinside, tokensFrom_symbol, hend, hrest]
  simp [groupTokens, bind, Except.bind, pure, Except.pure]

end Texts

section Names

variable {function : BuiltIn}

theorem isPlain_of_function (function : BuiltIn) :
    ∀ c ∈ function.name.toList, isPlain c = true := by
  have hall : function.name.toList.all isPlain = true := by cases function <;> decide
  exact fun c hc => List.all_eq_true.mp hall c hc

theorem no_trigHead_of_function (other : function ∉ Trigonometry.functions) :
    ∀ head ∈ trigHeads, ¬ head <:+ function.name.toList ++ ['('] := by
  cases function with
  | sin | cos | tan => exact absurd (by decide) other
  | exp | log | log10 | squareRoot => decide

end Names

section Trees

variable {tokens rightTokens : List PlacedToken} {left right : Expression}
  {nesting rightNesting : Nat}

theorem derives_group (opening closing : Nat) (h : Derives .expression tokens left nesting) :
    Derives .primary (groupTokens opening closing tokens)
      (left.relocate (· + (opening + 1))) (nesting + 1) :=
  .group opening closing (h.relocate _)

/-- Two primary phrases can be the operands of every operator. -/
theorem derives_binary (operator : BinaryOperator) (position : Nat)
    (hleft : Derives .primary tokens left nesting)
    (hright : Derives .primary rightTokens right rightNesting) :
    ∃ depth, Derives .expression (tokens ++ ⟨position, .symbol operator.symbol⟩ :: rightTokens)
      (.binary operator left right position) depth := by
  have first : Derives .signed tokens left nesting := .unsigned (.base hleft)
  have second : Derives .signed rightTokens right rightNesting := .unsigned (.base hright)
  cases operator with
  | add | subtract =>
      exact ⟨_, .plain (.add position (by decide) (.term (.factor first)) (.factor second))⟩
  | multiply | divide =>
      exact ⟨_, .plain (.term (.multiply position (by decide) (.factor first) second))⟩
  | power => exact ⟨_, .plain (.term (.factor (.unsigned (.raise position hleft second))))⟩

theorem derives_opposite (position : Nat) (h : Derives .primary tokens left nesting) :
    Derives .expression (⟨position, .symbol .minus⟩ :: tokens) (.unary .negate left position)
      (nesting + 1) := by
  have known : (Symbol.minus, UnaryOperator.negate) ∈ signOperators := by decide
  exact .plain (.term (.factor (.sign position known (.unsigned (.base h)))))

end Trees

variable {arithmetic : Arithmetic} {registers : Registers} {text right : String} {x y : Float}

/-- What is needed of a text that has a value, to use it in a larger text. -/
theorem parts_of_evaluate (h : evaluate arithmetic registers text = .ok x) :
    ∃ tokens node nesting, tokensFrom 0 (expandAll text.toList) = .ok tokens ∧
      Derives .expression tokens node nesting ∧ Closed text.toList ∧
      ∀ move, (node.relocate move).evaluate arithmetic registers = .ok x := by
  obtain ⟨tokens, node, nesting, htokens, derives, -, -, hvalue⟩ := derives_of_evaluate h
  have henclosed := derives.enclosed
  rw [← parentheses_of_tokensFrom htokens, filter_expandAll] at henclosed
  exact ⟨tokens, node, nesting, htokens, derives, henclosed.2,
    fun move => Relocation.evaluate_relocate_eq_ok.mpr hvalue⟩

theorem utf8ByteSize_grouped (closed : Closed text.toList) :
    (expand (grouped text)).utf8ByteSize = byteCount (expandAll text.toList) + 2 := by
  have htext : (grouped text).toList = '(' :: (text.toList ++ ')' :: []) := by simp [grouped]
  rw [expand, ← byteCount_eq, htext, expandAll_bare_group closed, byteCount_cons, byteCount_append]
  have hparentheses : '('.utf8Size + byteCount [')'] = 2 := by decide
  rw [expandAll_nil]
  omega

/-- The operator of two groups has the values of the texts in them as its operands. Its position is
the end of the first group. -/
theorem evaluate_joined (operator : BinaryOperator)
    (hx : evaluate arithmetic registers text = .ok x)
    (hy : evaluate arithmetic registers right = .ok y)
    (shallow : ¬ ExceedsLimits arithmetic registers (joined operator text right)) :
    evaluate arithmetic registers (joined operator text right) =
      (do
        let position := (expand (grouped text)).utf8ByteSize
        let value ← operator.apply arithmetic x y position
        checkFinite value position).mapError .inEvaluation := by
  obtain ⟨tokens, node, nesting, htokens, derives, closed, hvalue⟩ := parts_of_evaluate hx
  obtain ⟨tokens', node', nesting', htokens', derives', closed', hvalue'⟩ := parts_of_evaluate hy
  rw [utf8ByteSize_grouped closed]
  generalize hposition : byteCount (expandAll text.toList) + 2 = position
  have htext : (joined operator text right).toList =
      '(' :: (text.toList ++ ')' :: operator.symbol.char ::
        '(' :: (right.toList ++ ')' :: [])) := by
    simp [joined, grouped, BinaryOperator.text]
  have hexpanded : expandAll (joined operator text right).toList =
      '(' :: (expandAll text.toList ++ ')' :: operator.symbol.char ::
        '(' :: (expandAll right.toList ++ ')' :: [])) := by
    rw [htext, expandAll_bare_group closed, expandAll_operator, expandAll_bare_group closed',
      expandAll_nil]
  have hright := tokensFrom_group (position + 1) htokens' tokensFrom_nil
  have hrest := tokensFrom_symbol_eq_ok operator.symbol hright
  rw [← Nat.zero_add position, ← hposition] at hrest
  have hwhole := tokensFrom_group 0 htokens hrest
  rw [← hexpanded, List.append_nil] at hwhole
  obtain ⟨depth, hderives⟩ := derives_binary operator _ (derives_group _ _ derives)
    (derives_group _ _ derives')
  rw [evaluate_of_derives hwhole hderives shallow]
  simp only [Expression.evaluate, hvalue, hvalue', hposition, Nat.zero_add]
  rfl

theorem evaluate_opposite (hx : evaluate arithmetic registers text = .ok x)
    (shallow : ¬ ExceedsLimits arithmetic registers (opposite text)) :
    evaluate arithmetic registers (opposite text) = .ok (-x) := by
  obtain ⟨tokens, node, nesting, htokens, derives, closed, hvalue⟩ := parts_of_evaluate hx
  have htext : (opposite text).toList =
      BinaryOperator.subtract.symbol.char :: '(' :: (text.toList ++ ')' :: []) := by
    simp [opposite, grouped]
    rfl
  have hexpanded : expandAll (opposite text).toList =
      Symbol.minus.char :: '(' :: (expandAll text.toList ++ ')' :: []) := by
    rw [htext, expandAll_operator, expandAll_bare_group closed, expandAll_nil]
    rfl
  have hgroup := tokensFrom_group (0 + 1) htokens tokensFrom_nil
  have hwhole := tokensFrom_symbol_eq_ok .minus hgroup
  rw [← hexpanded, List.append_nil] at hwhole
  rw [evaluate_of_derives hwhole (derives_opposite 0 (derives_group _ _ derives)) shallow]
  have hfinite : (-x).isFinite = true := Magnitude.isFinite_neg (isFinite_of_evaluate hx)
  simp only [Expression.evaluate, hvalue, UnaryOperator.apply, checkFinite, hfinite, bind,
    Except.bind, if_true, Except.mapError]

theorem evaluate_call_of_value {function : BuiltIn} (other : function ∉ Trigonometry.functions)
    (hx : evaluate arithmetic registers text = .ok x)
    (shallow : ¬ ExceedsLimits arithmetic registers (call function text)) :
    evaluate arithmetic registers (call function text) =
      (do
        let value ← function.apply arithmetic x 0
        checkFinite value 0).mapError .inEvaluation := by
  obtain ⟨tokens, node, nesting, htokens, derives, closed, hvalue⟩ := parts_of_evaluate hx
  have hexpanded : expandAll (call function text).toList =
      function.name.toList ++ '(' :: (expandAll text.toList ++ ')' :: []) := by
    rw [Trigonometry.toList_call, expandAll_group (isPlain_of_function function)
      (no_trigHead_of_function other) closed, expandAll_nil]
  have hgroup := tokensFrom_group (0 + byteCount function.name.toList) htokens tokensFrom_nil
  have hstop : ∀ c ∈ ('(' :: (expandAll text.toList ++ ')' :: [])).head?, isNamePart c = false := by
    rintro c ⟨⟩
    decide
  have hwhole := (tokensFrom_name function 0 hstop).trans (bind_eq_ok.mpr ⟨_, hgroup, rfl⟩)
  rw [← hexpanded, List.append_nil] at hwhole
  rw [evaluate_of_derives hwhole (derives_call _ _ _ _ (derives.relocate _)) shallow]
  simp only [Expression.evaluate, ofName_name, hvalue]
  rfl

/-- What is in parentheses counts only by its value. For texts with values `x` and `y`, an operator
between the two in parentheses is applied to `x` and `y`, a sign in front of the first gives `-x`,
and a function that is not a trigonometric one is applied to `x`, or the whole breaks a limit. -/
theorem evaluate_parenthesized (hx : evaluate arithmetic registers text = .ok x)
    (hy : evaluate arithmetic registers right = .ok y) :
    (∀ operator : BinaryOperator,
      ExceedsLimits arithmetic registers (joined operator text right) ∨
      evaluate arithmetic registers (joined operator text right) =
        (do
          let position := (expand (grouped text)).utf8ByteSize
          let value ← operator.apply arithmetic x y position
          checkFinite value position).mapError .inEvaluation) ∧
    (ExceedsLimits arithmetic registers (opposite text) ∨
      evaluate arithmetic registers (opposite text) = .ok (-x)) ∧
    ∀ function : BuiltIn, function ∉ Trigonometry.functions →
      ExceedsLimits arithmetic registers (call function text) ∨
      evaluate arithmetic registers (call function text) =
        (do
          let value ← function.apply arithmetic x 0
          checkFinite value 0).mapError .inEvaluation := by
  refine ⟨fun operator => ?_, ?_, fun function other => ?_⟩
  · exact or_iff_not_imp_left.mpr (evaluate_joined operator hx hy)
  · exact or_iff_not_imp_left.mpr (evaluate_opposite hx)
  · exact or_iff_not_imp_left.mpr (evaluate_call_of_value other hx)

theorem evaluate_one_over_zero :
    evaluate .binary64 {} "1" = .ok 1 ∧ evaluate .binary64 {} "0" = .ok 0 ∧
    ¬ ExceedsLimits .binary64 {} (joined .divide "1" "0") ∧
    evaluate .binary64 {} (joined .divide "1" "0") =
      .error (.inEvaluation (.undefinedResult "/" [1, 0] 3)) := by
  have hone : evaluate .binary64 {} "1" = .ok 1 := by decide +kernel
  have hzero : evaluate .binary64 {} "0" = .ok 0 := by decide +kernel
  have shallow : ¬ ExceedsLimits .binary64 {} (joined .divide "1" "0") :=
    shallow_of_ofText (by decide +kernel)
  have hjoined := ((evaluate_parenthesized hone hzero).1 .divide).resolve_left shallow
  exact ⟨hone, hzero, shallow, hjoined.trans (by decide +kernel)⟩

end Composition
end Calculator
