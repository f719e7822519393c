import Calculator.Input
import Calculator.Proofs.Display
import Calculator.Proofs.Float.SignedZero
import Calculator.Proofs.Grammar.Leading
import Calculator.Proofs.Session.Trace

/-!
Lines that go on from the last result.

Such a line is put behind the displayed result, and the whole text is evaluated. So the result
enters the expression as the numeral that it is displayed as, which is a signed operand of its own
in front of every operator but the caret: a power binds tighter than the minus sign of a negative
result. Everywhere else the value is the one that the last answer has in front of the same line.
-/

namespace Calculator
namespace Continuation

open Display Grammar Magnitude Shorthand

/-- The arithmetic of the machine with other powers. -/
def withPower (power : Float → Float → Float) : Arithmetic :=
  { Arithmetic.binary64 with power }

/-- Where the exponent is not negative, the powers of the two zeros are the same numbers. -/
def ZeroPowers (power : Float → Float → Float) : Prop :=
  ∀ y : Float, y.isFinite = true → ¬ y < 0 → (power (-0.0) y == power 0.0 y) = true

section Relations

variable {arithmetic : Arithmetic} {power : Float → Float → Float}

/-- A power of a zero with a negative exponent is undefined, so the sign of the zero does not show
in it either. -/
theorem sameNumber_power (zeroPowers : ZeroPowers power) {x x' y : Float}
    (finite : y.isFinite = true) (same : SameNumber x x')
    (defined : BinaryOperator.power.isUndefinedAt (withPower power) x y = false) :
    SameNumber (power x y) (power x' y) := by
  cases same with
  | inl heq => exact .inl (by rw [heq])
  | inr hzeros =>
      simp only [BinaryOperator.isUndefinedAt, Bool.or_eq_false_iff, Bool.and_eq_false_imp,
        decide_eq_false_iff_not] at defined
      have hexponent := defined.1 (mem_zeros_iff_beq.mp hzeros.1)
      have hsame := sameNumber_of_beq (zeroPowers y finite hexponent)
      simp only [zeros, List.mem_cons, List.not_mem_nil, or_false] at hzeros
      rcases hzeros with ⟨rfl | rfl, rfl | rfl⟩
      · exact .inl rfl
      · exact hsame.symm
      · exact hsame
      · exact .inl rfl

theorem compatible_sameNumber (zeroPowers : ZeroPowers power) :
    Compatible (withPower power) SameNumber where
  unary operator x x' same := by
    cases operator with
    | negate => exact same.neg
    | keep => exact same
    | degrees => exact same.mul _
  binary operator x x' y value value' position position' same finite happly happly' := by
    obtain ⟨defined, rfl⟩ := BinaryOperator.apply_eq_ok.mp happly
    obtain ⟨-, rfl⟩ := BinaryOperator.apply_eq_ok.mp happly'
    cases operator with
    | add => exact same.add y
    | subtract => exact same.sub y
    | multiply => exact same.mul y
    | divide => exact same.div y
    | power => exact sameNumber_power zeroPowers finite same defined

end Relations

section Signs

variable {c : Char}

/-- A line that goes on begins with an operator, once its shorthands are expanded. -/
theorem expandSymbols_sign (h : c ∈ Input.continuations) :
    ∃ d, expandSymbols [c] = [d] ∧ isNamePart d = false ∧ d ≠ '(' ∧
      ∃ (symbol : Symbol) (behind : List Char), percentDivision d = symbol.char :: behind ∧
        (symbol = .caret → c = '^') := by
  simp only [Input.continuations, List.mem_cons, List.not_mem_nil, or_false] at h
  rcases h with rfl | rfl | rfl | rfl | rfl | rfl | rfl
  · exact ⟨'+', rfl, by decide, by decide, .plus, [], rfl, by decide⟩
  · exact ⟨'*', rfl, by decide, by decide, .star, [], rfl, by decide⟩
  · exact ⟨'/', rfl, by decide, by decide, .slash, [], rfl, by decide⟩
  · exact ⟨'^', rfl, by decide, by decide, .caret, [], rfl, by decide⟩
  · exact ⟨'*', rfl, by decide, by decide, .star, [], rfl, by decide⟩
  · exact ⟨'/', rfl, by decide, by decide, .slash, [], rfl, by decide⟩
  · exact ⟨'%', rfl, by decide, by decide, .slash, ['1', '0', '0'], rfl, by decide⟩

theorem expandAll_sign (h : c ∈ Input.continuations) (rest : List Char) :
    ∃ (symbol : Symbol) (tail : List Char), expandAll (c :: rest) = symbol.char :: tail ∧
      (symbol = .caret → c = '^') := by
  obtain ⟨d, hsymbols, hname, hopening, symbol, behind, hpercent, hcaret⟩ := expandSymbols_sign h
  refine ⟨symbol, behind ++ expandAll rest, ?_, hcaret⟩
  rw [expandAll_cons hsymbols ⟨hname, hopening⟩, hpercent, List.cons_append]

theorem apart_sign (h : c ∈ Input.continuations) (rest : List Char) :
    ∀ d ∈ (expandSymbols (c :: rest)).head?, isNamePart d = false ∧ d ≠ '(' := by
  obtain ⟨sign, hsymbols, hname, hopening, -⟩ := expandSymbols_sign h
  rw [← List.singleton_append, expandSymbols_append, hsymbols]
  rintro d ⟨⟩
  exact ⟨hname, hopening⟩

/-- The lines that go on are those that begin with one of the operators. -/
theorem text_of_ofLine {line text : String}
    (h : Input.ofLine line = .commands [.append text, .evaluate]) :
    ∃ c rest, text = String.ofList (c :: rest) ∧ c ∈ Input.continuations := by
  simp only [Input.ofLine] at h
  split at h
  · simp at h
  · rename_i c rest _
    split at h
    · simp only [Input.ofName] at h
      split at h <;> simp at h
    · split at h
      · rename_i hc
        simp only [Input.commands.injEq, List.cons.injEq, Command.append.injEq] at h
        exact ⟨c, rest, h.1.symm, hc⟩
      · simp at h

end Signs

section Openings

/-- Tokens without their places. -/
def unplaced (tokens : List PlacedToken) : List PlacedToken :=
  tokens.map (·.relocate fun _ => 0)

theorem unplaced_append (tokens rest : List PlacedToken) :
    unplaced (tokens ++ rest) = unplaced tokens ++ unplaced rest :=
  List.map_append

theorem unplaced_relocate (move : Nat → Nat) (tokens : List PlacedToken) :
    unplaced (tokens.map (·.relocate move)) = unplaced tokens := by
  simp [unplaced, PlacedToken.relocate]

/-- A text without shorthands that is read as these tokens in front of every operator. -/
structure Opening (text : String) (lead : List PlacedToken) : Prop where
  closed : Closed text.toList
  expanded : expandAll text.toList = text.toList
  reads : ∀ (symbol : Symbol) (tail : List Char),
    tokensFrom 0 (text.toList ++ symbol.char :: tail) = do
      let tokens ← tokensFrom (byteCount text.toList) (symbol.char :: tail)
      return lead ++ tokens

theorem isNamePart_symbol (symbol : Symbol) : isNamePart symbol.char = false := by
  cases symbol <;> decide

theorem endsNumeral_symbol (symbol : Symbol) (tail : List Char) :
    EndsNumeral (symbol.char :: tail) := by
  rintro c ⟨⟩
  cases symbol <;> decide

theorem opening_text {value : Float} {numeral : Numeral} (h : Shows value numeral) :
    Opening (Number.text value) (leafTokens value numeral) where
  closed := closed_of_flat fun c hc =>
    isParenthesis_of_isNumeralPart (isNumeralPart_of_shows h c hc)
  expanded := expandAll_text h
  reads symbol tail := tokensFrom_text h (endsNumeral_symbol symbol tail)

theorem tokensFrom_answer {rest : List Char} {position : Nat}
    (stop : ∀ d ∈ rest.head?, isNamePart d = false) :
    tokensFrom position (Registers.answerName.toList ++ rest) = (do
      let tokens ← tokensFrom (position + 3) rest
      return ⟨position, .identifier Registers.answerName⟩ :: tokens) :=
  @tokensFrom_identifier 'a' ['n', 's'] rest position (by decide) (List.all_eq_true.mp (by decide))
    stop

theorem opening_answer : Opening Registers.answerName [⟨0, .identifier Registers.answerName⟩] where
  closed := by simp [Closed, Registers.answerName, isParenthesis]
  expanded := expandAll_plain (List.all_eq_true.mp (by decide))
  reads symbol tail := by
    rw [tokensFrom_answer (by simp [isNamePart_symbol])]
    rfl

/-- The last answer as the opposite of its opposite. -/
def oppositeText : String := "-(-ans)"

def oppositeTokens : List PlacedToken :=
  [⟨0, .symbol .minus⟩, ⟨1, .symbol .opening⟩, ⟨2, .symbol .minus⟩,
    ⟨3, .identifier Registers.answerName⟩, ⟨6, .symbol .closing⟩]

theorem opening_opposite : Opening oppositeText oppositeTokens where
  closed := by simp [Closed, oppositeText, isParenthesis]
  expanded := by cbv
  reads symbol tail := by
    have htext : oppositeText.toList ++ symbol.char :: tail =
        Symbol.minus.char :: Symbol.opening.char :: Symbol.minus.char ::
          (Registers.answerName.toList ++ Symbol.closing.char :: symbol.char :: tail) := rfl
    rw [htext, tokensFrom_symbol, tokensFrom_symbol, tokensFrom_symbol,
      tokensFrom_answer (by simp [isNamePart_symbol]), tokensFrom_symbol]
    simp only [bind_assoc, pure_bind]
    rfl

variable {arithmetic : Arithmetic} {registers : Registers} {text : String}
  {lead : List PlacedToken} {c : Char} {rest : List Char} {value : Float}

/-- An opening with a line behind it is read as its own tokens and those of the line, wherever they
stand. -/
theorem Opening.derives (opening : Opening text lead) (hc : c ∈ Input.continuations)
    (h : evaluate arithmetic registers (text ++ String.ofList (c :: rest)) = .ok value) :
    ∃ behind node nesting, tokensFrom 0 (expandAll (c :: rest)) = .ok behind ∧
      Derives .expression (unplaced lead ++ unplaced behind) node nesting ∧
      nesting ≤ depthLimit ∧ node.height ≤ heightLimit ∧
      node.evaluate arithmetic registers = .ok value := by
  obtain ⟨tokens, node, nesting, htokens, derives, hnesting, hheight, hvalue⟩ :=
    derives_of_evaluate h
  obtain ⟨symbol, tail, hexpanded, -⟩ := expandAll_sign hc rest
  rw [String.toList_append, String.toList_ofList,
    expandAll_append opening.closed (apart_sign hc rest), opening.expanded, hexpanded,
    opening.reads] at htokens
  obtain ⟨placed, hplaced, htokens⟩ := bind_eq_ok.mp htokens
  obtain ⟨behind, hbehind, rfl⟩ := tokensFrom_eq_ok_iff.mp hplaced
  obtain rfl := Except.ok.inj htokens
  have hunplaced := derives.relocate fun _ => 0
  rw [← unplaced, unplaced_append, unplaced_relocate] at hunplaced
  refine ⟨behind, _, nesting, by rw [hexpanded, hbehind], hunplaced, hnesting, ?_, ?_⟩
  · rw [Expression.height_relocate]
    exact hheight
  · exact Relocation.evaluate_relocate_eq_ok.mpr hvalue

/-- The tokens of a line that goes on begin with its operator. -/
theorem tokens_of_sign {behind : List PlacedToken} (hc : c ∈ Input.continuations)
    (h : tokensFrom 0 (expandAll (c :: rest)) = .ok behind) :
    ∃ symbol more, unplaced behind = ⟨0, .symbol symbol⟩ :: more ∧ (symbol = .caret → c = '^') := by
  obtain ⟨symbol, tail, hexpanded, hcaret⟩ := expandAll_sign hc rest
  rw [hexpanded, tokensFrom_symbol] at h
  obtain ⟨more, -, hbehind⟩ := bind_eq_ok.mp h
  obtain rfl := Except.ok.inj hbehind
  exact ⟨symbol, unplaced more, rfl, hcaret⟩

/-- The same line behind two openings, the one of which replaces the other. -/
theorem Opening.related {text' : String} {lead' : List PlacedToken} {value' : Float}
    {related : Float → Float → Prop} (compatible : Compatible arithmetic related)
    (opening : Opening text lead) (opening' : Opening text' lead')
    (hc : c ∈ Input.continuations)
    (replaces : ∀ behind, tokensFrom 0 (expandAll (c :: rest)) = .ok behind →
      Replaces arithmetic registers related (unplaced lead) (unplaced lead') (unplaced behind))
    (h : evaluate arithmetic registers (text ++ String.ofList (c :: rest)) = .ok value)
    (h' : evaluate arithmetic registers (text' ++ String.ofList (c :: rest)) = .ok value') :
    related value value' := by
  obtain ⟨behind, node, nesting, hbehind, derives, -, -, hvalue⟩ := opening.derives hc h
  obtain ⟨behind', node', nesting', hbehind', derives', hnesting, hheight, hvalue'⟩ :=
    opening'.derives hc h'
  obtain rfl := Except.ok.inj (hbehind.symm.trans hbehind')
  obtain ⟨other, otherNesting, hother, agree⟩ :=
    (replaces behind hbehind).derives compatible derives
  rw [node_eq_of_limits derives' hnesting hheight hother] at agree
  exact agree value value' hvalue hvalue'

end Openings

section Results

variable {arithmetic : Arithmetic} {registers : Registers} {value : Float} {numeral : Numeral}

theorem unplaced_leafTokens (value : Float) (numeral : Numeral) :
    unplaced (leafTokens value numeral) =
      if hasMinus value then [⟨0, .symbol .minus⟩, ⟨0, .number numeral.value⟩]
      else [⟨0, .number numeral.value⟩] := by
  rw [leafTokens]
  split <;> rfl

theorem sameNumber_shown (value : Float) : SameNumber (shown value) value := by
  rw [shown]
  split
  · rename_i hzero
    exact .inr ⟨mem_zeros_iff.mpr (by decide +kernel), mem_zeros_iff.mpr hzero⟩
  · exact .inl rfl

theorem evaluate_answer {position : Nat} {result : Float} :
    (Expression.reference Registers.answerName position).evaluate arithmetic registers =
      .ok result ↔ registers.lastAnswer.isFinite = true ∧ registers.lastAnswer = result := by
  rw [Expression.evaluate_reference_eq_ok]
  simp only [Registers.valueOf, if_true, Except.ok.injEq]
  constructor
  · rintro ⟨heq, hfinite⟩
    exact ⟨heq ▸ hfinite, heq⟩
  · rintro ⟨hfinite, heq⟩
    exact ⟨heq, heq ▸ hfinite⟩

theorem agree_leaf (finite : value.isFinite = true) (h : Shows value numeral)
    (answer : registers.lastAnswer = value) :
    Agree arithmetic registers SameNumber ((leaf value numeral).relocate fun _ => 0)
      (.reference Registers.answerName 0) := by
  intro x x' hx hx'
  have hleaf := Relocation.evaluate_relocate_eq_ok.mp hx
  rw [evaluate_leaf arithmetic registers finite h] at hleaf
  obtain ⟨-, rfl⟩ := evaluate_answer.mp hx'
  rw [← Except.ok.inj hleaf, answer]
  exact sameNumber_shown value

theorem replaces_by_answer {power : Float → Float → Float} {symbol : Symbol}
    {more : List PlacedToken} (compatible : Compatible (withPower power) SameNumber)
    (finite : value.isFinite = true) (h : Shows value numeral)
    (answer : registers.lastAnswer = value) (unraised : hasMinus value = true → symbol ≠ .caret) :
    Replaces (withPower power) registers SameNumber (unplaced (leafTokens value numeral))
      [⟨0, .identifier Registers.answerName⟩] (⟨0, .symbol symbol⟩ :: more) := by
  have agree : Agree (withPower power) registers SameNumber _ _ := agree_leaf finite h answer
  rw [unplaced_leafTokens]
  rw [leaf] at agree
  split
  · rename_i hminus
    rw [if_pos hminus] at agree
    exact replaces_negative_number (unraised hminus) (.unsigned (.base (.reference _ 0))) agree
  · rename_i hplus
    rw [if_neg hplus] at agree
    exact replaces_number compatible (.reference _ 0) agree

theorem toFloat_of_hasMinus (finite : value.isFinite = true) (hminus : hasMinus value = true) :
    toFloat (ofFloat value) = -value := by
  have hbits : value.toBits.toNat < 2 ^ 64 := value.toBits.toBitVec.isLt
  apply float_ext
  rw [toBits_toFloat (isFinite_iff.mp finite), toBits_neg finite]
  simp only [hasMinus, isNegative_iff, Bool.and_eq_true, decide_eq_true_eq] at hminus
  simp only [ofFloat_eq] at hminus ⊢
  omega

theorem replaces_by_opposite {behind : List PlacedToken} (finite : value.isFinite = true)
    (h : Shows value numeral) (answer : registers.lastAnswer = value)
    (hminus : hasMinus value = true) :
    Replaces arithmetic registers Eq (unplaced (leafTokens value numeral))
      (unplaced oppositeTokens) behind := by
  rw [unplaced_leafTokens, if_pos hminus]
  have inner : Derives .expression
      [⟨0, .symbol .minus⟩, ⟨0, .identifier Registers.answerName⟩]
      (.unary .negate (.reference Registers.answerName 0) 0) 1 :=
    .plain (.term (.factor (.sign 0 (by decide) (.unsigned (.base (.reference _ 0))))))
  refine (replaces_number (compatible_eq arithmetic) (.group 0 0 inner) ?_).minus (compatible_eq _)
  intro x x' hx hx'
  obtain ⟨-, rfl⟩ := checkFinite_eq_ok.mp hx
  obtain ⟨y, hy, -, rfl⟩ := Expression.evaluate_unary_eq_ok.mp hx'
  obtain ⟨-, rfl⟩ := evaluate_answer.mp hy
  rw [h.value_eq, toFloat_of_hasMinus finite hminus, answer]
  rfl

end Results

section Sessions

variable {arithmetic : Arithmetic} {session after : Session} {expression text : String}
  {value : Float}

/-- What a session holds after an evaluation that succeeded. -/
theorem apply_evaluate
    (h : session.apply arithmetic .evaluate = (after, some (.evaluated expression value))) :
    evaluate arithmetic session.registers session.buffer = .ok value ∧
      value.isFinite = true ∧ after.buffer = Number.text value ∧
      after.registers.lastAnswer = value := by
  cases hvalue : evaluate arithmetic session.registers session.buffer with
  | error error => simp [Session.apply_evaluate_of_error hvalue] at h
  | ok found =>
      rw [Session.apply_evaluate_of_ok hvalue] at h
      simp only [Prod.mk.injEq, Option.some.injEq, Outcome.evaluated.injEq] at h
      obtain ⟨rfl, -, rfl⟩ := h
      exact ⟨rfl, isFinite_of_evaluate hvalue, rfl, rfl⟩

theorem evaluate_of_run {last : Session}
    (h : session.run arithmetic [.append text, .evaluate] =
      (last, [none, some (.evaluated expression value)])) :
    evaluate arithmetic session.registers (session.buffer ++ text) = .ok value := by
  simp only [Session.run, Prod.mk.injEq, List.cons.injEq] at h
  have happly : (session.apply arithmetic (.append text)).1.apply arithmetic .evaluate =
      (last, some (.evaluated expression value)) := Prod.ext h.1 h.2.2.1
  exact (apply_evaluate happly).1

/-- A line that goes on has the value that it has behind the last answer, unless it raises a
negative result to a power. Behind a negative result it always has the value that it has behind the
opposite of the last answer's opposite, so of a power it has the opposite. -/
theorem continues_last_result {power : Float → Float → Float} {line continued : String}
    {last : Session} {result : Float} (zeroPowers : ZeroPowers power)
    (evaluated : session.apply (withPower power) .evaluate =
      (after, some (.evaluated expression value)))
    (goesOn : Input.ofLine line = .commands [.append text, .evaluate])
    (run : after.run (withPower power) [.append text, .evaluate] =
      (last, [none, some (.evaluated continued result)])) :
    (∀ direct, evaluate (withPower power) after.registers (Registers.answerName ++ text) =
        .ok direct →
      ¬ (value < 0 ∧ text.toList.head? = some '^') → (result == direct) = true) ∧
    ∀ opposite, evaluate (withPower power) after.registers (oppositeText ++ text) =
        .ok opposite →
      value < 0 → result = opposite := by
  obtain ⟨-, finite, hbuffer, answer⟩ := apply_evaluate evaluated
  obtain ⟨c, rest, rfl, hc⟩ := text_of_ofLine goesOn
  obtain ⟨numeral, shows⟩ := shows_of_isFinite finite
  have hresult := evaluate_of_run run
  rw [hbuffer] at hresult
  have hminus : hasMinus value = true ↔ value < 0 := by
    rw [lt_zero_iff finite, hasMinus, Bool.and_eq_true, decide_eq_true_eq]
  constructor
  · intro direct hdirect unraised
    have compatible := compatible_sameNumber zeroPowers
    have same : SameNumber result direct := by
      refine (opening_text shows).related compatible opening_answer hc ?_ hresult hdirect
      intro behind hbehind
      obtain ⟨symbol, more, hmore, hcaret⟩ := tokens_of_sign hc hbehind
      rw [hmore]
      refine replaces_by_answer compatible finite shows answer fun negative raised => ?_
      refine unraised ⟨hminus.mp negative, ?_⟩
      rw [String.toList_ofList, hcaret raised]
      rfl
    exact same.beq (isFinite_of_evaluate hresult)
  · intro opposite hopposite negative
    refine (opening_text shows).related (compatible_eq _) opening_opposite hc ?_ hresult hopposite
    intro behind _
    exact replaces_by_opposite finite shows answer (hminus.mpr negative)

/-- Powers with the exponent two. -/
def squares (base _ : Float) : Float :=
  base * base

/-- The session in which minus two has been evaluated. -/
def minusTwo : Session :=
  (((Session.new 10).type "-2").apply (withPower squares) .evaluate).1

theorem continues_minus_two :
    ∃ last, ((Session.new 10).type "-2").apply (withPower squares) .evaluate =
        (minusTwo, some (.evaluated "-2" (-2))) ∧
      Input.ofLine "*3^2" = .commands [.append "*3^2", .evaluate] ∧
      minusTwo.run (withPower squares) [.append "*3^2", .evaluate] =
        (last, [none, some (.evaluated "-2*3^2" (-18))]) ∧
      evaluate (withPower squares) minusTwo.registers ("ans" ++ "*3^2") = .ok (-18) ∧
      ((-18 : Float) == -18) = true ∧
      ∀ opposite, evaluate (withPower squares) minusTwo.registers (oppositeText ++ "*3^2") =
          .ok opposite → -18 = opposite := by
  have evaluated : ((Session.new 10).type "-2").apply (withPower squares) .evaluate =
      (minusTwo, some (.evaluated "-2" (-2))) := by decide +kernel
  have goesOn : Input.ofLine "*3^2" = .commands [.append "*3^2", .evaluate] := by decide +kernel
  have run : minusTwo.run (withPower squares) [.append "*3^2", .evaluate] =
      ((minusTwo.run (withPower squares) [.append "*3^2", .evaluate]).1,
        [none, some (.evaluated "-2*3^2" (-18))]) := by decide +kernel
  have direct : evaluate (withPower squares) minusTwo.registers ("ans" ++ "*3^2") =
      .ok (-18) := by decide +kernel
  have zeroPowers : ZeroPowers squares := by
    intro y _ _
    show ((-0.0 : Float) * -0.0 == 0.0 * 0.0) = true
    decide +kernel
  have continues := continues_last_result zeroPowers evaluated goesOn run
  exact ⟨_, evaluated, goesOn, run, direct, continues.1 (-18) direct (by decide),
    fun opposite h => continues.2 opposite h (by decide +kernel)⟩

/-- The square of minus two is not continued: the line squares two and then turns the sign. -/
theorem square_of_minus_two :
    ((Session.new 10).type "-2").apply (withPower squares) .evaluate =
        (minusTwo, some (.evaluated "-2" (-2))) ∧
      Input.ofLine "^2" = .commands [.append "^2", .evaluate] ∧
      (minusTwo.run (withPower squares) [.append "^2", .evaluate]).2 =
        [none, some (.evaluated "-2^2" (-4))] ∧
      evaluate (withPower squares) minusTwo.registers ("ans" ++ "^2") = .ok 4 ∧
      ((-4 : Float) == 4) = false := by
  decide +kernel

end Sessions

end Continuation
end Calculator
