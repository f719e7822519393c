import Calculator.Proofs.Calculation
import Calculator.Proofs.Float.Product
import Calculator.Proofs.Shorthand.Ending
import Calculator.Proofs.Shorthand.Marking

/-!
Trigonometric calls, from their text to their value.

The mark that a flat call gets stands behind its whole argument, so the argument is read as it is
alone and then converted from degrees. It has a value there only if it has one alone. Arguments
with parentheses, and those that end in a mark already, are used as they are.
-/

namespace Calculator
namespace Trigonometry

open Grammar Shorthand

def functions : List BuiltIn := [.sin, .cos, .tan]

/-- The text of a call. -/
def call (function : BuiltIn) (argument : String) : String :=
  function.name ++ "(" ++ argument ++ ")"

/-- Whether a call takes an argument in degrees that is not marked so. -/
def readsDegrees (argument : String) : Bool :=
  argument.toList.all (!isParenthesis ·) && !endsInDegreeMark (expandConstants argument.toList)

/-- What is put between an argument and the closing parenthesis. -/
def markText (marked : Bool) : List Char :=
  if marked then ' ' :: degreeMark else []

def markTokens (marked : Bool) (position : Nat) : List PlacedToken :=
  if marked then [⟨position, .identifier Expression.degreeName⟩] else []

variable {function : BuiltIn} {argument : String}

theorem eq_of_mem_functions {function : BuiltIn} (h : function ∈ functions) :
    function = .sin ∨ function = .cos ∨ function = .tan := by
  simpa [functions] using h

theorem toList_call (function : BuiltIn) (argument : String) :
    (call function argument).toList =
      function.name.toList ++ '(' :: (argument.toList ++ [')']) := by
  simp [call]

theorem endsInDegreeMark_expandSymbols (argument : String) :
    endsInDegreeMark (expandSymbols argument.toList) =
      endsInDegreeMark (expandConstants argument.toList) := by
  rw [expandSymbols, expandConstants_expandOperators, endsInDegreeMark_expandOperators]

theorem name_mem_trigHeads (h : function ∈ functions) :
    function.name.toList ++ ['('] ∈ trigHeads := by
  rcases eq_of_mem_functions h with rfl | rfl | rfl <;> decide

theorem isParenthesis_name (h : function ∈ functions) :
    ∀ c ∈ function.name.toList, isParenthesis c = false := by
  have hletters : function.name.toList.all isNamePart = true := by
    rcases eq_of_mem_functions h with rfl | rfl | rfl <;> decide
  exact fun c hc => isParenthesis_of_isNamePart (List.all_eq_true.mp hletters c hc)

theorem expandAll_call (h : function ∈ functions) (argument : String) :
    expandAll (call function argument).toList =
      expandPercents (markDegrees
        (function.name.toList ++ '(' :: (expandSymbols argument.toList ++ [')']))) := by
  have hname : expandConstants (expandOperators function.name.toList) = function.name.toList := by
    rcases eq_of_mem_functions h with rfl | rfl | rfl <;> decide
  rw [toList_call]
  show expandPercents (markDegrees (expandConstants (expandOperators _))) = _
  simp only [expandOperators, expandConstants, List.map_append, List.flatMap_append, List.map_cons,
    List.flatMap_cons] at hname ⊢
  rw [hname]
  rfl

theorem expandPercents_call (h : function ∈ functions) (inside : List Char) :
    expandPercents (function.name.toList ++ '(' :: (inside ++ [')'])) =
      function.name.toList ++ '(' :: (expandPercents inside ++ [')']) := by
  have hname : expandPercents function.name.toList = function.name.toList := by
    rcases eq_of_mem_functions h with rfl | rfl | rfl <;> decide
  simp only [expandPercents, List.flatMap_append, List.flatMap_cons] at hname ⊢
  rw [hname]
  rfl

theorem expandPercents_markText (text : List Char) (marked : Bool) :
    expandPercents (text ++ markText marked) = expandPercents text ++ markText marked := by
  rw [expandPercents, List.flatMap_append]
  cases marked <;> rfl

theorem markDegrees_empty_call (h : function ∈ functions) :
    markDegrees (function.name.toList ++ ['(', ')']) = function.name.toList ++ ['(', ')'] := by
  rcases eq_of_mem_functions h with rfl | rfl | rfl <;> cbv

theorem markDegrees_flat_call (h : function ∈ functions) {text : List Char} (hne : text ≠ [])
    (flat : ∀ c ∈ text, isParenthesis c = false) :
    markDegrees (function.name.toList ++ '(' :: (text ++ [')'])) =
      function.name.toList ++ '(' :: (text ++ markText (!endsInDegreeMark text) ++ [')']) := by
  have hcall : flatCall? (function.name.toList ++ '(' :: (text ++ [')'])) =
      some (⟨function.name.toList ++ ['('], text⟩, []) :=
    flatCall?_eq_some.mpr ⟨name_mem_trigHeads h, hne, flat, by simp [FlatCall.text]⟩
  rw [markDegrees_of_call hcall, markDegrees_nil, FlatCall.marked]
  split
  · rename_i hmark
    simp [hmark, markText, FlatCall.text]
  · rename_i hmark
    simp [hmark, markText]

/-- Whether a call to an argument without parentheses gets a mark. -/
def marks (argument : String) : Bool :=
  expandSymbols argument.toList ≠ [] && !endsInDegreeMark (expandSymbols argument.toList)

/-- A call whose argument has no parentheses is expanded as its argument is, and may get a mark
behind it. -/
theorem expandAll_flat_call (h : function ∈ functions)
    (flat : ∀ c ∈ argument.toList, isParenthesis c = false) :
    expandAll (call function argument).toList =
      function.name.toList ++
        '(' :: (expandAll argument.toList ++ markText (marks argument) ++ [')']) := by
  have hflat : ∀ c ∈ expandSymbols argument.toList, isParenthesis c = false := by
    have := (filter_expandSymbols argument.toList).trans (filter_isParenthesis_eq_nil flat)
    simpa using this
  have hmark :
      markDegrees (function.name.toList ++ '(' :: (expandSymbols argument.toList ++ [')'])) =
        function.name.toList ++
          '(' :: (expandSymbols argument.toList ++ markText (marks argument) ++ [')']) := by
    by_cases hne : expandSymbols argument.toList = []
    · simpa [hne, marks, markText] using markDegrees_empty_call h
    · rw [markDegrees_flat_call h hne hflat]
      simp [marks, hne]
  rw [expandAll_call h, hmark, expandPercents_call h, expandPercents_markText, expandAll_eq,
    markDegrees_flat hflat]

/-- A call whose argument has parentheses of its own, and none that it shares with the call, is
expanded as its argument is. -/
theorem expandAll_nested_call (h : function ∈ functions)
    (enclosed : Enclosed (argument.toList.filter isParenthesis))
    (nested : argument.toList.filter isParenthesis ≠ []) :
    expandAll (call function argument).toList =
      function.name.toList ++ '(' :: (expandAll argument.toList ++ [')']) := by
  rw [← filter_expandSymbols] at enclosed nested
  have hnext :
      ((expandSymbols argument.toList ++ [')']).filter isParenthesis).head? ≠ some ')' := by
    rw [List.filter_append]
    cases hparentheses : (expandSymbols argument.toList).filter isParenthesis with
    | nil => exact absurd hparentheses nested
    | cons c rest =>
        rw [hparentheses] at enclosed
        exact enclosed.1
  have happart : ∀ d ∈ [')'].head?, isNamePart d = false ∧ d ≠ '(' := by
    rintro d ⟨⟩
    decide
  have hclosing : markDegrees [')'] = [')'] := by
    rw [markDegrees_of_none (by decide), markDegrees_nil]
  rw [expandAll_call h, markDegrees_opening (isParenthesis_name h) hnext,
    markDegrees_append enclosed.2 happart, hclosing, expandPercents_call h, expandAll_eq]

/-- The name of a function is read as one token, up to what cannot be part of a name. -/
theorem tokensFrom_name (function : BuiltIn) {rest : List Char} (position : Nat)
    (stop : ∀ c ∈ rest.head?, isNamePart c = false) :
    tokensFrom position (function.name.toList ++ rest) = (do
      let tokens ← tokensFrom (position + byteCount function.name.toList) rest
      return ⟨position, .identifier function.name⟩ :: tokens) := by
  obtain ⟨c, letters, hname, hstart, hletters⟩ : ∃ c letters, function.name.toList = c :: letters ∧
      isNameStart c = true ∧ letters.all isNamePart = true := by
    cases function <;> exact ⟨_, _, rfl, by decide, by decide⟩
  have hread := @tokensFrom_identifier c letters rest position hstart
    (fun d hd => List.all_eq_true.mp hletters d hd) stop
  rwa [← List.cons_append, ← hname, String.ofList_toList] at hread

theorem ofName_name (function : BuiltIn) (position : Nat) :
    BuiltIn.ofName function.name position = .ok function := by
  cases function <;> rfl

theorem apart_markText (marked : Bool) : Apart (markText marked ++ [')']) := by
  cases marked <;> exact apart_cons.mpr (by decide)

theorem tokensFrom_markText (marked : Bool) (position : Nat) :
    ∃ mark closing, tokensFrom position (markText marked ++ [')']) =
      .ok (markTokens marked mark ++ [⟨closing, .symbol .closing⟩]) := by
  have hclosing (place : Nat) : tokensFrom place [')'] = .ok [⟨place, .symbol .closing⟩] :=
    tokensFrom_symbol_eq_ok .closing tokensFrom_nil
  cases marked with
  | false => exact ⟨0, position, hclosing position⟩
  | true =>
      refine ⟨position + 1, position + 1 + 3, ?_⟩
      have hletters : ∀ c ∈ ['e', 'g'], isNamePart c = true := List.all_eq_true.mp (by decide)
      have hstop : ∀ c ∈ [')'].head?, isNamePart c = false := by
        rintro c ⟨⟩
        decide
      show tokensFrom position (' ' :: 'd' :: (['e', 'g'] ++ [')'])) = _
      rw [tokensFrom_blank (by decide), tokensFrom_identifier (by decide) hletters hstop, hclosing]
      rfl

/-- The tokens of a call are those of its argument, moved behind the parenthesis, and the mark. -/
theorem tokensFrom_call (h : function ∈ functions) (inside : List Char) (marked : Bool) :
    ∃ mark closing,
      tokensFrom 0 (function.name.toList ++ '(' :: (inside ++ markText marked ++ [')'])) =
        (do
          let tokens ← tokensFrom 4 inside
          return callTokens function.name 0 3 closing (tokens ++ markTokens marked mark)) := by
  obtain ⟨mark, closing, hmark⟩ := tokensFrom_markText marked (4 + byteCount inside)
  refine ⟨mark, closing, ?_⟩
  have hcount : byteCount function.name.toList = 3 := by
    rcases eq_of_mem_functions h with rfl | rfl | rfl <;> rfl
  rw [tokensFrom_name function 0 (by rintro c ⟨⟩; decide), hcount,
    show '(' = Symbol.opening.char from rfl, tokensFrom_symbol, List.append_assoc,
    tokensFrom_append (apart_markText marked), hmark]
  cases tokensFrom 4 inside with
  | error => rfl
  | ok tokens => simp [callTokens, bind, Except.bind, pure, Except.pure]

variable {arithmetic : Arithmetic} {registers : Registers}

theorem evaluate_call (h : function ∈ functions) {node : Expression} {position : Nat}
    {angle : Float} (hangle : node.evaluate arithmetic registers = .ok angle) :
    (Expression.call function.name node position).evaluate arithmetic registers =
      checkFinite (function.compute arithmetic angle) position := by
  have happly : function.apply arithmetic angle position =
      .ok (function.compute arithmetic angle) := by
    rcases eq_of_mem_functions h with rfl | rfl | rfl <;> rfl
  simp only [Expression.evaluate, ofName_name, hangle, bind, Except.bind, happly]

/-- The phrases that a call is, up to a whole expression. -/
theorem derives_call {inner : List PlacedToken} {node : Expression} {nesting : Nat}
    (position opening closing : Nat) (name : String)
    (h : Derives .expression inner node nesting) :
    Derives .expression (callTokens name position opening closing inner)
      (.call name node position) (nesting + 1) :=
  .plain (.term (.factor (.unsigned (.base (.call name position opening closing h)))))

/-- The value of a call, once the tokens and the value of its argument are known. -/
theorem evaluate_of_argument (h : function ∈ functions) {text : String}
    {tokens : List PlacedToken} {node : Expression} {nesting position opening closing : Nat}
    {angle : Float}
    (htokens : tokensFrom 0 (expandAll text.toList) =
      .ok (callTokens function.name position opening closing tokens))
    (derives : Derives .expression tokens node nesting)
    (hangle : node.evaluate arithmetic registers = .ok angle)
    (shallow : ¬ ExceedsLimits arithmetic registers text) :
    evaluate arithmetic registers text =
      (checkFinite (function.compute arithmetic angle) position).mapError .inEvaluation := by
  rw [evaluate_of_derives htokens (derives_call position opening closing _ derives) shallow,
    evaluate_call h hangle]

theorem derives_marked {tokens : List PlacedToken} {node : Expression} {nesting : Nat}
    (h : Derives .expression tokens node nesting)
    (unmarked : ∀ mark, tokens.getLast? ≠ some ⟨mark, .identifier Expression.degreeName⟩)
    (position : Nat) :
    Derives .expression (tokens ++ [⟨position, .identifier Expression.degreeName⟩])
      (.unary .degrees node position) nesting := by
  cases h with
  | plain sum => exact .marked position sum
  | marked mark sum => exact absurd (by simp) (unmarked mark)

theorem expandAll_flat (flat : ∀ c ∈ argument.toList, isParenthesis c = false) :
    expandAll argument.toList = expandPercents (expandSymbols argument.toList) := by
  have hflat : ∀ c ∈ expandSymbols argument.toList, isParenthesis c = false := by
    have := (filter_expandSymbols argument.toList).trans (filter_isParenthesis_eq_nil flat)
    simpa using this
  rw [expandAll_eq, markDegrees_flat hflat]

theorem marks_of_flat (flat : ∀ c ∈ argument.toList, isParenthesis c = false)
    (hne : expandSymbols argument.toList ≠ []) : marks argument = readsDegrees argument := by
  have hall : argument.toList.all (!isParenthesis ·) = true := by simpa using flat
  rw [marks, readsDegrees, hall, endsInDegreeMark_expandSymbols]
  simp [hne]

/-- The tokens of an argument that gets a mark do not end in one. -/
theorem unmarked_of_marks (flat : ∀ c ∈ argument.toList, isParenthesis c = false)
    (hmarks : marks argument = true) {position mark : Nat} {tokens : List PlacedToken}
    (htokens : tokensFrom position (expandAll argument.toList) = .ok tokens) :
    tokens.getLast? ≠ some ⟨mark, .identifier Expression.degreeName⟩ := by
  intro hlast
  have hsuffix := name_suffix_of_tokensFrom htokens hlast
  have hends : endsInDegreeMark (expandAll argument.toList) = true :=
    List.isSuffixOf_iff_suffix.mpr hsuffix
  rw [expandAll_flat flat, endsInDegreeMark_expandPercents] at hends
  simp [marks, hends] at hmarks

/-- A flat call takes the value of its argument in degrees, unless the argument ends in a mark. -/
theorem evaluate_flat_call
    (hradians : ∀ x : Float, x.isFinite → (arithmetic.radians x).isFinite)
    (h : function ∈ functions) (flat : ∀ c ∈ argument.toList, isParenthesis c = false) {x : Float}
    (hx : evaluate arithmetic registers argument = .ok x)
    (shallow : ¬ ExceedsLimits arithmetic registers (call function argument)) :
    evaluate arithmetic registers (call function argument) =
      (checkFinite (function.compute arithmetic
        (if readsDegrees argument then arithmetic.radians x else x)) 0).mapError .inEvaluation := by
  obtain ⟨tokens, node, nesting, htokens, derives, -, -, hvalue⟩ := derives_of_evaluate hx
  have hne : expandSymbols argument.toList ≠ [] := by
    intro hempty
    obtain ⟨_, _, rfl, -⟩ := derives.first
    rw [expandAll_flat flat, hempty] at htokens
    simp [expandPercents, tokensFrom_nil] at htokens
  have hmoved : tokensFrom 4 (expandAll argument.toList) =
      .ok (tokens.map (·.relocate (· + 4))) := tokensFrom_eq_ok_iff.mpr ⟨tokens, htokens, rfl⟩
  have hderives := derives.relocate (· + 4)
  have hnode : (node.relocate (· + 4)).evaluate arithmetic registers = .ok x :=
    Relocation.evaluate_relocate_eq_ok.mpr hvalue
  obtain ⟨mark, closing, hcall⟩ := tokensFrom_call h (expandAll argument.toList) (marks argument)
  rw [hmoved, ← expandAll_flat_call h flat] at hcall
  rw [← marks_of_flat flat hne]
  cases hmarks : marks argument with
  | false =>
      rw [hmarks] at hcall
      exact evaluate_of_argument h hcall (by simpa [markTokens] using hderives) hnode shallow
  | true =>
      rw [hmarks] at hcall
      have hmarked := derives_marked hderives (fun _ => unmarked_of_marks flat hmarks hmoved) mark
      have hangle : (Expression.unary .degrees (node.relocate (· + 4)) mark).evaluate arithmetic
          registers = .ok (arithmetic.radians x) :=
        Expression.evaluate_unary_eq_ok.mpr
          ⟨x, hnode, hradians x (Expression.isFinite_of_evaluate hvalue), rfl⟩
      exact evaluate_of_argument h hcall hmarked hangle shallow

/-- A call to an argument with parentheses takes its value as it is. -/
theorem evaluate_nested_call (h : function ∈ functions)
    (nested : argument.toList.filter isParenthesis ≠ []) {x : Float}
    (hx : evaluate arithmetic registers argument = .ok x)
    (shallow : ¬ ExceedsLimits arithmetic registers (call function argument)) :
    evaluate arithmetic registers (call function argument) =
      (checkFinite (function.compute arithmetic x) 0).mapError .inEvaluation := by
  obtain ⟨tokens, node, nesting, htokens, derives, -, -, hvalue⟩ := derives_of_evaluate hx
  have hmoved : tokensFrom 4 (expandAll argument.toList) =
      .ok (tokens.map (·.relocate (· + 4))) := tokensFrom_eq_ok_iff.mpr ⟨tokens, htokens, rfl⟩
  have hnode : (node.relocate (· + 4)).evaluate arithmetic registers = .ok x :=
    Relocation.evaluate_relocate_eq_ok.mpr hvalue
  have henclosed := derives.enclosed
  rw [← parentheses_of_tokensFrom htokens, filter_expandAll] at henclosed
  obtain ⟨mark, closing, hcall⟩ := tokensFrom_call h (expandAll argument.toList) false
  rw [hmoved] at hcall
  simp only [markText, markTokens, Bool.false_eq_true, if_false, List.append_nil] at hcall
  rw [← expandAll_nested_call h henclosed nested] at hcall
  exact evaluate_of_argument h hcall (derives.relocate (· + 4)) hnode shallow

theorem valueOf_degreeName {position : Nat} {value : Float} :
    registers.valueOf Expression.degreeName position ≠ .ok value := by
  have hname : registers.valueOf Expression.degreeName position =
      .error (.unknownReference Expression.degreeName position) := rfl
  simp [hname]

/-- What a mark stands behind is an expression of its own, if the whole has a value: the mark cannot
be read as a reference then. -/
theorem argument_of_marked {tokens : List PlacedToken} {node : Expression} {nesting mark : Nat}
    {angle : Float} {marked : Bool}
    (h : Derives .expression (tokens ++ markTokens marked mark) node nesting)
    (hangle : node.evaluate arithmetic registers = .ok angle) :
    ∃ operand x, Derives .expression tokens operand nesting ∧ operand.height ≤ node.height ∧
      operand.evaluate arithmetic registers = .ok x := by
  cases marked with
  | false =>
      simp only [markTokens, Bool.false_eq_true, if_false, List.append_nil] at h
      exact ⟨node, angle, h, Nat.le_refl _, hangle⟩
  | true =>
      simp only [markTokens, if_true] at h
      generalize hwhole : tokens ++ [⟨mark, .identifier Expression.degreeName⟩] = whole at h
      cases h with
      | plain sum =>
          have hlast : whole.getLast? = some ⟨mark, .identifier Expression.degreeName⟩ := by
            simp [← hwhole]
          obtain ⟨_, hnamed⟩ := sum.valueOf_last (by simp) hlast hangle
          exact absurd hnamed valueOf_degreeName
      | marked position sum =>
          obtain ⟨rfl, -⟩ := List.append_inj' hwhole rfl
          obtain ⟨x, hx, -⟩ := Expression.evaluate_unary_eq_ok.mp hangle
          exact ⟨_, x, .plain sum, Nat.le_succ _, hx⟩

theorem parentheses_relocate (move : Nat → Nat) (tokens : List PlacedToken) :
    parentheses (tokens.map (·.relocate move)) = parentheses tokens := by
  rw [parentheses, List.flatMap_map]
  rfl

theorem relocate_back (shift : Nat) (tokens : List PlacedToken) :
    (tokens.map (·.relocate (· + shift))).map (·.relocate (· - shift)) = tokens := by
  rw [List.map_map]
  refine List.map_id'' (fun token => ?_) tokens
  simp [PlacedToken.relocate]

/-- A call has a value only if its argument has one. -/
theorem value_of_call (h : function ∈ functions)
    (flat : ∀ c ∈ argument.toList, isParenthesis c = false) {y : Float}
    (hy : evaluate arithmetic registers (call function argument) = .ok y) :
    ∃ x, evaluate arithmetic registers argument = .ok x := by
  obtain ⟨tokens, node, nesting, htokens, derives, hnesting, hheight, hvalue⟩ :=
    derives_of_evaluate hy
  obtain ⟨mark, closing, hcall⟩ := tokensFrom_call h (expandAll argument.toList) (marks argument)
  rw [← expandAll_flat_call h flat, htokens] at hcall
  obtain ⟨moved, hmoved, hshape⟩ := bind_eq_ok.mp hcall.symm
  obtain rfl := Except.ok.inj hshape
  obtain ⟨inside, hinside, rfl⟩ := tokensFrom_eq_ok_iff.mp hmoved
  have hflat : parentheses (inside.map (·.relocate (· + 4)) ++ markTokens (marks argument) mark) =
      [] := by
    rw [parentheses_append, parentheses_relocate, ← parentheses_of_tokensFrom hinside,
      filter_expandAll, filter_isParenthesis_eq_nil flat]
    cases marks argument <;> rfl
  obtain ⟨angle, depth, hargument, rfl, rfl⟩ := derives.of_callTokens rfl hflat
  obtain ⟨_, _, _, hangle, -⟩ := Expression.evaluate_call_eq_ok.mp hvalue
  obtain ⟨operand, x, hoperand, hlower, hx⟩ := argument_of_marked hargument hangle
  have hback := hoperand.relocate (· - 4)
  rw [relocate_back] at hback
  refine ⟨x, evaluate_of_limits hinside hback (by omega) ?_ ?_⟩
  · rw [Expression.height_relocate]
    simp only [Expression.height] at hheight
    omega
  · exact Relocation.evaluate_relocate_eq_ok.mpr hx

/-- Trigonometric calls read degrees: the argument is converted, unless it has parentheses or ends
in a mark. And an argument without parentheses that has no value alone gives the call none. -/
theorem evaluate_trigonometric_call (function : BuiltIn) (registers : Registers)
    (argument : String) (trigonometric : function ∈ functions)
    (shallow : ¬ ExceedsLimits .binary64 registers (call function argument)) :
    (∀ x, evaluate .binary64 registers argument = .ok x →
      evaluate .binary64 registers (call function argument) =
        (checkFinite (function.compute .binary64
          (if readsDegrees argument then Arithmetic.binary64.radians x else x)) 0).mapError
            .inEvaluation) ∧
    ((∀ c ∈ argument.toList, isParenthesis c = false) →
      (∀ x, evaluate .binary64 registers argument ≠ .ok x) →
        ∀ y, evaluate .binary64 registers (call function argument) ≠ .ok y) := by
  refine ⟨fun x hx => ?_, fun flat hnone y hy => ?_⟩
  · by_cases flat : ∀ c ∈ argument.toList, isParenthesis c = false
    · exact evaluate_flat_call (fun _ => Magnitude.isFinite_radians) trigonometric flat hx shallow
    · have hreads : readsDegrees argument = false := by
        have hall : argument.toList.all (!isParenthesis ·) = false := by simpa using flat
        rw [readsDegrees, hall]
        rfl
      rw [evaluate_nested_call trigonometric (by simpa using flat) hx shallow, hreads]
      rfl
  · obtain ⟨x, hx⟩ := value_of_call trigonometric flat hy
    exact hnone x hx

theorem quarter_turn_is_shallow : ¬ ExceedsLimits .binary64 {} (call .sin "90") :=
  shallow_of_ofText (by decide +kernel)

theorem evaluate_quarter_turn :
    ¬ ExceedsLimits .binary64 {} (call .sin "90") ∧
    evaluate .binary64 {} (call .sin "90") =
      (checkFinite (Float.sin (Arithmetic.binary64.radians 90)) 0).mapError .inEvaluation :=
  ⟨quarter_turn_is_shallow,
    (evaluate_trigonometric_call .sin {} "90" (by decide) quarter_turn_is_shallow).1 90
      (by decide +kernel)⟩

end Trigonometry
end Calculator
