import Calculator.Proofs.Grammar.Acceptance
import Calculator.Proofs.Grammar.Definite
import Calculator.Proofs.Grammar.Outline

/-!
The call whose number of arguments is reported.

A call is looked at when its parenthesis is closed, so of all calls with a wrong number of arguments
the one that is closed first is reported. What stands in front of its closing parenthesis is read
without an error, as far as the two limits allow; what stands behind it is not read at all.
-/

namespace Calculator
namespace Grammar

/-- The error about the first call of a list that does not have one argument. -/
def miscount? (calls : List Call) : Option SyntaxError :=
  (calls.find? (·.arguments ≠ 1)).map Call.error

section Calls

variable {calls others : List Call} {count : Nat}

theorem miscount?_append :
    miscount? (calls ++ others) = (miscount? calls).or (miscount? others) := by
  rw [miscount?, List.find?_append, Option.map_or]
  rfl

theorem miscount?_behind : miscount? (calls.map (·.behind count)) = miscount? calls := by
  rw [miscount?, List.find?_map, Option.map_map]
  rfl

theorem miscount?_eq_none : miscount? calls = none ↔ Counted calls := by
  simp [miscount?, Counted]

theorem miscount?_singleton {call : Call} {error : SyntaxError} :
    miscount? [call] = some error ↔ call.arguments ≠ 1 ∧ call.error = error := by
  by_cases h : call.arguments = 1 <;> simp [miscount?, h]

/-- A wrong number in the calls of two lists is one in the first, or one in the second where the
first has none. -/
theorem miscount?_join {error : SyntaxError} :
    miscount? (calls ++ others.map (·.behind count)) = some error ↔
      miscount? calls = some error ∨ Counted calls ∧ miscount? others = some error := by
  rw [miscount?_append, miscount?_behind, Option.or_eq_some_iff, miscount?_eq_none]

/-- A call of a list is the first one that does not have one argument if the calls that do not are
closed behind it. -/
theorem exists_first_miscount {tokens : List PlacedToken} {error : SyntaxError}
    (closed : ClosedInOrder tokens calls) (h : miscount? calls = some error) :
    ∃ call ∈ calls, call.arguments ≠ 1 ∧ error = call.error ∧
      ∀ other ∈ calls, other.arguments ≠ 1 → other = call ∨ call.closing < other.closing := by
  obtain ⟨call, hfind, rfl⟩ := Option.map_eq_some_iff.mp h
  obtain ⟨hcall, before, after, rfl, hbefore⟩ := List.find?_eq_some_iff_append.mp hfind
  refine ⟨call, by simp, by simpa using hcall, rfl, fun other hother hmiscounted => ?_⟩
  rcases List.mem_append.mp hother with hother | hother
  · simpa [hmiscounted] using hbefore other hother
  · rcases List.mem_cons.mp hother with rfl | hother
    · exact .inl rfl
    · have hordered := (List.pairwise_append.mp closed.ordered).2.1
      exact .inr ((List.pairwise_cons.mp hordered).1 other hother)

end Calls

theorem Within.eq_of_fits {α : Type} {fits : Prop} {reading outcome : Except SyntaxError α}
    (h : Within fits reading outcome) (hfits : fits) : reading = outcome := by
  obtain ⟨-, heq⟩ | ⟨hunfit, -⟩ := h
  · exact heq
  · exact absurd hfits hunfit

theorem Phrase.before_comma (position : Nat) (rest : List PlacedToken) :
    expression.Before (⟨position, .symbol .comma⟩ :: rest) :=
  before_cons.mpr (by simp [endsBefore, Token.multiplicative?, Token.additive?,
    Token.binaryOperator?])

section Arguments

variable {inner : Rule} {arguments : List Outline} {list : Outline}

/-- A rule that reads an outline in which every call has one argument. -/
def ReadsCounted (inner : Rule) (argument : Outline) : Prop :=
  Counted argument.calls → ∃ node, ∀ rest, Phrase.expression.Before rest →
    inner.read (argument.tokens ++ rest) = .ok (node, rest)

/-- A rule that reports the first wrong number of arguments in an outline. -/
def ReportsMiscount (rule : Rule) (outline : Outline) : Prop :=
  ∀ error, miscount? outline.calls = some error →
    ∀ rest, rule.read (outline.tokens ++ rest) = .error error

theorem Lists.tokens_ne (h : Lists arguments list)
    (inner : ∀ argument ∈ arguments, Outlines .expression argument) :
    ∃ next rest, list.tokens = next :: rest ∧ next.token ≠ .symbol .closing := by
  cases h with
  | last =>
      obtain ⟨next, rest, htokens, hnext, -⟩ := (inner _ List.mem_cons_self).first
      exact ⟨next, rest, htokens, hnext⟩
  | more comma argument =>
      obtain ⟨next, rest, htokens, hnext, -⟩ := (inner argument List.mem_cons_self).first
      exact ⟨next, _, congrArg (· ++ _) htokens, hnext⟩

/-- The arguments are read to their end, and all of them are counted. -/
theorem Lists.readArguments_of_counted (h : Lists arguments list)
    (reads : ∀ argument ∈ arguments, ReadsCounted inner argument) (counted : Counted list.calls)
    (opening closing : Nat) (rest : List PlacedToken) :
    ∃ nodes, nodes.length = arguments.length ∧
      readArguments inner opening (list.tokens ++ ⟨closing, .symbol .closing⟩ :: rest) =
        .ok (nodes, rest) := by
  induction h with
  | last argument =>
      obtain ⟨node, hread⟩ := reads argument List.mem_cons_self counted
      refine ⟨[node], rfl, ?_⟩
      rw [readArguments_of_next (hread _ (Phrase.before_closing closing rest)), if_pos rfl]
  | @more comma argument others list _ ih =>
      obtain ⟨hfirst, hothers⟩ := counted_append.mp counted
      obtain ⟨node, hread⟩ := reads argument List.mem_cons_self hfirst
      obtain ⟨nodes, hlength, hnodes⟩ := ih
        (fun other hother => reads other (List.mem_cons_of_mem _ hother))
        (counted_behind.mp hothers)
      refine ⟨node :: nodes, congrArg (· + 1) hlength, ?_⟩
      rw [List.append_assoc, List.cons_append,
        readArguments_of_next (hread _ (Phrase.before_comma comma _)), if_neg (by simp),
        if_pos rfl, hnodes]
      rfl

/-- The first wrong number in the arguments is reported, and those behind it are not read. -/
theorem Lists.readArguments_of_miscount (h : Lists arguments list)
    (reads : ∀ argument ∈ arguments, ReadsCounted inner argument)
    (reports : ∀ argument ∈ arguments, ReportsMiscount inner argument) {error : SyntaxError}
    (miscount : miscount? list.calls = some error) (opening : Nat) (rest : List PlacedToken) :
    readArguments inner opening (list.tokens ++ rest) = .error error := by
  induction h with
  | last argument =>
      exact readArguments_of_error (reports argument List.mem_cons_self error miscount rest)
  | @more comma argument others list _ ih =>
      rw [miscount?_append, miscount?_behind] at miscount
      rw [List.append_assoc]
      cases hfirst : miscount? argument.calls with
      | some found =>
          rw [hfirst, Option.some_or] at miscount
          obtain rfl := Option.some.inj miscount
          exact readArguments_of_error (reports argument List.mem_cons_self _ hfirst _)
      | none =>
          rw [hfirst, Option.none_or] at miscount
          obtain ⟨node, hread⟩ :=
            reads argument List.mem_cons_self (miscount?_eq_none.mp hfirst)
          have hothers := ih (fun other hother => reads other (List.mem_cons_of_mem _ hother))
            (fun other hother => reports other (List.mem_cons_of_mem _ hother)) miscount
          rw [List.cons_append, readArguments_of_next (hread _ (Phrase.before_comma comma _)),
            if_neg (by simp), if_pos rfl, hothers]
          rfl

end Arguments

section Reading

variable {phrase : Phrase} {outline list : Outline} {arguments : List Outline} {levels : Nat}

/-- Both limits are kept with a number of levels left. -/
def Outline.Fits (outline : Outline) (levels : Nat) : Prop :=
  outline.nesting < levels ∧ outline.height ≤ heightLimit

/-- What is read without a wrong number of arguments is read to its end, and its rule goes on. -/
theorem Outlines.read_of_counted (h : Outlines phrase outline) (fits : outline.Fits levels)
    (counted : Counted outline.calls) :
    ∃ node, ∀ rest, phrase.Before rest →
      (phrase.rule levels).read (outline.tokens ++ rest) = phrase.continued levels node rest := by
  obtain ⟨node, hheight, derives⟩ := h.derives counted
  refine ⟨node, fun rest before => (derives.readBefore levels rest before).eq_of_fits ?_⟩
  rw [hheight]
  exact fits

/-- Two outlines keep the limits that the two together keep. -/
theorem Outline.fits_both {left right : Outline}
    (hnesting : max left.nesting right.nesting < levels)
    (hheight : max left.height right.height ≤ heightLimit) :
    left.Fits levels ∧ right.Fits levels := by
  rw [Nat.max_lt] at hnesting
  rw [Nat.max_le] at hheight
  exact ⟨⟨hnesting.1, hheight.1⟩, ⟨hnesting.2, hheight.2⟩⟩

theorem Lists.fits (h : Lists arguments list) (fits : list.Fits levels) :
    ∀ argument ∈ arguments, argument.Fits levels := by
  induction h with
  | last => exact List.forall_mem_singleton.mpr fits
  | more comma argument _ ih =>
      obtain ⟨hfirst, hothers⟩ := Outline.fits_both fits.1 fits.2
      exact List.forall_mem_cons.mpr ⟨hfirst, ih hothers⟩

theorem readName_of_error {inner : Rule} {function : String} {position opening : Nat}
    {tokens : List PlacedToken} {error : SyntaxError}
    (h : readArgumentList inner opening tokens = .error error) :
    readName inner function position (⟨opening, .symbol .opening⟩ :: tokens) = .error error := by
  rw [readName, if_pos rfl, h]
  rfl

theorem readName_of_arguments {inner : Rule} {function : String} {position opening : Nat}
    {nodes : List Expression} {tokens rest : List PlacedToken}
    (h : readArgumentList inner opening tokens = .ok (nodes, rest)) (hlength : nodes.length ≠ 1) :
    readName inner function position (⟨opening, .symbol .opening⟩ :: tokens) =
      .error (.argumentCount function nodes.length position) := by
  rw [readName, if_pos rfl, h]
  cases nodes with
  | nil => rfl
  | cons first others =>
      cases others with
      | nil => exact absurd rfl hlength
      | cons second others => rfl

theorem readArgumentList_closing {inner : Rule} {opening closing : Nat}
    {rest : List PlacedToken} :
    readArgumentList inner opening (⟨closing, .symbol .closing⟩ :: rest) = .ok ([], rest) := by
  rw [readArgumentList, if_pos rfl]

theorem Lists.readArgumentList (h : Lists arguments list)
    (inner : ∀ argument ∈ arguments, Outlines .expression argument) (rule : Rule) (opening : Nat)
    (rest : List PlacedToken) :
    readArgumentList rule opening (list.tokens ++ rest) =
      readArguments rule opening (list.tokens ++ rest) := by
  obtain ⟨next, tail, htokens, hnext⟩ := h.tokens_ne inner
  rw [htokens]
  exact if_neg hnext

/-- The wrong number of arguments of a call is reported when none of them has one in it. -/
theorem Lists.reports_call (h : Lists arguments list)
    (inner : ∀ argument ∈ arguments, Outlines .expression argument) {rule : Rule}
    (reads : ∀ argument ∈ arguments, ReadsCounted rule argument)
    (reports : ∀ argument ∈ arguments, ReportsMiscount rule argument) {function : String}
    {position opening closing height nesting : Nat} :
    ReportsMiscount (primary rule)
      ⟨⟨position, .identifier function⟩ :: ⟨opening, .symbol .opening⟩ ::
          (list.tokens ++ [⟨closing, .symbol .closing⟩]),
        list.calls.map (·.behind 2) ++
          [⟨function, position, arguments.length, list.tokens.length + 2⟩], height, nesting⟩ := by
  intro error miscount rest
  rw [miscount?_append, miscount?_behind, Option.or_eq_some_iff, miscount?_eq_none] at miscount
  simp only [List.cons_append, List.append_assoc, List.nil_append]
  rcases miscount with miscount | ⟨counted, miscount⟩
  · have hlist := h.readArguments_of_miscount reads reports miscount opening
      (⟨closing, .symbol .closing⟩ :: rest)
    rw [← h.readArgumentList inner] at hlist
    exact readName_of_error hlist
  · obtain ⟨nodes, hlength, hnodes⟩ := h.readArguments_of_counted reads counted opening closing rest
    rw [← h.readArgumentList inner] at hnodes
    rw [miscount?_singleton, Call.error] at miscount
    obtain ⟨hne, rfl⟩ := miscount
    rw [← hlength] at hne ⊢
    exact readName_of_arguments hnodes hne

/-- A chain reports the first wrong number in what it has read or in its next operand. -/
theorem Outlines.reports_chain {left right : Outline} (first : Outlines phrase left)
    {operator? : Token → Option BinaryOperator} {operand : Rule} {operator : BinaryOperator}
    {next : PlacedToken} {height nesting : Nat} (known : operator? next.token = some operator)
    (fits : left.Fits levels)
    (continued : ∀ node rest,
      phrase.continued levels node rest = readChain operator? operand node rest)
    (before : ∀ rest, phrase.Before (next :: rest))
    (reportsLeft : ReportsMiscount (phrase.rule levels) left)
    (reportsRight : ReportsMiscount operand right) :
    ReportsMiscount (phrase.rule levels)
      ⟨left.tokens ++ next :: right.tokens,
        left.calls ++ right.calls.map (·.behind (left.tokens.length + 1)), height, nesting⟩ := by
  intro error miscount rest
  rw [List.append_assoc, List.cons_append]
  rcases miscount?_join.mp miscount with miscount | ⟨counted, miscount⟩
  · exact reportsLeft error miscount _
  · obtain ⟨node, hread⟩ := first.read_of_counted fits counted
    rw [hread _ (before _), continued]
    exact readChain_of_error known (reportsRight error miscount rest)

/-- A power reports the first wrong number in its base or, if its base is read, in its exponent. -/
theorem Outlines.reports_raise {base exponent : Outline} (left : Outlines .primary base)
    (position : Nat) {height nesting : Nat} (fits : base.Fits (levels + 1))
    (reportsLeft : ReportsMiscount (Phrase.primary.rule (levels + 1)) base)
    (reportsRight : ReportsMiscount (operand levels) exponent) :
    ReportsMiscount (Phrase.power.rule (levels + 1))
      ⟨base.tokens ++ ⟨position, .symbol .caret⟩ :: exponent.tokens,
        base.calls ++ exponent.calls.map (·.behind (base.tokens.length + 1)), height, nesting⟩ := by
  intro error miscount rest
  rw [List.append_assoc, List.cons_append]
  rcases miscount?_join.mp miscount with miscount | ⟨counted, miscount⟩
  · exact bind_eq_error.mpr (.inl (reportsLeft error miscount _))
  · obtain ⟨node, hread⟩ := left.read_of_counted fits counted
    have hexponent := reportsRight error miscount rest
    refine bind_eq_error.mpr (.inr ⟨_, hread _ (Phrase.before_caret position _), ?_⟩)
    exact bind_eq_error.mpr (.inl hexponent)

/-- The rule for a phrase reports the first wrong number of arguments in it, whatever follows. The
induction is on the outline: what stands in front of the wrong call in a phrase has none, and is
read. -/
theorem Outlines.reports (h : Outlines phrase outline) (fits : outline.Fits levels) :
    ReportsMiscount (phrase.rule levels) outline := by
  induction h generalizing levels with
  | literal | reference => exact fun _ miscount => by simp [miscount?] at miscount
  | empty function position opening closing =>
      obtain ⟨levels, rfl⟩ := Nat.exists_eq_succ_of_ne_zero (Nat.ne_zero_of_lt fits.1)
      rintro _ ⟨⟩ rest
      exact readName_of_arguments readArgumentList_closing (by simp)
  | @call function position opening closing arguments list inner lists ih =>
      obtain ⟨levels, rfl⟩ := Nat.exists_eq_succ_of_ne_zero (Nat.ne_zero_of_lt fits.1)
      have inside : list.Fits levels := ⟨Nat.lt_of_succ_lt_succ fits.1, Nat.le_of_succ_le fits.2⟩
      exact lists.reports_call inner
        (fun argument hmem =>
          (inner argument hmem).read_of_counted (lists.fits inside argument hmem))
        (fun argument hmem => ih argument hmem (lists.fits inside argument hmem))
  | group opening closing inner ih =>
      obtain ⟨levels, rfl⟩ := Nat.exists_eq_succ_of_ne_zero (Nat.ne_zero_of_lt fits.1)
      intro error miscount rest
      rw [miscount?_behind] at miscount
      have hread := ih ⟨Nat.lt_of_succ_lt_succ fits.1, fits.2⟩ error miscount
        (⟨closing, .symbol .closing⟩ :: rest)
      simp only [List.cons_append, List.append_assoc, List.nil_append]
      exact bind_eq_error.mpr (.inl hread)
  | base _ ih =>
      obtain ⟨levels, rfl⟩ := Nat.exists_eq_succ_of_ne_zero (Nat.ne_zero_of_lt fits.1)
      exact fun error miscount rest => bind_eq_error.mpr (.inl (ih fits error miscount rest))
  | @raise position base exponent left right ihLeft ihRight =>
      obtain ⟨levels, rfl⟩ := Nat.exists_eq_succ_of_ne_zero (Nat.ne_zero_of_lt fits.1)
      obtain ⟨hnesting, hheight⟩ := fits
      rw [Nat.max_lt] at hnesting
      have hsides := Nat.max_le.mp (Nat.le_of_succ_le hheight)
      have hleft : base.Fits (levels + 1) := ⟨hnesting.1, hsides.1⟩
      have hright : exponent.Fits levels := ⟨Nat.lt_of_succ_lt_succ hnesting.2, hsides.2⟩
      exact left.reports_raise position hleft (ihLeft hleft) (ihRight hright)
  | unsigned power ih =>
      obtain ⟨levels, rfl⟩ := Nat.exists_eq_succ_of_ne_zero (Nat.ne_zero_of_lt fits.1)
      intro error miscount rest
      obtain ⟨next, tail, htokens, -, hsign⟩ := power.first
      have hread := ih fits error miscount rest
      rw [htokens, List.cons_append] at hread ⊢
      simp only [Phrase.rule, operand, signed, hsign (.inl rfl)]
      exact hread
  | @sign position symbol operator operand known _ ih =>
      obtain ⟨levels, rfl⟩ := Nat.exists_eq_succ_of_ne_zero (Nat.ne_zero_of_lt fits.1)
      intro error miscount rest
      rw [miscount?_behind] at miscount
      have hread := ih ⟨Nat.lt_of_succ_lt_succ fits.1, Nat.le_of_succ_le fits.2⟩ error miscount rest
      have hsign := sign?_eq_some.mpr ⟨symbol, known, rfl⟩
      simp only [Phrase.rule, Grammar.operand, signed, List.cons_append, hsign]
      exact bind_eq_error.mpr (.inl hread)
  | factor _ ih | term _ ih | plain _ ih =>
      exact fun error miscount rest => bind_eq_error.mpr (.inl (ih fits error miscount rest))
  | multiply position known first _ ihLeft ihRight =>
      obtain ⟨hleft, hright⟩ := Outline.fits_both fits.1 (Nat.le_of_succ_le fits.2)
      exact first.reports_chain (multiplicative?_eq_some.mpr ⟨known, rfl⟩) hleft
        (fun _ _ => rfl) (Phrase.before_productOperator known position) (ihLeft hleft)
        (ihRight hright)
  | add position known first _ ihLeft ihRight =>
      obtain ⟨hleft, hright⟩ := Outline.fits_both fits.1 (Nat.le_of_succ_le fits.2)
      exact first.reports_chain (additive?_eq_some.mpr ⟨known, rfl⟩) hleft
        (fun _ _ => rfl) (Phrase.before_sumOperator known position) (ihLeft hleft)
        (ihRight hright)
  | marked position _ ih =>
      intro error miscount rest
      have hread := ih ⟨fits.1, Nat.le_of_succ_le fits.2⟩ error miscount
        (⟨position, .identifier Expression.degreeName⟩ :: rest)
      simp only [List.append_assoc, List.singleton_append]
      exact bind_eq_error.mpr (.inl hread)

end Reading

/-- Tokens that derive an expression whose calls may have any number of arguments, and that keep
both limits, spell an expression if every call has one argument. If not, the call that is reported,
by its name, its position and the exact number of its arguments, is the one with a wrong number
whose closing parenthesis comes first. -/
theorem reports_first_miscounted_call {outline : Outline} (h : Outlines .expression outline)
    (hnesting : outline.nesting ≤ depthLimit) (hheight : outline.height ≤ heightLimit) :
    (Counted outline.calls → ∃ node, Expression.ofTokens outline.tokens = .ok node) ∧
    (¬Counted outline.calls → ∃ call ∈ outline.calls,
      call.arguments ≠ 1 ∧
      (∀ other ∈ outline.calls, other.arguments ≠ 1 →
        other = call ∨ call.closing < other.closing) ∧
      (∃ place, outline.tokens[call.closing]? = some ⟨place, .symbol .closing⟩) ∧
      Expression.ofTokens outline.tokens =
        .error (.argumentCount call.function call.arguments call.position)) := by
  constructor
  · intro counted
    obtain ⟨node, height, derives⟩ := h.derives counted
    rw [← height] at hheight
    exact ⟨node, ofTokens_eq_ok.mpr ⟨_, derives, hnesting, hheight⟩⟩
  · intro miscounted
    have hsome := Option.ne_none_iff_exists'.mp (mt miscount?_eq_none.mp miscounted)
    obtain ⟨error, miscount⟩ := hsome
    obtain ⟨call, hcall, hne, rfl, hfirst⟩ := exists_first_miscount h.closedInOrder miscount
    refine ⟨call, hcall, hne, hfirst, h.closedInOrder.closed call hcall, ?_⟩
    have fits : outline.Fits (depthLimit + 1) := ⟨Nat.lt_succ_of_le hnesting, hheight⟩
    have hread := h.reports fits _ miscount []
    obtain ⟨next, tail, htokens, -⟩ := h.first
    rw [List.append_nil, htokens] at hread
    rw [htokens]
    exact bind_eq_error.mpr (.inl hread)

/-- In `f(g(),1)` both calls are wrong, and `g` is closed first. -/
theorem reports_inner_call_without_arguments :
    Outlines .expression
      ⟨[⟨0, .identifier "f"⟩, ⟨1, .symbol .opening⟩, ⟨2, .identifier "g"⟩, ⟨3, .symbol .opening⟩,
          ⟨4, .symbol .closing⟩, ⟨5, .symbol .comma⟩, ⟨6, .number 1⟩, ⟨7, .symbol .closing⟩],
        [⟨"g", 2, 0, 4⟩, ⟨"f", 0, 2, 7⟩], 2, 1⟩ ∧
    Expression.ofTokens
        [⟨0, .identifier "f"⟩, ⟨1, .symbol .opening⟩, ⟨2, .identifier "g"⟩, ⟨3, .symbol .opening⟩,
          ⟨4, .symbol .closing⟩, ⟨5, .symbol .comma⟩, ⟨6, .number 1⟩, ⟨7, .symbol .closing⟩] =
      .error (.argumentCount "g" 0 2) := by
  have first : Outlines .expression _ :=
    .plain (.term (.factor (.unsigned (.base (.empty "g" 2 3 4)))))
  have second : Outlines .expression _ :=
    .plain (.term (.factor (.unsigned (.base (.literal 1 6)))))
  have both := Outlines.call "f" 0 1 7
    (List.forall_mem_cons.mpr ⟨first, List.forall_mem_singleton.mpr second⟩)
    (.more 5 _ (.last _))
  have whole : Outlines .expression _ := .plain (.term (.factor (.unsigned (.base both))))
  refine ⟨whole, ?_⟩
  obtain ⟨call, hcall, -, hfirst, -, herror⟩ :=
    (reports_first_miscounted_call whole (by decide) (by decide)).2 (by simp [Counted])
  rcases List.mem_cons.mp hcall with rfl | hcall
  · exact herror
  · obtain rfl := List.mem_singleton.mp hcall
    rcases hfirst ⟨"g", 2, 0, 4⟩ List.mem_cons_self (by simp) with h | h
    · simp at h
    · simp at h

end Grammar
end Calculator
