import Calculator.Proofs.Grammar.Acceptance
import Calculator.Proofs.Grammar.Definite

/-!
Tokens that only end too early.

Where an operand is missing at the end a number can stand for it, and a parenthesis that is open can
be closed. So tokens that end too early can be completed: by a number, if an operand is missing, and
by closing parentheses. After that no token is wrong; the only errors left are about phrases that
are complete, which can have too many arguments or be too deep or too high.
-/

namespace Calculator
namespace SyntaxError

/-- Errors of tokens that end too early. -/
def Incomplete : SyntaxError → Prop
  | unexpectedEnd _ | unclosedParenthesis _ => True
  | unexpectedCharacter _ _ | emptyExpression | unexpectedToken _ _ _ | trailingToken _ _
  | argumentCount _ _ _ | tooDeep _ => False

/-- Errors about phrases that are complete. -/
def OfPhrase : SyntaxError → Prop
  | argumentCount _ _ _ | tooDeep _ => True
  | unexpectedCharacter _ _ | emptyExpression | unexpectedToken _ _ _ | unexpectedEnd _
  | unclosedParenthesis _ | trailingToken _ _ => False

/-- The operand that is missing at the end of the tokens, if one is. -/
def missing : SyntaxError → List PlacedToken
  | unexpectedEnd _ => [⟨0, .number 0⟩]
  | _ => []

end SyntaxError

namespace Grammar

variable {α : Type} {phrase wider : Phrase} {rule inner deeper : Rule}
  {tokens rest : List PlacedToken} {node : Expression} {error : SyntaxError}
  {opening position count : Nat}

def closings (count : Nat) : List PlacedToken :=
  List.replicate count ⟨0, .symbol .closing⟩

theorem closings_succ (count : Nat) (rest : List PlacedToken) :
    closings (count + 1) ++ rest = closings count ++ ⟨0, .symbol .closing⟩ :: rest := by
  rw [closings, List.replicate_succ', List.append_assoc]
  rfl

/-- What is put behind tokens that end too early, in front of further ones. -/
def completion (error : SyntaxError) (count : Nat) (rest : List PlacedToken) : List PlacedToken :=
  error.missing ++ (closings count ++ rest)

theorem completion_succ (error : SyntaxError) (count : Nat) (rest : List PlacedToken) :
    completion error (count + 1) rest =
      completion error count (⟨0, .symbol .closing⟩ :: rest) := by
  rw [completion, completion, closings_succ]

/-- A reading that gives something in front of the rest, or fails for a phrase that is complete. -/
def Completes (reading : Except SyntaxError (α × List PlacedToken)) (rest : List PlacedToken) :
    Prop :=
  (∃ value, reading = .ok (value, rest)) ∨ ∃ error, reading = .error error ∧ error.OfPhrase

/-- A reader whose tokens can be completed whenever they end too early, in front of everything that
does not extend the phrase. -/
def Repairable (phrase : Phrase)
    (read : List PlacedToken → Except SyntaxError (α × List PlacedToken)) : Prop :=
  ∀ tokens error, read tokens = .error error → error.Incomplete →
    ∃ count, ∀ rest, phrase.Before rest →
      Completes (read (tokens ++ completion error count rest)) rest

namespace Completes

variable {β : Type} {reading : Except SyntaxError (α × List PlacedToken)}

/-- The reading goes on with what it has in front of the rest. -/
theorem bind {continued : α × List PlacedToken → Except SyntaxError (β × List PlacedToken)}
    {after : List PlacedToken} (h : Completes reading rest)
    (hcontinued : ∀ value, Completes (continued (value, rest)) after) :
    Completes (reading >>= continued) after := by
  rcases h with ⟨value, rfl⟩ | ⟨error, rfl, hphrase⟩
  · exact hcontinued value
  · exact .inr ⟨error, rfl, hphrase⟩

theorem build (node : Expression) (rest : List PlacedToken) : Completes (build node rest) rest := by
  rcases Within.build node rest with ⟨-, hok⟩ | ⟨-, position, hdeep⟩
  · exact .inl ⟨node, hok⟩
  · exact .inr ⟨_, hdeep, trivial⟩

end Completes

theorem not_incomplete_of_build (h : build node rest = .error error) : ¬ error.Incomplete := by
  simp only [Grammar.build] at h
  split at h
  · obtain rfl := Except.error.inj h
    exact id
  · simp at h

theorem Repairable.andThen {continued : Expression → List PlacedToken → Reading}
    {shorter_or_same : ∀ {first node tokens rest}, continued first tokens = .ok (node, rest) →
      rest.length ≤ tokens.length}
    (repairable : Repairable phrase rule.read) (stable : Stable rule.read)
    (continues : ∀ first, Repairable wider (continued first))
    (before : ∀ rest, wider.Before rest → phrase.Before rest)
    (stops : ∀ first rest, wider.Before rest → continued first rest = .ok (first, rest)) :
    Repairable wider (rule.andThen continued shorter_or_same).read := by
  intro tokens error h incomplete
  rcases bind_eq_error.mp h with hfirst | ⟨⟨first, rest⟩, hfirst, hrest⟩
  · obtain ⟨count, hcount⟩ := repairable _ _ hfirst incomplete
    refine ⟨count, fun rest hrest => (hcount rest (before rest hrest)).bind fun first => ?_⟩
    exact .inl ⟨first, stops first rest hrest⟩
  · have hne : rest ≠ [] := by
      rintro rfl
      have hstop := stops first [] nofun
      simp [hstop] at hrest
    obtain ⟨count, hcount⟩ := continues first _ _ hrest incomplete
    refine ⟨count, fun behind hbehind => ?_⟩
    have hmore := stable.ok hfirst hne (completion error count behind)
    have hwhole : (rule.andThen continued shorter_or_same).read
        (tokens ++ completion error count behind) =
          continued first (rest ++ completion error count behind) := by
      show rule.read _ >>= _ = _
      rw [hmore]
      rfl
    rw [hwhole]
    exact hcount behind hbehind

theorem repairable_tooDeep : Repairable .signed tooDeep.read := by
  intro tokens error h incomplete
  cases tokens with
  | nil =>
      obtain rfl := Except.error.inj h
      exact ⟨0, fun _ _ => .inr ⟨_, rfl, trivial⟩⟩
  | cons =>
      obtain rfl := Except.error.inj h
      exact incomplete.elim

section Chains

variable {operator? : Token → Option BinaryOperator} {operand : Rule} {left : Expression}

theorem repairable_readChain (repairable : Repairable phrase operand.read)
    (stable : Stable operand.read) (before : ∀ rest, wider.Before rest → phrase.Before rest)
    (stops : ∀ token, wider.endsBefore token → operator? token = none) (left : Expression) :
    Repairable wider (readChain operator? operand left) := by
  intro tokens error h incomplete
  have hstop : ∀ left rest, wider.Before rest →
      readChain operator? operand left rest = .ok (left, rest) :=
    fun _ rest hrest => readChain_stop fun next hnext => stops _ (hrest next hnext)
  fun_induction readChain operator? operand left tokens with
  | case1 | case2 => simp at h
  | case3 left next tail operator hnext found hread =>
      obtain rfl := Except.error.inj h
      obtain ⟨count, hcount⟩ := repairable _ _ hread incomplete
      refine ⟨count, fun rest hrest => ?_⟩
      rw [List.cons_append]
      rcases hcount rest (before rest hrest) with ⟨right, hright⟩ | ⟨error, herror, hphrase⟩
      · rw [readChain_of_ok hnext hright]
        split
        · exact .inr ⟨_, rfl, trivial⟩
        · exact .inl ⟨_, hstop _ rest hrest⟩
      · exact .inr ⟨error, readChain_of_error hnext herror, hphrase⟩
  | case4 =>
      obtain rfl := Except.error.inj h
      exact incomplete.elim
  | case5 left next tail operator hnext right after hread tree hheight ih =>
      have hafter : after ≠ [] := by
        rintro rfl
        simp [readChain_nil] at h
      obtain ⟨count, hcount⟩ := ih h
      refine ⟨count, fun rest hrest => ?_⟩
      rw [List.cons_append, readChain_of_ok hnext (stable.ok hread hafter _), if_neg hheight]
      exact hcount rest hrest

theorem repairable_chain (repairable : Repairable phrase operand.read)
    (stable : Stable operand.read) (before : ∀ rest, wider.Before rest → phrase.Before rest)
    (stops : ∀ token, wider.endsBefore token → operator? token = none) :
    Repairable wider (chain operator? operand).read :=
  repairable.andThen stable (repairable_readChain repairable stable before stops) before
    fun _ _ hrest => readChain_stop fun next hnext => stops _ (hrest next hnext)

end Chains

theorem repairable_readMark (first : Expression) : Repairable .expression (readMark first) := by
  intro tokens error h incomplete
  cases tokens with
  | nil => simp [readMark] at h
  | cons next tail =>
      simp only [readMark] at h
      split at h
      · exact absurd incomplete (not_incomplete_of_build h)
      · simp at h

theorem Phrase.Before.signed_of_sum (h : Phrase.sum.Before rest) : Phrase.signed.Before rest :=
  h.mono fun _ h => h.1

theorem Phrase.Before.sum_of_expression (h : Phrase.expression.Before rest) :
    Phrase.sum.Before rest :=
  h.mono fun _ h => h.1

theorem repairable_expression {operand : Rule} (repairable : Repairable .signed operand.read)
    (stable : Stable operand.read) : Repairable .expression (expression operand).read := by
  have hproduct : Repairable .sum (chain Token.multiplicative? operand).read :=
    repairable_chain repairable stable (fun _ => Phrase.Before.signed_of_sum) fun _ h => And.right h
  have hsum : Repairable .expression (sum operand).read :=
    repairable_chain hproduct (stable_chain stable) (fun _ => Phrase.Before.sum_of_expression)
      fun _ h => And.left (And.right h)
  exact hsum.andThen (stable_chain (stable_chain stable)) repairable_readMark (fun _ h => h)
    fun _ _ h => readMark_stop h

/-- The rules of expressions with a number of levels go on where they stopped at the end, if what
follows does not extend the phrase. -/
def Resumes (phrase : Phrase) (rule : Rule) : Prop :=
  ∀ tokens node, rule.read tokens = .ok (node, []) → ∀ rest, phrase.Before rest →
    rule.read (tokens ++ rest) = .ok (node, rest)

theorem resumes_expression (levels : Nat) :
    Resumes .expression (expression (operand levels)) := by
  intro tokens node h rest before
  obtain ⟨used, nesting, htokens, derives⟩ := sound_expression (sound_operand levels) h
  rw [List.append_nil] at htokens
  subst htokens
  have hend := derives.readBefore levels [] nofun
  rw [List.append_nil] at hend
  have fits : nesting < levels ∧ node.height ≤ heightLimit := by
    rcases hend with ⟨hfits, -⟩ | ⟨-, position, hdeep⟩
    · exact hfits
    · rw [Phrase.rule, h] at hdeep
      simp at hdeep
  rcases derives.readBefore levels rest before with ⟨-, hok⟩ | ⟨hunfit, -⟩
  · exact hok
  · exact absurd fits hunfit

theorem expression_read_nil (levels : Nat) :
    (expression (operand levels)).read [] = .error (.unexpectedEnd .operand) := by
  cases levels <;> rfl

section Parentheses

variable (repairable : Repairable .expression inner.read) (stable : Stable inner.read)
  (resumes : Resumes .expression inner)
include repairable resumes

theorem repairable_readGroup (opening : Nat) : Repairable .primary (readGroup inner opening) := by
  intro tokens error h incomplete
  rcases bind_eq_error.mp h with hread | ⟨⟨node, rest⟩, hread, hclosing⟩
  · obtain ⟨count, hcount⟩ := repairable _ _ hread incomplete
    refine ⟨count + 1, fun rest _ => ?_⟩
    rw [completion_succ]
    exact (hcount _ (Phrase.before_closing 0 rest)).bind fun node => .inl ⟨node, rfl⟩
  · cases rest with
    | nil =>
        obtain rfl := Except.error.inj hclosing
        refine ⟨1, fun rest _ => .inl ⟨node, ?_⟩⟩
        have hmore := resumes tokens node hread _ (Phrase.before_closing 0 rest)
        exact bind_eq_ok.mpr ⟨_, hmore, rfl⟩
    | cons next after =>
        simp only at hclosing
        split at hclosing
        · simp at hclosing
        · obtain rfl := Except.error.inj hclosing
          exact incomplete.elim

include stable

theorem repairable_readArguments (h : readArguments inner opening tokens = .error error)
    (incomplete : error.Incomplete) :
    ∃ count, ∀ rest,
      Completes (readArguments inner opening (tokens ++ completion error count rest)) rest := by
  fun_induction readArguments inner opening tokens with
  | case1 tokens found hread =>
      obtain rfl := Except.error.inj h
      obtain ⟨count, hcount⟩ := repairable _ _ hread incomplete
      refine ⟨count + 1, fun rest => ?_⟩
      rw [completion_succ]
      rcases hcount _ (Phrase.before_closing 0 rest) with ⟨node, hok⟩ | ⟨error, herror, hphrase⟩
      · exact .inl ⟨[node], readArguments_single hok⟩
      · exact .inr ⟨error, readArguments_of_error herror, hphrase⟩
  | case2 tokens node hread =>
      obtain rfl := Except.error.inj h
      refine ⟨1, fun rest => .inl ⟨[node], ?_⟩⟩
      exact readArguments_single (resumes tokens node hread _ (Phrase.before_closing 0 rest))
  | case3 => simp at h
  | case4 tokens argument next after hread hclosing hcomma ih =>
      rcases bind_eq_error.mp h with hothers | ⟨_, -, hlast⟩
      · obtain ⟨count, hcount⟩ := ih hothers
        refine ⟨count, fun rest => ?_⟩
        have hmore := stable.ok hread (List.cons_ne_nil _ _) (completion error count rest)
        rw [List.cons_append] at hmore
        rw [readArguments_of_next hmore, if_neg hclosing, if_pos hcomma]
        exact (hcount rest).bind fun others => .inl ⟨argument :: others, rfl⟩
      · simp [pure, Except.pure] at hlast
  | case5 =>
      obtain rfl := Except.error.inj h
      exact incomplete.elim

variable (ends : inner.read [] = .error (.unexpectedEnd .operand))
include ends

theorem repairable_readArgumentList (h : readArgumentList inner opening tokens = .error error)
    (incomplete : error.Incomplete) :
    ∃ count, ∀ rest,
      Completes (readArgumentList inner opening (tokens ++ completion error count rest)) rest := by
  cases tokens with
  | nil =>
      -- The number that is put in front keeps the list from being closed without an argument.
      obtain rfl : SyntaxError.unexpectedEnd .operand = error :=
        Except.error.inj ((readArguments_of_error ends).symm.trans h)
      obtain ⟨count, hcount⟩ := repairable_readArguments repairable stable resumes h incomplete
      exact ⟨count, hcount⟩
  | cons next tail =>
      simp only [readArgumentList] at h
      split at h
      · simp at h
      · rename_i hclosing
        obtain ⟨count, hcount⟩ := repairable_readArguments repairable stable resumes h incomplete
        refine ⟨count, fun rest => ?_⟩
        rw [List.cons_append, readArgumentList, if_neg hclosing]
        exact hcount rest

theorem repairable_readName (name : String) (position : Nat) :
    Repairable .primary (readName inner name position) := by
  intro tokens error h incomplete
  cases tokens with
  | nil => simp [readName] at h
  | cons next tail =>
      simp only [readName] at h
      split at h
      · rename_i hopening
        rcases bind_eq_error.mp h with hread | ⟨⟨arguments, after⟩, -, hcall⟩
        · obtain ⟨count, hcount⟩ :=
            repairable_readArgumentList repairable stable resumes ends hread incomplete
          refine ⟨count, fun rest _ => ?_⟩
          rw [List.cons_append, readName, if_pos hopening]
          refine (hcount rest).bind fun arguments => ?_
          dsimp only
          split
          · exact Completes.build _ rest
          · exact .inr ⟨_, rfl, trivial⟩
        · simp only at hcall
          split at hcall
          · exact absurd incomplete (not_incomplete_of_build hcall)
          · obtain rfl := Except.error.inj hcall
            exact incomplete.elim
      · simp at h

theorem repairable_primary : Repairable .primary (primary inner).read := by
  intro tokens error h incomplete
  cases tokens with
  | nil =>
      obtain rfl := Except.error.inj h
      exact ⟨0, fun _ _ => .inl ⟨_, rfl⟩⟩
  | cons next tail =>
      obtain ⟨position, token⟩ := next
      simp only [primary, List.cons_append, readPrimary] at h ⊢
      split at h
      · simp at h
      · exact repairable_readName repairable stable resumes ends _ position _ _ h incomplete
      · exact repairable_readGroup repairable resumes position _ _ h incomplete
      · obtain rfl := Except.error.inj h
        exact incomplete.elim

end Parentheses

theorem repairable_readExponent (repairable : Repairable .signed deeper.read) (base : Expression) :
    Repairable .power (readExponent deeper base) := by
  intro tokens error h incomplete
  cases tokens with
  | nil => simp [readExponent] at h
  | cons next tail =>
      simp only [readExponent] at h
      split at h
      · rename_i hcaret
        rcases bind_eq_error.mp h with hread | ⟨_, -, hnode⟩
        · obtain ⟨count, hcount⟩ := repairable _ _ hread incomplete
          refine ⟨count, fun rest hrest => ?_⟩
          rw [List.cons_append, readExponent, if_pos hcaret]
          exact (hcount rest hrest).bind fun exponent => Completes.build _ rest
        · exact absurd incomplete (not_incomplete_of_build hnode)
      · simp at h

/-- One level more: what a sign has behind it is repaired as an operand of the level below. -/
theorem repairable_operand (levels : Nat) : Repairable .signed (operand levels).read := by
  induction levels with
  | zero => exact repairable_tooDeep
  | succ levels ih =>
      have stable := stable_operand levels
      have hprimary : Repairable .primary (primary (expression (operand levels))).read :=
        repairable_primary (repairable_expression ih stable) (stable_expression stable)
          (resumes_expression levels) (expression_read_nil levels)
      have hpower : Repairable .power (power (operand levels)).read :=
        hprimary.andThen (stable_primary (stable_expression stable)) (repairable_readExponent ih)
          (fun _ h => h.mono fun _ h => And.left h) fun _ _ h => readExponent_stop h
      intro tokens error h incomplete
      cases tokens with
      | nil =>
          obtain rfl := Except.error.inj h
          exact ⟨0, fun rest hrest => .inl ⟨.literal 0 0, readExponent_stop hrest⟩⟩
      | cons next tail =>
          simp only [operand, signed] at h
          split at h
          · rename_i hsign
            obtain ⟨count, hcount⟩ := hpower _ _ h incomplete
            refine ⟨count, fun rest hrest => ?_⟩
            simp only [operand, signed, List.cons_append, hsign]
            exact hcount rest hrest
          · rename_i sign hsign
            rcases bind_eq_error.mp h with hread | ⟨_, -, hnode⟩
            · obtain ⟨count, hcount⟩ := ih _ _ hread incomplete
              refine ⟨count, fun rest hrest => ?_⟩
              simp only [operand, signed, List.cons_append, hsign]
              exact (hcount rest hrest).bind fun operand => Completes.build _ rest
            · exact absurd incomplete (not_incomplete_of_build hnode)

/-- Tokens that end too early become an expression, or phrases that are complete but not allowed,
by the operand that is missing and closing parentheses. -/
theorem repair_of_ofTokens (h : Expression.ofTokens tokens = .error error)
    (incomplete : error.Incomplete) :
    ∃ count,
      (∃ node, Expression.ofTokens (tokens ++ (error.missing ++ closings count)) = .ok node) ∨
      ∃ found, Expression.ofTokens (tokens ++ (error.missing ++ closings count)) = .error found ∧
        found.OfPhrase := by
  cases tokens with
  | nil =>
      obtain rfl := Except.error.inj h
      exact incomplete.elim
  | cons first tail =>
      rcases bind_eq_error.mp h with hread | ⟨⟨node, rest⟩, hread, hrest⟩
      · have repairable := repairable_expression (repairable_operand (depthLimit + 1))
          (stable_operand _)
        obtain ⟨count, hcount⟩ := repairable _ _ hread incomplete
        refine ⟨count, ?_⟩
        have hwhole := hcount [] nofun
        rw [completion, List.append_nil] at hwhole
        rcases hwhole with ⟨node, hok⟩ | ⟨found, herror, hphrase⟩
        · exact .inl ⟨node, bind_eq_ok.mpr ⟨_, hok, rfl⟩⟩
        · exact .inr ⟨found, bind_eq_error.mpr (.inl herror), hphrase⟩
      · cases rest with
        | nil => simp at hrest
        | cons =>
            obtain rfl := Except.error.inj hrest
            exact incomplete.elim

/-- An error about a token, or about the arguments of a call, is final: more tokens do not change
it. An error for the want of tokens is not: a number, if an operand is missing, and closing
parentheses are enough for an expression, or for a call with too many arguments or phrases that
break a limit. -/
theorem errors_of_more_tokens (tokens : List PlacedToken) :
    (∀ error, Expression.ofTokens tokens = .error error → error.Definite →
      ∀ more, Expression.ofTokens (tokens ++ more) = .error error) ∧
    ∀ error, Expression.ofTokens tokens = .error error → error.Incomplete →
      ∃ count,
        (∃ node, Expression.ofTokens (tokens ++ (error.missing ++ closings count)) = .ok node) ∨
        ∃ found, Expression.ofTokens (tokens ++ (error.missing ++ closings count)) = .error found ∧
          found.OfPhrase :=
  ⟨fun _ => ofTokens_append_of_error, fun _ => repair_of_ofTokens⟩

/-- A parenthesis that was not opened stays wrong; one that is not closed is closed behind the
operand that is missing. -/
theorem closing_is_final_and_opening_is_not :
    Expression.ofTokens [⟨0, .number 1⟩, ⟨1, .symbol .closing⟩] = .error (.trailingToken ")" 1) ∧
    (∀ more, Expression.ofTokens ([⟨0, .number 1⟩, ⟨1, .symbol .closing⟩] ++ more) =
      .error (.trailingToken ")" 1)) ∧
    Expression.ofTokens [⟨0, .symbol .opening⟩] = .error (.unexpectedEnd .operand) ∧
    ∃ count,
      (∃ node, Expression.ofTokens
        ([⟨0, .symbol .opening⟩] ++ (⟨0, .number 0⟩ :: closings count)) = .ok node) ∨
      ∃ found, Expression.ofTokens
        ([⟨0, .symbol .opening⟩] ++ (⟨0, .number 0⟩ :: closings count)) = .error found ∧
          found.OfPhrase := by
  have hclosing : Expression.ofTokens [⟨0, .number 1⟩, ⟨1, .symbol .closing⟩] =
      .error (.trailingToken ")" 1) := by cbv
  have hopening : Expression.ofTokens [⟨0, .symbol .opening⟩] =
      .error (.unexpectedEnd .operand) := rfl
  have hrepair := (errors_of_more_tokens [⟨0, .symbol .opening⟩]).2 _ hopening trivial
  exact ⟨hclosing, (errors_of_more_tokens _).1 _ hclosing trivial, hopening,
    by simpa only [SyntaxError.missing, List.cons_append, List.nil_append] using hrepair⟩

end Grammar
end Calculator
