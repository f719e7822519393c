import Calculator.Proofs.Calculation
import Calculator.Proofs.Number.Written
import Calculator.Proofs.Shorthand.Marking

/-!
Displayed numbers are input.

A finite number is displayed as a numeral, with a minus sign in front if it is below zero. The
shorthands leave it alone, and it is read as a signed operand that has the number as its value. Only
the sign of a negative zero is lost.
-/

namespace Calculator
namespace Display

open Grammar Magnitude Shorthand

/-- Whether a number is displayed with a minus sign. -/
def hasMinus (value : Float) : Bool :=
  Number.isNegative value && ofFloat value ≠ 0

/-- A numeral that a number is displayed as, apart from its sign. -/
structure Shows (value : Float) (numeral : Numeral) : Prop where
  wellFormed : numeral.WellFormed
  value_eq : numeral.value = toFloat (ofFloat value)
  text_eq : (Number.text value).toList = (if hasMinus value then ['-'] else []) ++ numeral.text

theorem shows_of_isFinite {value : Float} (finite : value.isFinite = true) :
    ∃ numeral, Shows value numeral := by
  by_cases hzero : ofFloat value = 0
  · refine ⟨⟨['0'], none, none⟩, ⟨by simp, by simp, by simp, by simp⟩, ?_, ?_⟩
    · rw [hzero]
      rfl
    · rw [Number.text_of_zero hzero]
      simp [hzero, hasMinus, Numeral.text]
  · obtain ⟨numeral, hwell, htext, hmagnitude⟩ :=
      Decimal.spells_natural (Decimal.shortest (ofFloat value))
    refine ⟨numeral, hwell, ?_, ?_⟩
    · rw [Numeral.value, Decimal.toFloat, hmagnitude,
        Decimal.magnitude_shortest (isFinite_iff.mp finite)]
    · rw [Number.text_eq_natural finite hzero]
      simp [hzero, hasMinus, Number.sign, htext]

variable {value : Float} {numeral : Numeral}

theorem isNumeralPart_of_shows (h : Shows value numeral) :
    ∀ c ∈ (Number.text value).toList, isNumeralPart c = true := by
  intro c hc
  rw [h.text_eq] at hc
  rcases List.mem_append.mp hc with hsign | hnumeral
  · split at hsign
    · obtain rfl := List.mem_singleton.mp hsign
      rfl
    · simp at hsign
  · exact h.wellFormed.parts c hnumeral

theorem isPlain_of_isNumeralPart {c : Char} (h : isNumeralPart c = true) : isPlain c = true := by
  cases hplain : isPlain c with
  | true => rfl
  | false =>
      simp only [isPlain, decide_eq_false_iff_not, not_not, List.mem_cons, List.not_mem_nil,
        or_false] at hplain
      rcases hplain with rfl | rfl | rfl | rfl | rfl | rfl | rfl <;> exact absurd h (by decide)

theorem expandAll_text (h : Shows value numeral) :
    expandAll (Number.text value).toList = (Number.text value).toList :=
  expandAll_plain fun c hc => isPlain_of_isNumeralPart (isNumeralPart_of_shows h c hc)

/-- The tokens of a displayed number that has another text behind it. -/
def leafTokens (value : Float) (numeral : Numeral) : List PlacedToken :=
  if hasMinus value then [⟨0, .symbol .minus⟩, ⟨1, .number numeral.value⟩]
  else [⟨0, .number numeral.value⟩]

/-- The operand that a displayed number is. -/
def leaf (value : Float) (numeral : Numeral) : Expression :=
  if hasMinus value then .unary .negate (.literal numeral.value 1) 0
  else .literal numeral.value 0

theorem tokensFrom_text (h : Shows value numeral) {rest : List Char} (ends : EndsNumeral rest) :
    tokensFrom 0 ((Number.text value).toList ++ rest) = (do
      let tokens ← tokensFrom (byteCount (Number.text value).toList) rest
      return leafTokens value numeral ++ tokens) := by
  rw [h.text_eq, leafTokens]
  split
  · rw [List.append_assoc, List.cons_append, show '-' = Symbol.minus.char from rfl,
      tokensFrom_symbol, List.nil_append, tokensFrom_numeral h.wellFormed ends, byteCount_append,
      byteCount_symbol]
    cases tokensFrom (0 + 1 + byteCount numeral.text) rest <;> rfl
  · rw [List.nil_append, tokensFrom_numeral h.wellFormed ends, Nat.zero_add]
    cases tokensFrom (byteCount numeral.text) rest <;> rfl

theorem derives_leaf (value : Float) (numeral : Numeral) :
    Derives .signed (leafTokens value numeral) (leaf value numeral)
      (if hasMinus value then 1 else 0) := by
  rw [leafTokens, leaf]
  split
  · exact .sign 0 (by decide) (.unsigned (.base (.literal _ 1)))
  · exact .unsigned (.base (.literal _ 0))

/-- The number that is read from what is displayed. -/
def shown (value : Float) : Float :=
  if ofFloat value = 0 then 0 else value

theorem shown_eq (finite : value.isFinite = true) :
    shown value =
      if hasMinus value then -toFloat (ofFloat value) else toFloat (ofFloat value) := by
  have hindex := isFinite_iff.mp finite
  have hpositive := toBits_toFloat hindex
  have hnegative := toBits_neg (isFinite_toFloat hindex)
  have hbits : value.toBits.toNat < 2 ^ 64 := value.toBits.toBitVec.isLt
  rw [shown]
  split
  · rename_i hzero
    simp only [hasMinus, hzero, ne_eq, not_true_eq_false, decide_false, Bool.and_false,
      Bool.false_eq_true, if_false]
    decide +kernel
  · rename_i hnonzero
    split
    · rename_i hminus
      apply float_ext
      rw [hnegative, hpositive]
      simp only [hasMinus, isNegative_iff, Bool.and_eq_true, decide_eq_true_eq] at hminus
      simp only [ofFloat_eq] at hnonzero ⊢
      omega
    · rename_i hminus
      apply float_ext
      rw [hpositive]
      simp only [hasMinus, isNegative_iff, Bool.and_eq_true, decide_eq_true_eq] at hminus
      simp only [ofFloat_eq] at hnonzero hminus ⊢
      omega

theorem evaluate_leaf (arithmetic : Arithmetic) (registers : Registers)
    (finite : value.isFinite = true) (h : Shows value numeral) :
    (leaf value numeral).evaluate arithmetic registers = .ok (shown value) := by
  have hindex := isFinite_iff.mp finite
  have hshown := shown_eq finite
  have hfinite : (shown value).isFinite = true := by
    rw [shown]
    split
    · decide +kernel
    · exact finite
  rw [leaf, h.value_eq]
  split
  · rename_i hminus
    rw [if_pos hminus] at hshown
    refine Expression.evaluate_unary_eq_ok.mpr ⟨toFloat (ofFloat value), ?_, ?_, hshown.symm⟩
    · exact checkFinite_eq_ok.mpr ⟨isFinite_toFloat hindex, rfl⟩
    · show (-toFloat (ofFloat value)).isFinite = true
      rw [← hshown]
      exact hfinite
  · rename_i hminus
    rw [if_neg hminus] at hshown
    exact checkFinite_eq_ok.mpr ⟨isFinite_toFloat hindex, hshown.symm⟩

theorem evaluate_text (arithmetic : Arithmetic) (registers : Registers)
    (finite : value.isFinite = true) :
    evaluate arithmetic registers (Number.text value) = .ok (shown value) := by
  obtain ⟨numeral, h⟩ := shows_of_isFinite finite
  have htokens : tokensFrom 0 (expandAll (Number.text value).toList) =
      .ok (leafTokens value numeral) := by
    have hread := tokensFrom_text h endsNumeral_nil
    rw [List.append_nil, tokensFrom_nil] at hread
    rw [expandAll_text h, hread]
    simp [bind, Except.bind, pure, Except.pure]
  refine evaluate_of_limits htokens
    (.plain (.term (.factor (derives_leaf value numeral)))) ?_ ?_
    (evaluate_leaf arithmetic registers finite h)
  · split <;> decide
  · rw [leaf]
    split <;> simp [Expression.height, heightLimit]

theorem trimStart_text (h : Shows value numeral) :
    trimStart (Number.text value).toList = (Number.text value).toList := by
  cases htext : (Number.text value).toList with
  | nil => rfl
  | cons c rest =>
      have hpart := isNumeralPart_of_shows h c (by simp [htext])
      rw [trimStart, List.dropWhile_cons_of_neg (by simp [isBlank_of_isNumeralPart hpart])]

theorem leadingNumber_text (finite : value.isFinite = true) :
    leadingNumber (Number.text value) = some (shown value) := by
  obtain ⟨numeral, h⟩ := shows_of_isFinite finite
  obtain ⟨c, tail, htext, hstart⟩ := Numeral.text_eq_cons h.wellFormed
  have hscan := Numeral.scan?_text h.wellFormed endsNumeral_nil
  rw [List.append_nil] at hscan
  have hsign : c ≠ '+' ∧ c ≠ '-' := by
    rcases hstart with hdigit | rfl
    · exact ne_sign_of_isDigit hdigit
    · decide
  have hsplit : splitSign ((if hasMinus value then ['-'] else []) ++ numeral.text) =
      (if hasMinus value then some '-' else none, numeral.text) := by
    split
    · rfl
    · rw [List.nil_append, htext, splitSign, if_neg (by simp [hsign])]
  rw [leadingNumber, trimStart_text h, h.text_eq, hsplit, shown_eq finite, ← h.value_eq]
  simp only [hscan, Option.map_some]
  cases hasMinus value <;> simp

theorem toBits_shown (value : Float) :
    (shown value).toBits =
      if value.toBits = (-0.0 : Float).toBits then (0.0 : Float).toBits else value.toBits := by
  have hnegative : (-0.0 : Float).toBits.toNat = 2 ^ 63 := by decide +kernel
  have hpositive : (0.0 : Float).toBits.toNat = 0 := by decide +kernel
  have hbits : value.toBits.toNat < 2 ^ 64 := value.toBits.toBitVec.isLt
  apply UInt64.toNat_inj.mp
  rw [shown]
  split
  · rename_i hzero
    rw [ofFloat_eq] at hzero
    split
    · rfl
    · rename_i hother
      have hne : value.toBits.toNat ≠ 2 ^ 63 := by
        rw [← hnegative]
        exact fun heq => hother (UInt64.toNat_inj.mp heq)
      show (0.0 : Float).toBits.toNat = value.toBits.toNat
      omega
  · rename_i hnonzero
    rw [if_neg]
    intro heq
    rw [ofFloat_eq, heq, hnegative] at hnonzero
    exact hnonzero (by decide)

/-- A finite number is read back from what is displayed, by the evaluation and by the reader of
leading numbers, and with the same bits, except that negative zero loses its sign. -/
theorem reads_displayed_number (arithmetic : Arithmetic) (registers : Registers) (value : Float)
    (finite : value.isFinite = true) :
    ∃ read, evaluate arithmetic registers (Number.text value) = .ok read ∧
      leadingNumber (Number.text value) = some read ∧
      read.toBits =
        if value.toBits = (-0.0 : Float).toBits then (0.0 : Float).toBits else value.toBits :=
  ⟨shown value, evaluate_text arithmetic registers finite, leadingNumber_text finite,
    toBits_shown value⟩

theorem reads_displayed_negative_number :
    (-1e-7 : Float).isFinite = true ∧
    ∃ read, evaluate .binary64 {} (Number.text (-1e-7)) = .ok read ∧
      leadingNumber (Number.text (-1e-7)) = some read ∧
      read.toBits = if (-1e-7 : Float).toBits = (-0.0 : Float).toBits then (0.0 : Float).toBits
        else (-1e-7 : Float).toBits :=
  have finite : (-1e-7 : Float).isFinite = true := by decide +kernel
  ⟨finite, reads_displayed_number .binary64 {} (-1e-7) finite⟩

end Display
end Calculator
