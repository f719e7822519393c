import Calculator.Proofs.Continuation
import Calculator.Proofs.Session.Bookkeeping

/-!
What becomes of a result, and of the memory, when it is used as input again.

After an evaluation the buffer is the text of a finite number, and so it is after recalling the
memory, since the registers stay finite. Such a text is read as the number again, be it evaluated
or stored. To toggle its sign is to write the opposite number, but for the number zero: its opposite
has the text of zero too, and the toggled text has a sign in front that is dropped by the next
evaluation.
-/

namespace Calculator
namespace Session

open Display Magnitude

/-- The sessions that commands lead to. -/
def Reachable (arithmetic : Arithmetic) (session : Session) : Prop :=
  ∃ window commands, ((new window).run arithmetic commands).1 = session

/-- The buffer is a text of this number, whatever is done with it. -/
structure Reenters (arithmetic : Arithmetic) (session : Session) (value : Float) : Prop where
  evaluated : ∃ last result,
    session.apply arithmetic .evaluate = (last, some (.evaluated session.buffer result)) ∧
      (result == value) = true ∧ last.buffer = session.buffer ∧
      (last.registers.lastAnswer == session.registers.lastAnswer) = true
  stored : ((session.apply arithmetic .memoryStore).1.registers.memory == value) = true
  opposed : ∃ last text result,
    session.run arithmetic [.toggleSign, .evaluate] =
        (last, [none, some (.evaluated text result)]) ∧
      (result == -value) = true
  restored : (session.run arithmetic [.toggleSign, .toggleSign]).1.buffer = session.buffer

/-- The memory has the same number after it has been recalled and stored, and is evaluated to it. -/
structure RecallsMemory (arithmetic : Arithmetic) (session : Session) : Prop where
  evaluated : ∃ last text result,
    session.run arithmetic [.memoryRecall, .evaluate] =
        (last, [none, some (.evaluated text result)]) ∧
      (result == session.registers.memory) = true
  stored : ((session.run arithmetic [.memoryRecall, .memoryStore]).1.registers.memory ==
    session.registers.memory) = true

theorem Reachable.finite {arithmetic : Arithmetic} {session : Session}
    (reachable : Reachable arithmetic session) : session.registers.Finite := by
  obtain ⟨window, commands, rfl⟩ := reachable
  induction commands using List.reverseRecOn with
  | nil => exact Registers.finite_default
  | append_singleton commands command ih =>
      rw [run_concat]
      exact finite_step _ command ih

section Opposites

variable {value : Float}

theorem ofFloat_neg (finite : value.isFinite = true) : ofFloat (-value) = ofFloat value := by
  have hbits : value.toBits.toNat < 2 ^ 64 := value.toBits.toBitVec.isLt
  rw [ofFloat_eq, ofFloat_eq, toBits_neg finite]
  omega

theorem isNegative_neg (finite : value.isFinite = true) :
    Number.isNegative (-value) = !Number.isNegative value := by
  have hbits : value.toBits.toNat < 2 ^ 64 := value.toBits.toBitVec.isLt
  rw [Bool.eq_not_iff, Ne, Bool.eq_iff_iff, isNegative_iff, isNegative_iff, toBits_neg finite]
  omega

theorem natural_eq_cons (decimal : Decimal) :
    ∃ c tail, decimal.natural = c :: tail ∧ c ≠ '-' := by
  obtain ⟨numeral, hwell, htext, -⟩ := Decimal.spells_natural decimal
  obtain ⟨c, tail, hcons, hstart⟩ := Numeral.text_eq_cons hwell
  refine ⟨c, tail, htext.symm.trans hcons, ?_⟩
  rcases hstart with hdigit | rfl
  · exact (ne_sign_of_isDigit hdigit).2
  · decide

theorem toggleSign_minus (rest : List Char) :
    toggleSign (String.ofList ('-' :: rest)) = String.ofList rest := by
  simp [toggleSign]

theorem toggleSign_other {c : Char} (h : c ≠ '-') (rest : List Char) :
    toggleSign (String.ofList (c :: rest)) = String.ofList ('-' :: c :: rest) := by
  simp [toggleSign, h]

/-- Toggling the sign of a number's text gives the text of the opposite number. -/
theorem toggleSign_text (finite : value.isFinite = true) (nonzero : ofFloat value ≠ 0) :
    toggleSign (Number.text value) = Number.text (-value) := by
  obtain ⟨c, tail, hnatural, hc⟩ := natural_eq_cons (Decimal.shortest (ofFloat value))
  have hopposite : ofFloat (-value) ≠ 0 := by rwa [ofFloat_neg finite]
  rw [Number.text_eq_natural finite nonzero, Number.text_eq_natural (isFinite_neg finite) hopposite,
    ofFloat_neg finite, hnatural]
  simp only [Number.sign, isNegative_neg finite]
  cases Number.isNegative value with
  | true => exact toggleSign_minus (c :: tail)
  | false => exact toggleSign_other hc tail

theorem neg_neg_of_isFinite (finite : value.isFinite = true) : - -value = value := by
  have hbits : value.toBits.toNat < 2 ^ 64 := value.toBits.toBitVec.isLt
  apply float_ext
  rw [toBits_neg (isFinite_neg finite), toBits_neg finite]
  omega

theorem toggleSign_toggleSign_text (finite : value.isFinite = true) :
    toggleSign (toggleSign (Number.text value)) = Number.text value := by
  by_cases hzero : ofFloat value = 0
  · rw [Number.text_of_zero hzero]
    decide
  · have hopposite : ofFloat (-value) ≠ 0 := by rwa [ofFloat_neg finite]
    rw [toggleSign_text finite hzero, toggleSign_text (isFinite_neg finite) hopposite,
      neg_neg_of_isFinite finite]

theorem evaluate_negative_zero (arithmetic : Arithmetic) (registers : Registers) :
    evaluate arithmetic registers "-0" = .ok (-0.0) := by
  have hzero : (0.0 : Float).isFinite = true := by decide +kernel
  have htext : Expression.ofText "-0" = .ok (.unary .negate (.literal 0.0 1) 0) := by
    decide +kernel
  have hvalue : (Expression.unary .negate (.literal 0.0 1) 0).evaluate arithmetic registers =
      .ok (-0.0) :=
    Expression.evaluate_unary_eq_ok.mpr
      ⟨0.0, checkFinite_eq_ok.mpr ⟨hzero, rfl⟩, isFinite_neg hzero, rfl⟩
  rw [evaluate, htext]
  simp only [hvalue]

/-- With its sign toggled, the text of a number is evaluated to the opposite number. -/
theorem evaluate_toggled (arithmetic : Arithmetic) (registers : Registers)
    (finite : value.isFinite = true) :
    ∃ result, evaluate arithmetic registers (toggleSign (Number.text value)) = .ok result ∧
      SameNumber result (-value) := by
  by_cases hzero : ofFloat value = 0
  · have htoggled : toggleSign (Number.text value) = "-0" := by
      rw [Number.text_of_zero hzero]
      decide
    rw [htoggled]
    refine ⟨-0.0, evaluate_negative_zero arithmetic registers, .inr ⟨?_, ?_⟩⟩
    · exact List.mem_cons_of_mem _ List.mem_cons_self
    · rw [mem_zeros_iff, ofFloat_neg finite, hzero]
  · rw [toggleSign_text finite hzero]
    exact ⟨_, evaluate_text arithmetic registers (isFinite_neg finite),
      Continuation.sameNumber_shown (-value)⟩

end Opposites

section Reentry

variable {arithmetic : Arithmetic} {session : Session} {value : Float}

theorem isFinite_shown (finite : value.isFinite = true) : (shown value).isFinite = true := by
  rw [shown]
  split
  · exact isFinite_zero
  · exact finite

theorem beq_shown (finite : value.isFinite = true) : (shown value == value) = true :=
  (Continuation.sameNumber_shown value).beq (isFinite_shown finite)

theorem text_shown (value : Float) : Number.text (shown value) = Number.text value := by
  rw [shown]
  split
  · rename_i hzero
    rw [Number.text_of_zero hzero, Number.text_of_zero (by decide +kernel)]
  · rfl

theorem memory_storeMemory_text (registers : Registers) (finite : value.isFinite = true) :
    ((storeMemory registers (Number.text value)).memory == value) = true := by
  rw [storeMemory, leadingNumber_text finite]
  simp only [Registers.setMemory, isFinite_shown finite, if_true]
  exact beq_shown finite

theorem run_with_evaluate {command : Command}
    (silent : (session.apply arithmetic command).2 = none)
    (h : evaluate arithmetic (session.apply arithmetic command).1.registers
      (session.apply arithmetic command).1.buffer = .ok value) :
    ∃ last, session.run arithmetic [command, .evaluate] =
      (last, [none, some (.evaluated (session.apply arithmetic command).1.buffer value)]) := by
  refine ⟨((session.apply arithmetic command).1.apply arithmetic .evaluate).1, ?_⟩
  simp only [run, apply_evaluate_of_ok h, silent]

theorem reenters_of_text (finite : value.isFinite = true)
    (buffer : session.buffer = Number.text value) (answer : session.registers.lastAnswer = value) :
    Reenters arithmetic session value where
  evaluated := by
    have hvalue : evaluate arithmetic session.registers session.buffer = .ok (shown value) := by
      rw [buffer]
      exact evaluate_text arithmetic session.registers finite
    refine ⟨_, shown value, apply_evaluate_of_ok hvalue, beq_shown finite, ?_, ?_⟩
    · rw [buffer]
      exact text_shown value
    · rw [answer]
      exact beq_shown finite
  stored := by
    show ((storeMemory session.registers session.buffer).memory == value) = true
    rw [buffer]
    exact memory_storeMemory_text session.registers finite
  opposed := by
    obtain ⟨result, hvalue, same⟩ := evaluate_toggled arithmetic session.registers finite
    rw [← buffer] at hvalue
    have hsilent : (session.apply arithmetic .toggleSign).2 = none := rfl
    obtain ⟨last, hrun⟩ := run_with_evaluate hsilent hvalue
    exact ⟨last, _, result, hrun, same.beq (isFinite_of_evaluate hvalue)⟩
  restored := by
    show toggleSign (toggleSign session.buffer) = session.buffer
    rw [buffer]
    exact toggleSign_toggleSign_text finite

theorem recallsMemory_of_finite (finite : session.registers.memory.isFinite = true) :
    RecallsMemory arithmetic session where
  evaluated := by
    have hvalue := evaluate_text arithmetic session.registers finite
    have hsilent : (session.apply arithmetic .memoryRecall).2 = none := rfl
    obtain ⟨last, hrun⟩ := run_with_evaluate hsilent hvalue
    exact ⟨last, _, shown session.registers.memory, hrun, beq_shown finite⟩
  stored := memory_storeMemory_text session.registers finite

/-- After an evaluation that succeeded the buffer is a text of the value: evaluating it again
changes neither the buffer nor the last answer, storing it stores the value, and with its sign
toggled it is evaluated to the opposite value, or is the same text again if it is toggled once more.
And in every session the memory can be recalled, to be evaluated or to be stored again. Numbers are
compared as numbers, so that the two zeros are the same. -/
theorem results_reenter (reachable : Reachable arithmetic session) :
    (∀ after expression value,
      session.apply arithmetic .evaluate = (after, some (.evaluated expression value)) →
        Reenters arithmetic after value) ∧
      RecallsMemory arithmetic session := by
  constructor
  · intro after expression value evaluated
    obtain ⟨-, finite, buffer, answer⟩ := Continuation.apply_evaluate evaluated
    exact reenters_of_text finite buffer answer
  · exact recallsMemory_of_finite reachable.finite.memory

/-- A negative number is in the memory, and its product with zero has been typed. -/
def negativeProduct : Session :=
  ((new 4).run .binary64 [.append "-1e-7", .memoryStore, .append "*0"]).1

theorem negative_zero_reenters :
    Reachable .binary64 negativeProduct ∧
      ∃ after, negativeProduct.apply .binary64 .evaluate =
          (after, some (.evaluated "-1e-7*0" (-0.0))) ∧
        Reenters .binary64 after (-0.0) ∧ RecallsMemory .binary64 negativeProduct := by
  have reachable : Reachable .binary64 negativeProduct := ⟨_, _, rfl⟩
  have evaluated : negativeProduct.apply .binary64 .evaluate =
      ((negativeProduct.apply .binary64 .evaluate).1,
        some (.evaluated "-1e-7*0" (-0.0))) := by decide +kernel
  have reenter := results_reenter reachable
  exact ⟨reachable, _, evaluated, reenter.1 _ _ _ evaluated, reenter.2⟩

end Reentry

end Session
end Calculator
