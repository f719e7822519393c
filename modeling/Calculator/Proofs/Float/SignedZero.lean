import Calculator.Proofs.Float.Components

/-!
The two zeros.

They are the only doubles that are equal as numbers without being the same. An operation that has
one of them on its left gives the same result with the other one there, up to the sign of a zero
again. Powers are an exception: the sign counts if the exponent is negative.
-/

namespace Calculator
namespace Magnitude

open Float.Model Float.Model.UnpackedFloat

def zeros : List Float := [0.0, -0.0]

/-- Equal as numbers: the same double, or both a zero. -/
def SameNumber (x y : Float) : Prop :=
  x = y ∨ (x ∈ zeros ∧ y ∈ zeros)

variable {x y : Float}

theorem SameNumber.symm (h : SameNumber x y) : SameNumber y x := by
  rcases h with rfl | ⟨hx, hy⟩
  · exact .inl rfl
  · exact .inr ⟨hy, hx⟩

theorem mem_zeros_iff : x ∈ zeros ↔ ofFloat x = 0 := by
  constructor
  · intro h
    simp only [zeros, List.mem_cons, List.not_mem_nil, or_false] at h
    rcases h with rfl | rfl <;> decide +kernel
  · intro h
    have hbits : x.toBits.toNat < 2 ^ 64 := x.toBits.toBitVec.isLt
    have hpositive : (0.0 : Float).toBits.toNat = 0 := by decide +kernel
    have hnegative : (-0.0 : Float).toBits.toNat = 2 ^ 63 := by decide +kernel
    rw [ofFloat_eq] at h
    have hcases : x.toBits.toNat = 0 ∨ x.toBits.toNat = 2 ^ 63 := by omega
    rcases hcases with hzero | hzero
    · rw [float_ext (hzero.trans hpositive.symm)]
      exact List.mem_cons_self
    · rw [float_ext (hzero.trans hnegative.symm)]
      exact List.mem_cons_of_mem _ List.mem_cons_self

/-- The double that an unpacked one is packed into. -/
def packed (value : UnpackedFloat) : Float :=
  .ofModel (.pack value)

theorem packed_unpack (x : Float) : packed x.toModel.unpack = x := by
  apply float_ext
  exact congrArg BitVec.toNat (pack_unpack x.toModel.valid)

theorem packed_zero (sign : Sign) : packed (.zero sign) ∈ zeros := by
  rw [mem_zeros_iff]
  cases sign <;> decide +kernel

theorem unpack_of_mem_zeros (h : x ∈ zeros) : ∃ sign, x.toModel.unpack = .zero sign := by
  simp only [zeros, List.mem_cons, List.not_mem_nil, or_false] at h
  rcases h with rfl | rfl
  · exact ⟨.positive, rfl⟩
  · exact ⟨.negative, rfl⟩

theorem mem_zeros_of_unpack {sign : Sign} (h : x.toModel.unpack = .zero sign) : x ∈ zeros := by
  rw [← packed_unpack x, h]
  exact packed_zero sign

theorem unpack_injective (h : x.toModel.unpack = y.toModel.unpack) : x = y := by
  rw [← packed_unpack x, h, packed_unpack]

section Operations

/-- The sign of a zero on the left does not matter, except for the sign of a zero that results. -/
def IgnoresZeroSign (operation : UnpackedFloat → UnpackedFloat → UnpackedFloat) : Prop :=
  ∀ sign sign' right, operation (.zero sign) right = operation (.zero sign') right ∨
    ∃ result result', operation (.zero sign) right = .zero result ∧
      operation (.zero sign') right = .zero result'

theorem ignoresZeroSign_add : IgnoresZeroSign (UnpackedFloat.add .binary64) := by
  intro sign sign' right
  cases right with
  | zero other =>
      refine .inr ?_
      cases sign <;> cases sign' <;> cases other <;> exact ⟨_, _, rfl, rfl⟩
  | infinity | notANumber | finite => exact .inl rfl

theorem ignoresZeroSign_sub : IgnoresZeroSign (UnpackedFloat.sub .binary64) := by
  intro sign sign' right
  cases right with
  | zero other =>
      refine .inr ?_
      cases sign <;> cases sign' <;> cases other <;> exact ⟨_, _, rfl, rfl⟩
  | infinity | notANumber | finite => exact .inl rfl

theorem ignoresZeroSign_mul : IgnoresZeroSign (UnpackedFloat.mul .binary64) := by
  intro sign sign' right
  cases right with
  | zero | finite => exact .inr ⟨_, _, rfl, rfl⟩
  | infinity | notANumber => exact .inl rfl

theorem ignoresZeroSign_div : IgnoresZeroSign (UnpackedFloat.div .binary64) := by
  intro sign sign' right
  cases right with
  | infinity | finite => exact .inr ⟨_, _, rfl, rfl⟩
  | zero | notANumber => exact .inl rfl

theorem IgnoresZeroSign.sameNumber
    {operation : UnpackedFloat → UnpackedFloat → UnpackedFloat} (h : IgnoresZeroSign operation)
    (same : SameNumber x y) (right : Float) :
    SameNumber (packed (operation x.toModel.unpack right.toModel.unpack))
      (packed (operation y.toModel.unpack right.toModel.unpack)) := by
  rcases same with rfl | ⟨hx, hy⟩
  · exact .inl rfl
  · obtain ⟨sign, hsign⟩ := unpack_of_mem_zeros hx
    obtain ⟨sign', hsign'⟩ := unpack_of_mem_zeros hy
    rw [hsign, hsign']
    rcases h sign sign' right.toModel.unpack with heq | ⟨result, result', hresult, hresult'⟩
    · exact .inl (congrArg packed heq)
    · rw [hresult, hresult']
      exact .inr ⟨packed_zero result, packed_zero result'⟩

theorem SameNumber.add (same : SameNumber x y) (right : Float) :
    SameNumber (x + right) (y + right) :=
  ignoresZeroSign_add.sameNumber same right

theorem SameNumber.sub (same : SameNumber x y) (right : Float) :
    SameNumber (x - right) (y - right) :=
  ignoresZeroSign_sub.sameNumber same right

theorem SameNumber.mul (same : SameNumber x y) (right : Float) :
    SameNumber (x * right) (y * right) :=
  ignoresZeroSign_mul.sameNumber same right

theorem SameNumber.div (same : SameNumber x y) (right : Float) :
    SameNumber (x / right) (y / right) :=
  ignoresZeroSign_div.sameNumber same right

theorem SameNumber.neg (same : SameNumber x y) : SameNumber (-x) (-y) := by
  rcases same with rfl | ⟨hx, hy⟩
  · exact .inl rfl
  · have hneg : ∀ {zero : Float}, zero ∈ zeros → -zero ∈ zeros := by
      intro zero hzero
      obtain ⟨sign, hsign⟩ := unpack_of_mem_zeros hzero
      show packed zero.toModel.unpack.neg ∈ zeros
      rw [hsign]
      exact packed_zero (-sign)
    exact .inr ⟨hneg hx, hneg hy⟩

end Operations

section Comparison

theorem compare_zero (sign sign' : Sign) :
    UnpackedFloat.compare (.zero sign) (.zero sign') = some .eq := rfl

theorem compare_self {value : UnpackedFloat} (h : value.isFinite = true) :
    value.compare value = some .eq := by
  rcases cases_of_isFinite h with ⟨sign, rfl⟩ | ⟨sign, mantissa, exponent, _, rfl⟩
  · rfl
  · have hplaces : (compare exponent exponent).then (compare mantissa mantissa) = .eq := by simp
    cases sign with
    | positive => exact congrArg some hplaces
    | negative => exact congrArg (some ·.swap) hplaces

theorem sign_eq_of_compare {sign sign' : Sign} (h : compare sign sign' = .eq) : sign = sign' := by
  cases sign <;> cases sign' <;> first | rfl | simp [compare] at h

theorem finite_of_compare {sign sign' : Sign} {mantissa mantissa' : Nat} {exponent exponent' : Int}
    {positive : 0 < mantissa} {positive' : 0 < mantissa'}
    (h : UnpackedFloat.compare (.finite sign mantissa exponent positive)
      (.finite sign' mantissa' exponent' positive') = some .eq) :
    sign = sign' ∧ mantissa = mantissa' ∧ exponent = exponent' := by
  have hplaces (h : (compare exponent exponent').then (compare mantissa mantissa') = .eq) :
      mantissa = mantissa' ∧ exponent = exponent' := by
    rw [Ordering.then_eq_eq, Int.compare_eq_eq, Nat.compare_eq_eq] at h
    exact h.symm
  cases sign with
  | positive =>
      cases sign' with
      | positive => exact ⟨rfl, hplaces (Option.some.inj h)⟩
      | negative => cases h
  | negative =>
      cases sign' with
      | positive => cases h
      | negative => exact ⟨rfl, hplaces (Ordering.swap_eq_eq.mp (Option.some.inj h))⟩

/-- Numbers in canonical form that compare as equal are the same, or both a zero. -/
theorem eq_of_compare {value value' : UnpackedFloat} (h : value.compare value' = some .eq) :
    value = value' ∨ ∃ sign sign', value = .zero sign ∧ value' = .zero sign' := by
  cases value with
  | notANumber => cases h
  | infinity sign =>
      cases value' with
      | infinity sign' =>
          rw [sign_eq_of_compare (Option.some.inj h)]
          exact .inl rfl
      | notANumber | zero | finite => cases sign <;> cases h
  | zero sign =>
      cases value' with
      | zero sign' => exact .inr ⟨sign, sign', rfl, rfl⟩
      | notANumber => cases h
      | infinity sign' | finite sign' => cases sign' <;> cases h
  | finite sign mantissa exponent =>
      cases value' with
      | finite sign' mantissa' exponent' =>
          obtain ⟨rfl, rfl, rfl⟩ := finite_of_compare h
          exact .inl rfl
      | notANumber => cases h
      | zero => cases sign <;> cases h
      | infinity sign' => cases sign' <;> cases h

theorem beq_iff_compare :
    (x == y) = true ↔ x.toModel.unpack.compare y.toModel.unpack = some .eq := by
  show (x.toModel.unpack.compare y.toModel.unpack == some .eq) = true ↔ _
  exact beq_iff_eq

theorem lt_iff_compare :
    x < y ↔ x.toModel.unpack.compare y.toModel.unpack = some .lt :=
  decide_eq_true_iff.trans beq_iff_eq

theorem SameNumber.beq (same : SameNumber x y) (finite : x.isFinite = true) :
    (x == y) = true := by
  rw [beq_iff_compare]
  rcases same with rfl | ⟨hx, hy⟩
  · exact compare_self finite
  · obtain ⟨sign, hsign⟩ := unpack_of_mem_zeros hx
    obtain ⟨sign', hsign'⟩ := unpack_of_mem_zeros hy
    rw [hsign, hsign', compare_zero]

theorem sameNumber_of_beq (h : (x == y) = true) : SameNumber x y := by
  rcases eq_of_compare (beq_iff_compare.mp h) with heq | ⟨sign, sign', hsign, hsign'⟩
  · exact .inl (unpack_injective heq)
  · exact .inr ⟨mem_zeros_of_unpack hsign, mem_zeros_of_unpack hsign'⟩

theorem mem_zeros_iff_beq : x ∈ zeros ↔ (x == 0) = true := by
  constructor
  · intro h
    have hzero : (0 : Float) ∈ zeros := mem_zeros_iff.mpr (by decide +kernel)
    have hfinite : x.isFinite = true := isFinite_iff.mpr (by rw [mem_zeros_iff.mp h]; decide)
    exact SameNumber.beq (.inr ⟨h, hzero⟩) hfinite
  · intro h
    rcases sameNumber_of_beq h with rfl | ⟨hx, -⟩
    · exact mem_zeros_iff.mpr (by decide +kernel)
    · exact hx

theorem sign_eq_negative {bits : BitVec 64} :
    Sign.ofBitVec (@unpackSign .binary64 bits) = .negative ↔ 2 ^ 63 ≤ bits.toNat := by
  have hbits : bits.toNat < 2 ^ 64 := bits.isLt
  have hsign := @toNat_sign bits
  generalize @unpackSign .binary64 bits = bit at hsign
  rw [Sign.ofBitVec]
  by_cases hzero : bit = 0#1
  · rw [if_pos hzero]
    rw [hzero, BitVec.toNat_ofNat] at hsign
    constructor
    · exact nofun
    · omega
  · have hone : bit.toNat ≠ 0 := fun h => hzero (BitVec.eq_of_toNat_eq h)
    rw [if_neg hzero]
    constructor
    · omega
    · exact fun _ => rfl

theorem sign_of_unpack {bits : BitVec 64} {sign : Sign} {mantissa : Nat} {exponent : Int}
    {positive : 0 < mantissa}
    (h : UnpackedFloat.unpack .binary64 bits = .finite sign mantissa exponent positive) :
    Sign.ofBitVec (@unpackSign .binary64 bits) = sign := by
  have stands := standsFor_unpack bits
  rw [h] at stands
  cases stands <;> rfl

theorem lt_zero_iff (finite : x.isFinite = true) :
    x < 0 ↔ Number.isNegative x = true ∧ ofFloat x ≠ 0 := by
  obtain ⟨sign', hzero⟩ := unpack_of_mem_zeros (mem_zeros_iff.mpr (by decide +kernel) : 0 ∈ zeros)
  rw [lt_iff_compare, hzero, Ne, ← mem_zeros_iff]
  rcases @cases_of_isFinite x.toModel.unpack finite with
    ⟨sign, hvalue⟩ | ⟨sign, mantissa, exponent, positive, hvalue⟩
  · rw [hvalue, compare_zero]
    exact iff_of_false (by decide) fun h => h.2 (mem_zeros_of_unpack hvalue)
  · have hother : x ∉ zeros := by
      intro h
      obtain ⟨_, hsign⟩ := unpack_of_mem_zeros h
      cases hvalue.symm.trans hsign
    have hsign : sign = .negative ↔ Number.isNegative x = true := by
      rw [← sign_of_unpack hvalue, sign_eq_negative, isNegative_iff]
      rfl
    rw [← hsign, hvalue]
    cases sign with
    | positive => exact iff_of_false (fun h => by cases h) fun h => by cases h.1
    | negative => exact iff_of_true rfl ⟨rfl, hother⟩

end Comparison

end Magnitude
end Calculator
