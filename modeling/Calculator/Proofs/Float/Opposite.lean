import Calculator.Proofs.Float.Product
import Calculator.Proofs.Float.SignedZero

/-!
Opposite numbers.

Rounding does not look at the sign, so turning the sign of a number before it is divided is the same
as turning the sign of the quotient.
-/

namespace Calculator
namespace Magnitude

open Float.Model Float.Model.UnpackedFloat

variable {x y : Float}

theorem oppositeBits_components (sign : Sign) (exponent : BitVec 11) (fraction : BitVec 52) :
    oppositeBits (packComponents .binary64 sign exponent fraction) =
      packComponents .binary64 (-sign) exponent fraction := by
  rw [oppositeBits, sign_of_components, unpackExponent_packComponents,
    unpackMantissa_packComponents]

theorem pack_neg {value : UnpackedFloat} (number : value ≠ .notANumber) :
    UnpackedFloat.pack .binary64 value.neg = oppositeBits (UnpackedFloat.pack .binary64 value) := by
  cases value with
  | notANumber => exact absurd rfl number
  | infinity sign | zero sign => exact (oppositeBits_components sign _ _).symm
  | finite sign significand exponent positive =>
      show UnpackedFloat.pack .binary64 (.finite (-sign) significand exponent positive) = _
      rw [pack_finite, pack_finite]
      split
      · exact (oppositeBits_components sign _ _).symm
      · split <;> exact (oppositeBits_components sign _ _).symm

/-- The sign of what an operation gives may be turned before or after it is packed. -/
theorem packed_neg (value : UnpackedFloat) : packed value.neg = -packed value := by
  by_cases hnumber : value = .notANumber
  · subst hnumber
    decide +kernel
  · have hvalid : Format.binary64.Valid (UnpackedFloat.pack .binary64 value.neg) :=
      (Float.Model.pack value.neg).valid
    rw [pack_neg hnumber] at hvalid
    have hpack := pack_unpack hvalid
    rw [unpack_oppositeBits, ← pack_neg hnumber] at hpack
    apply float_ext
    exact congrArg BitVec.toNat hpack.symm

theorem unpack_neg (finite : x.isFinite = true) : (-x).toModel.unpack = x.toModel.unpack.neg := by
  have hbits : (-x).toBits.toBitVec = oppositeBits x.toBits.toBitVec := by
    apply BitVec.eq_of_toNat_eq
    rw [toNat_oppositeBits]
    exact toBits_neg finite
  exact (congrArg (UnpackedFloat.unpack .binary64) hbits).trans unpack_oppositeBits

theorem sign_div_neg (sign sign' : Sign) : -sign / sign' = -(sign / sign') := by
  cases sign <;> cases sign' <;> rfl

theorem roundWithAccuracy_neg (sign : Sign) (mantissa : Nat) (exponent : Int)
    (accuracy : Accuracy) :
    roundWithAccuracy .binary64 (-sign) mantissa exponent accuracy =
      (roundWithAccuracy .binary64 sign mantissa exponent accuracy).neg := by
  rcases round_cases mantissa exponent accuracy with h | ⟨_, h⟩ <;> rw [h, h] <;> rfl

theorem div_neg_unpacked (value other : UnpackedFloat) :
    UnpackedFloat.div .binary64 value.neg other =
      (UnpackedFloat.div .binary64 value other).neg := by
  cases value with
  | notANumber => rfl
  | infinity sign =>
      cases other with
      | notANumber | infinity => rfl
      | zero sign' | finite sign' => exact congrArg UnpackedFloat.infinity (sign_div_neg sign sign')
  | zero sign =>
      cases other with
      | notANumber | zero => rfl
      | infinity sign' | finite sign' => exact congrArg UnpackedFloat.zero (sign_div_neg sign sign')
  | finite sign significand exponent positive =>
      cases other with
      | notANumber => rfl
      | infinity sign' => exact congrArg UnpackedFloat.zero (sign_div_neg sign sign')
      | zero sign' => exact congrArg UnpackedFloat.infinity (sign_div_neg sign sign')
      | finite sign' =>
          refine Eq.trans ?_ (roundWithAccuracy_neg (sign / sign') _ _ _)
          exact congrArg (roundWithAccuracy .binary64 · _ _ _) (sign_div_neg sign sign')

theorem neg_div (finite : x.isFinite = true) (y : Float) : -x / y = -(x / y) := by
  have hquotient := div_neg_unpacked x.toModel.unpack y.toModel.unpack
  rw [← unpack_neg finite] at hquotient
  exact (congrArg packed hquotient).trans (packed_neg _)

end Magnitude
end Calculator
