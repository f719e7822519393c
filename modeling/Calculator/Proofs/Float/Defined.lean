import Calculator.Proofs.Float.Order

/-!
Which operations have a number as their result.

Rounding gives a finite number, and packing it gives the same or an infinity. So sums, differences
and products of finite doubles are numbers, and so are quotients, unless the divisor is a zero, and
square roots, unless the argument is below zero. Finite doubles can be compared, and what is neither
finite nor a number is infinite.
-/

namespace Calculator
namespace Magnitude

open Float.Model Float.Model.UnpackedFloat

section Results

variable {value left right : UnpackedFloat}

theorem isNaN_components {sign : Sign} {exponent : BitVec 11} {fraction : BitVec 52}
    (h : exponent ≠ -1#11) :
    (UnpackedFloat.unpack .binary64 (packComponents .binary64 sign exponent fraction)).isNaN =
      false := by
  have stands := standsFor_unpack (packComponents .binary64 sign exponent fraction)
  rw [unpackExponent_packComponents] at stands
  generalize UnpackedFloat.unpack .binary64 _ = value at stands ⊢
  cases stands with
  | notANumber all => exact absurd (BitVec.eq_of_toNat_eq all) h
  | infinity | zero | subnormal | normal => rfl

theorem isNaN_infinity (sign : Sign) :
    (UnpackedFloat.unpack .binary64 (packedInfinity .binary64 sign)).isNaN = false := by
  cases sign <;> decide +kernel

/-- Packing a number may give an infinity, but always a number. -/
theorem isNaN_packed (h : value.isNaN = false) : (packed value).isNaN = false := by
  show (UnpackedFloat.unpack .binary64 (UnpackedFloat.pack .binary64 value)).isNaN = false
  cases value with
  | notANumber => cases h
  | infinity sign => exact isNaN_infinity sign
  | zero sign => exact isNaN_components (by decide)
  | finite sign significand exponent positive =>
      rw [pack_finite]
      split
      · exact isNaN_infinity sign
      · split
        · refine isNaN_components fun hall => ?_
          have hbits := congrArg BitVec.toNat hall
          rw [BitVec.toNat_ofNat] at hbits
          have hones : (-1#11).toNat = 2047 := rfl
          omega
        · exact isNaN_components (by decide)

theorem isNaN_rounded (sign : Sign) (mantissa : Nat) (exponent : Int) (accuracy : Accuracy) :
    (roundWithAccuracy .binary64 sign mantissa exponent accuracy).isNaN = false := by
  rcases round_cases mantissa exponent accuracy with h | ⟨_, h⟩ <;> rw [h] <;> rfl

theorem isNaN_normalized (mantissa exponent : Int) (sign : Sign) :
    (UnpackedFloat.normalize .binary64 mantissa exponent sign).isNaN = false := by
  simp only [UnpackedFloat.normalize]
  split
  · exact isNaN_rounded _ _ _ _
  · rfl
  · exact isNaN_rounded _ _ _ _

/-- Two finite numbers have a number as the result of an operation. -/
def Defines (operation : UnpackedFloat → UnpackedFloat → UnpackedFloat) : Prop :=
  ∀ left right, left.isFinite = true → right.isFinite = true → (operation left right).isNaN = false

theorem defines_add : Defines (UnpackedFloat.add .binary64) := by
  intro left right hleft hright
  rcases cases_of_isFinite hleft with ⟨sign, rfl⟩ | ⟨sign, _, _, _, rfl⟩ <;>
    rcases cases_of_isFinite hright with ⟨sign', rfl⟩ | ⟨sign', _, _, _, rfl⟩
  · cases sign <;> cases sign' <;> rfl
  · rfl
  · rfl
  · exact isNaN_normalized _ _ _

theorem defines_sub : Defines (UnpackedFloat.sub .binary64) := by
  intro left right hleft hright
  rcases cases_of_isFinite hleft with ⟨sign, rfl⟩ | ⟨sign, _, _, _, rfl⟩ <;>
    rcases cases_of_isFinite hright with ⟨sign', rfl⟩ | ⟨sign', _, _, _, rfl⟩
  · cases sign <;> cases sign' <;> rfl
  · rfl
  · rfl
  · exact isNaN_normalized _ _ _

theorem defines_mul : Defines (UnpackedFloat.mul .binary64) := by
  intro left right hleft hright
  rcases cases_of_isFinite hleft with ⟨sign, rfl⟩ | ⟨sign, _, _, _, rfl⟩ <;>
    rcases cases_of_isFinite hright with ⟨sign', rfl⟩ | ⟨sign', _, _, _, rfl⟩
  · rfl
  · rfl
  · rfl
  · exact isNaN_rounded _ _ _ _

theorem isNaN_div_unpacked (hleft : left.isFinite = true) (hright : right.isFinite = true)
    (nonzero : ∀ sign, right ≠ .zero sign) :
    (UnpackedFloat.div .binary64 left right).isNaN = false := by
  rcases cases_of_isFinite hright with ⟨sign', rfl⟩ | ⟨sign', _, _, _, rfl⟩
  · exact absurd rfl (nonzero sign')
  · rcases cases_of_isFinite hleft with ⟨sign, rfl⟩ | ⟨sign, _, _, _, rfl⟩
    · rfl
    · exact isNaN_rounded _ _ _ _

end Results

variable {x y : Float}

theorem isNaN_add (hx : x.isFinite = true) (hy : y.isFinite = true) : (x + y).isNaN = false :=
  isNaN_packed (defines_add _ _ hx hy)

theorem isNaN_sub (hx : x.isFinite = true) (hy : y.isFinite = true) : (x - y).isNaN = false :=
  isNaN_packed (defines_sub _ _ hx hy)

theorem isNaN_mul (hx : x.isFinite = true) (hy : y.isFinite = true) : (x * y).isNaN = false :=
  isNaN_packed (defines_mul _ _ hx hy)

theorem isNaN_div (hx : x.isFinite = true) (hy : y.isFinite = true) (nonzero : (y == 0) = false) :
    (x / y).isNaN = false := by
  refine isNaN_packed (isNaN_div_unpacked hx hy fun sign hsign => ?_)
  have hzero := mem_zeros_iff_beq.mp (mem_zeros_of_unpack hsign)
  rw [nonzero] at hzero
  exact absurd hzero (by decide)

theorem isNaN_sqrt (hx : x.isFinite = true) (nonnegative : 0 ≤ x) : x.sqrt.isNaN = false := by
  have hzero : (0 : Float).toModel.unpack = .zero .positive := rfl
  rw [le_iff_compare, hzero] at nonnegative
  show (packed (UnpackedFloat.sqrt .binary64 x.toModel.unpack)).isNaN = false
  refine isNaN_packed ?_
  rcases cases_of_isFinite hx with ⟨sign, hvalue⟩ | ⟨sign, _, _, _, hvalue⟩ <;>
    rw [hvalue] at nonnegative ⊢
  · rfl
  · cases sign with
    | positive => exact isNaN_rounded _ _ _ _
    | negative => cases nonnegative

theorem isInf_of_not_isFinite (hnumber : x.isNaN = false) (h : x.isFinite = false) :
    x.isInf = true := by
  change x.toModel.unpack.isNaN = false at hnumber
  change x.toModel.unpack.isFinite = false at h
  show x.toModel.unpack.isInf = true
  generalize x.toModel.unpack = value at *
  cases value with
  | infinity => rfl
  | notANumber => cases hnumber
  | zero | finite => cases h

section Comparison

theorem compare_swap {left right : UnpackedFloat} (hleft : left.isFinite = true)
    (hright : right.isFinite = true) :
    ∃ ordering, left.compare right = some ordering ∧ right.compare left = some ordering.swap := by
  rcases cases_of_isFinite hleft with ⟨sign, rfl⟩ | ⟨sign, m, e, _, rfl⟩ <;>
    rcases cases_of_isFinite hright with ⟨sign', rfl⟩ | ⟨sign', m', e', _, rfl⟩
  · exact ⟨_, rfl, rfl⟩
  · cases sign' <;> exact ⟨_, rfl, rfl⟩
  · cases sign <;> exact ⟨_, rfl, rfl⟩
  · have hsizes : ((compare e e').then (compare m m')).swap =
        (compare e' e).then (compare m' m) := by
      rw [Ordering.swap_then, Int.compare_swap, Nat.compare_swap]
    cases sign <;> cases sign' <;> refine ⟨_, rfl, ?_⟩
    · exact congrArg (some ·.swap) hsizes.symm
    · rfl
    · rfl
    · exact congrArg some hsizes.symm

theorem lt_or_le (hx : x.isFinite = true) (hy : y.isFinite = true) : x < y ∨ y ≤ x := by
  obtain ⟨ordering, hxy, hyx⟩ := compare_swap hx hy
  rw [lt_iff_compare, le_iff_compare, hxy, hyx]
  cases ordering <;> simp

end Comparison

end Magnitude
end Calculator
