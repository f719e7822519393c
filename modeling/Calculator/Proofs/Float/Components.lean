import Calculator.Proofs.Number.Powers

/-!
The bits of a double.

Eleven bits hold the exponent, the 52 below them the fraction and the one above them the sign. The
double is finite unless the exponent has all its bits set. So the finite doubles without their sign
are the numbers below the bits of infinity, and each is the double that its bits spell.
-/

namespace Calculator
namespace Magnitude

open Float.Model Float.Model.UnpackedFloat

variable {bits : BitVec 64}

theorem toNat_exponent :
    (@unpackExponent .binary64 bits).toNat = bits.toNat / 2 ^ 52 % 2 ^ 11 := by
  simp [unpackExponent, BitVec.extractLsb_toNat, Nat.shiftRight_eq_div_pow]

theorem toNat_fraction :
    (@unpackMantissa .binary64 bits).toNat = bits.toNat % 2 ^ 52 := by
  simp [unpackMantissa, BitVec.extractLsb_toNat]

theorem toNat_sign :
    (@unpackSign .binary64 bits).toNat = bits.toNat / 2 ^ 63 := by
  have hbits : bits.toNat < 2 ^ 64 := bits.isLt
  have hslice : @unpackSign .binary64 bits = bits.extractLsb 63 63 := rfl
  rw [hslice, BitVec.extractLsb_toNat, Nat.shiftRight_eq_div_pow]
  omega

theorem toNat_components (sign : Sign) (exponent : BitVec 11) (fraction : BitVec 52) :
    (packComponents .binary64 sign exponent fraction).toNat =
      sign.toBitVec.toNat * 2 ^ 63 + exponent.toNat * 2 ^ 52 + fraction.toNat := by
  have hexponent := exponent.isLt
  have hfraction := fraction.isLt
  simp only [packComponents, BitVec.toNat_append]
  rw [← Nat.shiftLeft_add_eq_or_of_lt hfraction, ← Nat.shiftLeft_add_eq_or_of_lt hexponent]
  simp only [Nat.shiftLeft_eq]
  omega

theorem toBitVec_ofBitVec (bit : BitVec 1) : (Sign.ofBitVec bit).toBitVec = bit := by
  revert bit
  decide

theorem ofBitVec_toBitVec (sign : Sign) : Sign.ofBitVec sign.toBitVec = sign := by
  cases sign <;> rfl

theorem components_of_bits :
    packComponents .binary64 (Sign.ofBitVec (@unpackSign .binary64 bits))
      (@unpackExponent .binary64 bits) (@unpackMantissa .binary64 bits) = bits := by
  have hbits : bits.toNat < 2 ^ 64 := bits.isLt
  apply BitVec.eq_of_toNat_eq
  rw [toNat_components, toBitVec_ofBitVec, toNat_sign, toNat_exponent, toNat_fraction]
  omega

theorem toNat_implicit (fraction : BitVec 52) :
    (1#1 ++ fraction).toNat = 2 ^ 52 + fraction.toNat := by
  rw [BitVec.toNat_append, ← Nat.shiftLeft_add_eq_or_of_lt fraction.isLt]
  rfl

theorem log2_eq_of_lt {n k : Nat} (hlow : 2 ^ k ≤ n) (hhigh : n < 2 ^ (k + 1)) : n.log2 = k := by
  have hne : n ≠ 0 := by
    have := Nat.two_pow_pos k
    omega
  rw [Nat.log2_eq_iff hne]
  exact ⟨hlow, hhigh⟩

/-- What a double with this sign, exponent and fraction stands for. -/
inductive StandsFor (sign : Sign) (exponent fraction : Nat) : UnpackedFloat → Prop where
  | infinity (all : exponent = 2047) (none : fraction = 0) :
    StandsFor sign exponent fraction (.infinity sign)
  | notANumber (all : exponent = 2047) (some : fraction ≠ 0) :
    StandsFor sign exponent fraction .notANumber
  | zero (least : exponent = 0) (none : fraction = 0) :
    StandsFor sign exponent fraction (.zero sign)
  | subnormal (least : exponent = 0) (positive : 0 < fraction) :
    StandsFor sign exponent fraction (.finite sign fraction (-1074) positive)
  | normal (more : exponent ≠ 0) (fewer : exponent ≠ 2047) (positive : 0 < 2 ^ 52 + fraction) :
    StandsFor sign exponent fraction (.finite sign (2 ^ 52 + fraction) (exponent - 1075) positive)

theorem StandsFor.unique {sign : Sign} {exponent fraction : Nat} {value other : UnpackedFloat}
    (h : StandsFor sign exponent fraction value) (hother : StandsFor sign exponent fraction other) :
    value = other := by
  cases h <;> cases hother <;> first | rfl | omega

theorem StandsFor.neg {sign : Sign} {exponent fraction : Nat} {value : UnpackedFloat}
    (h : StandsFor sign exponent fraction value) :
    StandsFor (-sign) exponent fraction value.neg := by
  cases h with
  | infinity all none => exact .infinity all none
  | notANumber all some => exact .notANumber all some
  | zero least none => exact .zero least none
  | subnormal least positive => exact .subnormal least positive
  | normal more fewer positive => exact .normal more fewer positive

theorem finite_congr {sign : Sign} {mantissa mantissa' : Nat} {exponent exponent' : Int}
    (positive : 0 < mantissa) (positive' : 0 < mantissa') (hmantissa : mantissa = mantissa')
    (hexponent : exponent = exponent') :
    UnpackedFloat.finite sign mantissa exponent positive =
      .finite sign mantissa' exponent' positive' := by
  subst hmantissa hexponent
  rfl

theorem standsFor_unpack (bits : BitVec 64) :
    StandsFor (Sign.ofBitVec (@unpackSign .binary64 bits)) (@unpackExponent .binary64 bits).toNat
      (@unpackMantissa .binary64 bits).toNat (UnpackedFloat.unpack .binary64 bits) := by
  have himplicit := toNat_implicit (@unpackMantissa .binary64 bits)
  by_cases hall : @unpackExponent .binary64 bits = -1#11
  · by_cases hnone : @unpackMantissa .binary64 bits = 0#52
    · have hvalue : UnpackedFloat.unpack .binary64 bits = .infinity _ :=
        (if_pos hall).trans (if_pos hnone)
      rw [hvalue]
      exact .infinity (congrArg BitVec.toNat hall) (congrArg BitVec.toNat hnone)
    · have hvalue : UnpackedFloat.unpack .binary64 bits = .notANumber :=
        (if_pos hall).trans (if_neg hnone)
      rw [hvalue]
      exact .notANumber (congrArg BitVec.toNat hall) fun h => hnone (BitVec.eq_of_toNat_eq h)
  · by_cases hleast : @unpackExponent .binary64 bits = 0#11
    · have hexponent := congrArg BitVec.toNat hleast
      by_cases hnone : @unpackMantissa .binary64 bits = 0#52
      · have hvalue : UnpackedFloat.unpack .binary64 bits = .zero _ :=
          (if_neg hall).trans ((if_pos hleast).trans (dif_pos hnone))
        rw [hvalue]
        exact .zero hexponent (congrArg BitVec.toNat hnone)
      · have hvalue : UnpackedFloat.unpack .binary64 bits = .finite _ _ _ _ :=
          (if_neg hall).trans ((if_pos hleast).trans (dif_neg hnone))
        rw [hvalue, finite_congr _ (BitVec.toNat_pos_of_ne_zero hnone) rfl (by rw [hleast])]
        exact .subnormal hexponent _
    · have hvalue : UnpackedFloat.unpack .binary64 bits = .finite _ _ _ _ :=
        (if_neg hall).trans (if_neg hleast)
      rw [hvalue, finite_congr _ (by omega) himplicit rfl]
      exact .normal (fun h => hleast (BitVec.eq_of_toNat_eq h))
        (fun h => hall (BitVec.eq_of_toNat_eq h)) _

theorem pack_notANumber : UnpackedFloat.pack .binary64 .notANumber = packedNaN .binary64 := rfl

theorem pack_infinity (sign : Sign) :
    UnpackedFloat.pack .binary64 (.infinity sign) = packedInfinity .binary64 sign := rfl

theorem pack_zero (sign : Sign) :
    UnpackedFloat.pack .binary64 (.zero sign) = packedZero .binary64 sign := rfl

theorem pack_finite (sign : Sign) (significand : Nat) (exponent : Int)
    (positive : 0 < significand) :
    UnpackedFloat.pack .binary64 (.finite sign significand exponent positive) =
      if 2 ^ 11 ≤ (exponent + (1023 : Nat) + (52 : Nat)).toNat + 1 then
        packedInfinity .binary64 sign
      else if significand.log2 + 1 = 53 then
        packComponents .binary64 sign (BitVec.ofNat 11 (exponent + (1023 : Nat) + (52 : Nat)).toNat)
          (BitVec.ofNat 52 significand)
      else packComponents .binary64 sign 0 (BitVec.ofNat 52 significand) := rfl

theorem pack_subnormal (sign : Sign) {significand : Nat} (positive : 0 < significand)
    (h : significand < 2 ^ 52) :
    UnpackedFloat.pack .binary64 (.finite sign significand (-1074) positive) =
      packComponents .binary64 sign 0 (BitVec.ofNat 52 significand) := by
  have hlog := (Nat.log2_lt (Nat.ne_of_gt positive)).mpr h
  rw [pack_finite, if_neg (by decide), if_neg (by omega)]

theorem pack_normal (sign : Sign) {significand : Nat} {exponent : Int} (biased : Nat)
    (positive : 0 < significand) (hlow : 2 ^ 52 ≤ significand) (hhigh : significand < 2 ^ 53)
    (hbiased : exponent + 1075 = biased) (h : biased < 2047) :
    UnpackedFloat.pack .binary64 (.finite sign significand exponent positive) =
      packComponents .binary64 sign (BitVec.ofNat 11 biased) (BitVec.ofNat 52 significand) := by
  have hexponent : (exponent + (1023 : Nat) + (52 : Nat)).toNat = biased := by omega
  rw [pack_finite, hexponent, if_neg (by omega), if_pos (by rw [log2_eq_of_lt hlow hhigh])]

/-- Unpacking bits and packing the result gives the bits back, unless they are some other NaN than
the one that stands for all of them. -/
theorem pack_unpack (valid : Format.binary64.Valid bits) :
    UnpackedFloat.pack .binary64 (UnpackedFloat.unpack .binary64 bits) = bits := by
  have hexponent : (@unpackExponent .binary64 bits).toNat < 2 ^ 11 := BitVec.isLt _
  have hfraction : (@unpackMantissa .binary64 bits).toNat < 2 ^ 52 := BitVec.isLt _
  refine Eq.trans ?_ components_of_bits
  have stands := standsFor_unpack bits
  generalize UnpackedFloat.unpack .binary64 bits = value at stands ⊢
  cases stands with
  | infinity all none =>
      have hall : @unpackExponent .binary64 bits = -1#11 := BitVec.eq_of_toNat_eq all
      have hnone : @unpackMantissa .binary64 bits = 0#52 := BitVec.eq_of_toNat_eq none
      rw [pack_infinity, packedInfinity, hall, hnone]
      rfl
  | notANumber all some =>
      rw [pack_notANumber, components_of_bits]
      exact (valid.eq_packedNaN (BitVec.eq_of_toNat_eq all) fun h =>
        some (congrArg BitVec.toNat h)).symm
  | zero least none =>
      have hleast : @unpackExponent .binary64 bits = 0#11 := BitVec.eq_of_toNat_eq least
      have hnone : @unpackMantissa .binary64 bits = 0#52 := BitVec.eq_of_toNat_eq none
      rw [pack_zero, packedZero, hleast, hnone]
      rfl
  | subnormal least positive =>
      have hleast : @unpackExponent .binary64 bits = 0#11 := BitVec.eq_of_toNat_eq least
      rw [pack_subnormal _ _ hfraction, BitVec.ofNat_toNat, BitVec.setWidth_eq, hleast]
      rfl
  | normal more fewer positive =>
      rw [pack_normal _ (@unpackExponent .binary64 bits).toNat _ (by omega) (by omega) (by omega)
        (by omega), BitVec.ofNat_toNat, BitVec.setWidth_eq]
      congr 1
      apply BitVec.eq_of_toNat_eq
      rw [BitVec.toNat_ofNat]
      omega

theorem cases_of_isFinite {value : UnpackedFloat} (h : value.isFinite = true) :
    (∃ sign, value = .zero sign) ∨
      ∃ sign significand exponent positive, value = .finite sign significand exponent positive := by
  cases value with
  | infinity | notANumber => cases h
  | zero sign => exact .inl ⟨sign, rfl⟩
  | finite sign significand exponent positive =>
      exact .inr ⟨sign, significand, exponent, positive, rfl⟩

theorem isFinite_unpack :
    (UnpackedFloat.unpack .binary64 bits).isFinite = true ↔
      (@unpackExponent .binary64 bits).toNat ≠ 2047 := by
  have stands := standsFor_unpack bits
  generalize UnpackedFloat.unpack .binary64 bits = value at stands ⊢
  cases stands with
  | infinity all | notANumber all => exact iff_of_false Bool.false_ne_true fun h => h all
  | zero least | subnormal least => exact iff_of_true rfl (by omega)
  | normal _ fewer => exact iff_of_true rfl fewer

theorem valid_of_exponent (h : (@unpackExponent .binary64 bits).toNat ≠ 2047) :
    Format.binary64.Valid bits :=
  ⟨fun hinfinite _ => absurd (congrArg BitVec.toNat hinfinite) h⟩

theorem float_ext {x y : Float} (h : x.toBits.toNat = y.toBits.toNat) : x = y := by
  obtain ⟨⟨xBits, _⟩⟩ := x
  obtain ⟨⟨yBits, _⟩⟩ := y
  obtain rfl : xBits = yBits := UInt64.toNat_inj.mp h
  rfl

theorem isFinite_iff {value : Float} : value.isFinite = true ↔ ofFloat value < infinity := by
  have hbits : value.toBits.toNat < 2 ^ 64 := value.toBits.toBitVec.isLt
  refine Iff.trans isFinite_unpack ?_
  rw [toNat_exponent]
  show value.toBits.toNat / 2 ^ 52 % 2 ^ 11 ≠ 2047 ↔ value.toBits.toNat % 2 ^ 63 < 2047 * 2 ^ 52
  omega

theorem toBits_toFloat {index : Nat} (h : index < infinity) :
    (toFloat index).toBits.toNat = index := by
  have hbits : index.toUInt64.toNat = index := by
    rw [Nat.toUInt64_eq, UInt64.toNat_ofNat']
    simp only [infinity_eq] at h
    omega
  have hvalid : Format.binary64.Valid index.toUInt64.toBitVec := by
    refine valid_of_exponent ?_
    rw [toNat_exponent]
    show index.toUInt64.toNat / 2 ^ 52 % 2 ^ 11 ≠ 2047
    rw [hbits]
    simp only [infinity_eq] at h
    omega
  have hpack := congrArg BitVec.toNat (pack_unpack hvalid)
  exact hpack.trans hbits

theorem standsFor_toFloat {index : Nat} (h : index < infinity) :
    StandsFor .positive (index / 2 ^ 52) (index % 2 ^ 52) (toFloat index).toModel.unpack := by
  have hbits := toBits_toFloat h
  have stands := standsFor_unpack (toFloat index).toBits.toBitVec
  have hsign : @unpackSign .binary64 (toFloat index).toBits.toBitVec = 0#1 := by
    apply BitVec.eq_of_toNat_eq
    rw [toNat_sign]
    show (toFloat index).toBits.toNat / 2 ^ 63 = 0
    rw [hbits]
    simp only [infinity_eq] at h
    omega
  have hexponent : (toFloat index).toBits.toBitVec.toNat / 2 ^ 52 % 2 ^ 11 = index / 2 ^ 52 := by
    show (toFloat index).toBits.toNat / 2 ^ 52 % 2 ^ 11 = index / 2 ^ 52
    rw [hbits]
    simp only [infinity_eq] at h
    omega
  have hfraction : (toFloat index).toBits.toBitVec.toNat % 2 ^ 52 = index % 2 ^ 52 :=
    congrArg (· % 2 ^ 52) hbits
  rw [hsign, toNat_exponent, toNat_fraction, hexponent, hfraction] at stands
  exact stands

theorem ofFloat_toFloat {index : Nat} (h : index < infinity) : ofFloat (toFloat index) = index := by
  rw [ofFloat_eq, toBits_toFloat h]
  simp only [infinity_eq] at h
  omega

theorem sign_of_components (sign : Sign) (exponent : BitVec 11) (fraction : BitVec 52) :
    Sign.ofBitVec (@unpackSign .binary64 (packComponents .binary64 sign exponent fraction)) =
      sign := by
  have hsign : @unpackSign .binary64 (packComponents .binary64 sign exponent fraction) =
      sign.toBitVec := by
    have hexponent := exponent.isLt
    have hfraction := fraction.isLt
    apply BitVec.eq_of_toNat_eq
    rw [toNat_sign, toNat_components]
    omega
  rw [hsign, ofBitVec_toBitVec]

/-- The bits with the sign turned round. -/
def oppositeBits (bits : BitVec 64) : BitVec 64 :=
  packComponents .binary64 (-Sign.ofBitVec (@unpackSign .binary64 bits))
    (@unpackExponent .binary64 bits) (@unpackMantissa .binary64 bits)

theorem toNat_oppositeBits :
    (oppositeBits bits).toNat = (bits.toNat + 2 ^ 63) % 2 ^ 64 := by
  have hbits : bits.toNat < 2 ^ 64 := bits.isLt
  have hflip : ∀ bit : BitVec 1, (-Sign.ofBitVec bit).toBitVec.toNat = 1 - bit.toNat := by decide
  rw [oppositeBits, toNat_components, hflip, toNat_sign, toNat_exponent, toNat_fraction]
  omega

theorem unpack_oppositeBits :
    UnpackedFloat.unpack .binary64 (oppositeBits bits) =
      (UnpackedFloat.unpack .binary64 bits).neg := by
  have stands := standsFor_unpack (oppositeBits bits)
  rw [oppositeBits, sign_of_components, unpackExponent_packComponents,
    unpackMantissa_packComponents] at stands
  exact stands.unique (standsFor_unpack bits).neg

theorem toBits_neg {value : Float} (h : value.isFinite = true) :
    (-value).toBits.toNat = (value.toBits.toNat + 2 ^ 63) % 2 ^ 64 := by
  have hexponent := isFinite_unpack.mp h
  have hvalid : Format.binary64.Valid (oppositeBits value.toBits.toBitVec) := by
    refine valid_of_exponent ?_
    rw [oppositeBits, unpackExponent_packComponents]
    exact hexponent
  have hpack := pack_unpack hvalid
  rw [unpack_oppositeBits] at hpack
  exact (congrArg BitVec.toNat hpack).trans toNat_oppositeBits

theorem isFinite_neg {value : Float} (h : value.isFinite = true) : (-value).isFinite = true := by
  have hbits : value.toBits.toNat < 2 ^ 64 := value.toBits.toBitVec.isLt
  rw [isFinite_iff, ofFloat_eq] at h ⊢
  rw [toBits_neg (isFinite_iff.mpr h)]
  omega

end Magnitude
end Calculator
