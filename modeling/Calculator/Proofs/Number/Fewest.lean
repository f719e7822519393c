import Calculator.Proofs.Number.Notation

/-!
The shortest decimal has the fewest digits.

Dropping digits from the exact value of a double leaves the two neighbours of this value on a
coarser grid, and no decimal with as few digits lies between them. The decimals that read as a
double have no gaps. So if neither neighbour reads as it then no decimal with as few digits does,
and if one does then none is nearer. Digits are dropped for as long as possible, and no others are
left but zeros at the end.
-/

namespace Calculator
namespace Magnitude

open Float.Model

theorem size_neg (value : UnpackedFloat) : size value.neg = size value := by
  cases value <;> rfl

/-- The size of a finite double is the number at its index. -/
theorem size_eq {value : Float} (finite : value.isFinite = true) :
    size value.toModel.unpack = number (ofFloat value) := by
  have hindex := isFinite_iff.mp finite
  rw [← size_toFloat hindex]
  rcases eq_toFloat_or_neg finite with heq | heq
  · exact congrArg (fun value : Float => size value.toModel.unpack) heq
  · refine (congrArg (fun value : Float => size value.toModel.unpack) heq).trans ?_
    rw [unpack_neg (isFinite_toFloat hindex), size_neg]

end Magnitude

namespace Decimal

open Magnitude

/-- One decimal is nearer to a number than another one, or as near and not below it. -/
def Precedes (exact : ℚ) (decimal other : Decimal) : Prop :=
  |decimal.number - exact| < |other.number - exact| ∨
    (|decimal.number - exact| = |other.number - exact| ∧ other.number ≤ decimal.number)

/-- A decimal reads as the absolute value of a double. -/
def Reads (value : Float) (decimal : Decimal) : Prop :=
  IsRounded decimal.number value.abs

/-- A decimal without zeros at the end has the fewest digits that read as the absolute value of a
double, and among the decimals with as many digits it is the nearest one. -/
structure IsShortest (value : Float) (decimal : Decimal) : Prop where
  reads : decimal.Reads value
  trimmed : decimal.coefficient % 10 ≠ 0
  fewest : ∀ other : Decimal, other.Reads value → decimal.digits.length ≤ other.digits.length
  nearest : ∀ other : Decimal, other.Reads value → other.digits.length = decimal.digits.length →
    decimal.Precedes (size value.toModel.unpack) other

variable {decimal other : Decimal} {index dropped : Nat}

section Grid

/-- A decimal counted at a lower place. -/
theorem number_at_place {exponent : Int} {places : Nat}
    (h : decimal.exponent = exponent + places) :
    decimal.number = (decimal.coefficient * 10 ^ places : Nat) * 10 ^ exponent := by
  rw [number, h, zpow_add₀ (by decide), zpow_natCast]
  push_cast
  ring

theorem number_floor (decimal : Decimal) (dropped : Nat) :
    (decimal.floor dropped).number =
      (decimal.coefficient / 10 ^ dropped : Nat) * 10 ^ (decimal.exponent + dropped) := rfl

theorem number_above (decimal : Decimal) (dropped : Nat) :
    (decimal.above dropped).number =
      (decimal.coefficient / 10 ^ dropped + 1 : Nat) * 10 ^ (decimal.exponent + dropped) := rfl

/-- What was dropped, and what is missing to the next place. -/
theorem number_eq_floor_add (decimal : Decimal) (dropped : Nat) :
    decimal.number = (decimal.floor dropped).number +
        (decimal.coefficient % 10 ^ dropped : Nat) * 10 ^ decimal.exponent ∧
      (decimal.above dropped).number =
        (decimal.floor dropped).number + (10 ^ dropped : Nat) * 10 ^ decimal.exponent := by
  have hdivision : (decimal.coefficient : ℚ) =
      (10 ^ dropped * (decimal.coefficient / 10 ^ dropped) + decimal.coefficient % 10 ^ dropped :
        Nat) := by
    exact_mod_cast (Nat.div_add_mod _ _).symm
  rw [number_above, number_floor, zpow_add₀ (by decide), zpow_natCast, number, hdivision]
  push_cast
  constructor <;> ring

theorem floor_le (decimal : Decimal) (dropped : Nat) :
    (decimal.floor dropped).number ≤ decimal.number := by
  rw [(decimal.number_eq_floor_add dropped).1]
  exact le_add_of_nonneg_right (by positivity)

theorem lt_above (decimal : Decimal) (dropped : Nat) :
    decimal.number < (decimal.above dropped).number := by
  have hrest : ((decimal.coefficient % 10 ^ dropped : Nat) : ℚ) < (10 ^ dropped : Nat) := by
    exact_mod_cast Nat.mod_lt _ (Nat.pow_pos (by decide))
  obtain ⟨hnumber, habove⟩ := decimal.number_eq_floor_add dropped
  rw [habove, hnumber]
  gcongr

/-- The place above is the nearer one if at least half of it was dropped. -/
theorem above_nearer_iff (decimal : Decimal) (dropped : Nat) :
    (decimal.floor dropped).number + (decimal.above dropped).number ≤ 2 * decimal.number ↔
      10 ^ dropped ≤ 2 * (decimal.coefficient % 10 ^ dropped) := by
  obtain ⟨hnumber, habove⟩ := decimal.number_eq_floor_add dropped
  have hscale : (0 : ℚ) < 10 ^ decimal.exponent := by positivity
  have hdouble : (10 ^ dropped ≤ 2 * (decimal.coefficient % 10 ^ dropped)) ↔
      ((10 ^ dropped : Nat) : ℚ) * 10 ^ decimal.exponent ≤
        2 * (decimal.coefficient % 10 ^ dropped : Nat) * 10 ^ decimal.exponent := by
    rw [mul_le_mul_iff_left₀ hscale]
    exact_mod_cast Iff.rfl
  rw [hdouble, habove, hnumber]
  constructor <;> intro h <;> linarith

/-- No decimal with as few digits lies between the neighbours. -/
theorem le_floor_or_above_le (hcoefficient : decimal.coefficient ≠ 0)
    (h : other.digits.length + dropped ≤ decimal.digits.length) :
    other.number ≤ (decimal.floor dropped).number ∨
      (decimal.above dropped).number ≤ other.number := by
  rcases le_or_gt (decimal.exponent + dropped) other.exponent with hcoarse | hfine
  · -- The other decimal is on the same grid.
    obtain ⟨places, hplaces⟩ := Int.le.dest hcoarse
    rw [number_at_place hplaces.symm, number_floor, number_above]
    rcases le_or_gt (other.coefficient * 10 ^ places) (decimal.coefficient / 10 ^ dropped)
      with hle | hlt
    · left
      gcongr
    · right
      gcongr
      exact hlt
  · -- It has its first digit behind that of the lower neighbour.
    left
    have hlength := other.length_digits_pos
    have hfirst : 10 ^ (decimal.digits.length - 1 - dropped) ≤
        decimal.coefficient / 10 ^ dropped := by
      rw [Nat.le_div_iff_mul_le (Nat.pow_pos (by decide)), ← Nat.pow_add,
        Nat.sub_add_cancel (by omega)]
      exact le_coefficient hcoefficient
    have hpower : (decimal.digits.length - 1 - dropped : Nat) + (decimal.exponent + dropped) =
        decimal.point - 1 := by
      rw [point_eq]
      omega
    calc other.number ≤ 10 ^ other.point := other.number_lt.le
      _ ≤ 10 ^ (decimal.point - 1) := by
        rw [zpow_le_zpow_iff_right₀ (by decide), point_eq, point_eq]
        omega
      _ = (10 ^ (decimal.digits.length - 1 - dropped) : Nat) *
          10 ^ (decimal.exponent + dropped) := by
        rw [← hpower, zpow_add₀ (by decide), zpow_natCast, Nat.cast_pow]
        rfl
      _ ≤ (decimal.floor dropped).number := by
        rw [number_floor]
        gcongr

end Grid

section Coarse

/-- Between two decimals that read as a double every decimal does. -/
theorem magnitude_between {low high : Decimal} (hlow : low.magnitude = index)
    (hhigh : high.magnitude = index) (hle : low.number ≤ decimal.number)
    (hge : decimal.number ≤ high.number) : decimal.magnitude = index :=
  Nat.le_antisymm (hhigh ▸ magnitude_mono hge) (hlow ▸ magnitude_mono hle)

section Precedence

variable {exact : ℚ}

theorem precedes_of_ge (h : other.number ≤ decimal.number)
    (hmiddle : other.number + decimal.number ≤ 2 * exact) : decimal.Precedes exact other := by
  rcases h.eq_or_lt with heq | hlt
  · exact .inr ⟨by rw [heq], h⟩
  · rcases ((upper_nearer_iff hlt).mpr hmiddle).lt_or_eq with hnearer | hequal
    · exact .inl hnearer
    · exact .inr ⟨hequal, h⟩

theorem precedes_of_lt (h : decimal.number < other.number)
    (hmiddle : 2 * exact < decimal.number + other.number) : decimal.Precedes exact other :=
  .inl (lt_of_not_ge fun hnearer => absurd ((upper_nearer_iff h).mp hnearer) (not_le.mpr hmiddle))

theorem precedes_of_le (hexact : exact ≤ decimal.number) (h : decimal.number ≤ other.number) :
    decimal.Precedes exact other := by
  rcases h.eq_or_lt with heq | hlt
  · exact .inr ⟨by rw [heq], heq.ge⟩
  · exact precedes_of_lt hlt (by linarith)

end Precedence

/-- What is left by dropping digits comes before every decimal with as few digits. -/
theorem precedes_of_coarsen {coarse : Decimal} (hreads : decimal.magnitude = index)
    (hcoefficient : decimal.coefficient ≠ 0)
    (hcoarse : decimal.coarsen? index dropped = some coarse) (hother : other.magnitude = index)
    (h : other.digits.length + dropped ≤ decimal.digits.length) :
    coarse.Precedes decimal.number other := by
  have hfloor := decimal.floor_le dropped
  have habove := decimal.lt_above dropped
  have hmiddle := decimal.above_nearer_iff dropped
  have hsides := le_floor_or_above_le hcoefficient h
  simp only [coarsen?, Nat.pow_eq] at hcoarse
  split at hcoarse
  · split at hcoarse
    · rename_i hupwards
      obtain rfl := Option.some.inj hcoarse
      have hhalf := hmiddle.mpr hupwards.2
      rcases hsides with hlow | hhigh
      · exact precedes_of_ge (by linarith) (by linarith)
      · exact precedes_of_le habove.le hhigh
    · rename_i hdownwards
      obtain rfl := Option.some.inj hcoarse
      rcases hsides with hlow | hhigh
      · exact precedes_of_ge hlow (by linarith)
      · have hread := magnitude_between hreads hother habove.le hhigh
        have hhalf := lt_of_not_ge fun hhalf => hdownwards ⟨hread, hmiddle.mp hhalf⟩
        exact precedes_of_lt (by linarith) (by linarith)
  · rename_i hfloorReads
    split at hcoarse
    · obtain rfl := Option.some.inj hcoarse
      rcases hsides with hlow | hhigh
      · exact absurd (magnitude_between hother hreads hlow hfloor) hfloorReads
      · exact precedes_of_le habove.le hhigh
    · simp at hcoarse

/-- If digits cannot be dropped, no decimal with as few digits reads as the double. -/
theorem length_lt_of_coarsen (hreads : decimal.magnitude = index)
    (hcoefficient : decimal.coefficient ≠ 0) (hnone : decimal.coarsen? index dropped = none)
    (hother : other.magnitude = index) : decimal.digits.length < other.digits.length + dropped := by
  by_contra hlong
  have hneither : (decimal.floor dropped).magnitude ≠ index ∧
      (decimal.above dropped).magnitude ≠ index := by
    constructor
    · intro hfloor
      simp only [coarsen?, if_pos hfloor] at hnone
      split at hnone <;> simp at hnone
    · intro habove
      simp only [coarsen?, habove] at hnone
      split at hnone
      · split at hnone <;> simp at hnone
      · simp at hnone
  rcases le_floor_or_above_le hcoefficient (Nat.le_of_not_lt hlong) with hlow | hhigh
  · exact hneither.1 (magnitude_between hother hreads hlow (decimal.floor_le dropped))
  · exact hneither.2 (magnitude_between hreads hother (decimal.lt_above dropped).le hhigh)

theorem coarsen_zero (hreads : decimal.magnitude = index) :
    decimal.coarsen? index 0 = some decimal := by
  have hfloor : decimal.floor 0 = decimal := by
    simp [floor]
  simp [coarsen?, hfloor, hreads, Nat.mod_one]

/-- As many digits are dropped as can be. -/
theorem exists_last_coarsen (hreads : decimal.magnitude = index) (limit : Nat) :
    ∃ dropped ≤ limit, decimal.coarsen? index dropped = some (decimal.coarsest index limit) ∧
      ∀ further, dropped < further → further ≤ limit → decimal.coarsen? index further = none := by
  induction limit with
  | zero => exact ⟨0, Nat.le_refl _, coarsen_zero hreads, fun further hlow hhigh => by omega⟩
  | succ limit ih =>
      rw [coarsest]
      cases hcoarse : decimal.coarsen? index (limit + 1) with
      | some coarse =>
          exact ⟨limit + 1, Nat.le_refl _, hcoarse, fun further hlow hhigh => by omega⟩
      | none =>
          obtain ⟨dropped, hdropped, hsome, hnone⟩ := ih
          refine ⟨dropped, Nat.le_succ_of_le hdropped, hsome, fun further hlow hhigh => ?_⟩
          rcases Nat.lt_or_eq_of_le hhigh with hlt | rfl
          · exact hnone further hlow (Nat.le_of_lt_succ hlt)
          · exact hcoarse

end Coarse

section Trimmed

theorem number_normalize (decimal : Decimal) : decimal.normalize.number = decimal.number := by
  fun_induction normalize decimal with
  | case1 decimal h ih =>
      have hten : decimal.coefficient / 10 * 10 ^ 1 = decimal.coefficient :=
        Nat.div_mul_cancel (Nat.dvd_of_mod_eq_zero h.2)
      rw [ih, number_at_place rfl, hten]
      rfl
  | case2 => rfl

theorem trimmed_normalize (h : decimal.coefficient ≠ 0) :
    decimal.normalize.coefficient % 10 ≠ 0 := by
  fun_induction normalize decimal with
  | case1 decimal hzero ih => exact ih (by simp only; omega)
  | case2 decimal hzero => exact fun hmod => hzero ⟨h, hmod⟩

theorem coefficient_eq_of_number_eq {zeros : Nat} (h : decimal.number = other.number)
    (hexponent : decimal.exponent = other.exponent + zeros) :
    other.coefficient = decimal.coefficient * 10 ^ zeros := by
  rw [number_at_place hexponent] at h
  exact_mod_cast (mul_right_cancel₀ (by positivity) h).symm

theorem mod_of_zeros (coefficient zeros : Nat) : coefficient * 10 ^ (zeros + 1) % 10 = 0 := by
  rw [Nat.pow_succ, ← Nat.mul_assoc, Nat.mul_mod_left]

/-- Decimals of the same value differ in the zeros at their end. -/
theorem coefficient_of_trimmed (trimmed : decimal.coefficient % 10 ≠ 0)
    (h : decimal.number = other.number) :
    ∃ zeros : Nat, other.coefficient = decimal.coefficient * 10 ^ zeros ∧
      decimal.exponent = other.exponent + zeros := by
  rcases le_or_gt other.exponent decimal.exponent with hle | hgt
  · obtain ⟨zeros, hzeros⟩ := Int.le.dest hle
    exact ⟨zeros, coefficient_eq_of_number_eq h hzeros.symm, hzeros.symm⟩
  · obtain ⟨zeros, hzeros⟩ := Int.lt.dest hgt
    have hcoefficient := coefficient_eq_of_number_eq h.symm hzeros.symm
    exact absurd (by rw [hcoefficient, mod_of_zeros]) trimmed

theorem eq_of_trimmed (trimmed : decimal.coefficient % 10 ≠ 0)
    (trimmed' : other.coefficient % 10 ≠ 0) (h : decimal.number = other.number) :
    decimal = other := by
  obtain ⟨zeros, hcoefficient, hexponent⟩ := coefficient_of_trimmed trimmed h
  cases zeros with
  | zero =>
      obtain ⟨coefficient, exponent⟩ := decimal
      obtain ⟨coefficient', exponent'⟩ := other
      rw [Nat.pow_zero, Nat.mul_one] at hcoefficient
      rw [Decimal.mk.injEq]
      exact ⟨hcoefficient.symm, hexponent.trans (Int.add_zero _)⟩
  | succ zeros => exact absurd (by rw [hcoefficient, mod_of_zeros]) trimmed'

theorem length_le_of_trimmed (trimmed : decimal.coefficient % 10 ≠ 0)
    (h : decimal.number = other.number) : decimal.digits.length ≤ other.digits.length := by
  obtain ⟨zeros, hcoefficient, -⟩ := coefficient_of_trimmed trimmed h
  rw [length_digits_le_iff other.length_digits_pos]
  refine Nat.lt_of_le_of_lt ?_ other.coefficient_lt
  rw [hcoefficient]
  exact Nat.le_mul_of_pos_right _ (Nat.pow_pos (by decide))

end Trimmed

section Exact

theorem number_exact (index : Nat) : (exact index).number = Magnitude.number index := by
  rw [exact_eq, Magnitude.number, units_eq]
  split
  · rename_i hlarge
    obtain ⟨places, hplaces⟩ := Nat.exists_eq_add_of_le hlarge
    rw [number, hplaces, Nat.add_sub_cancel_left, Nat.pow_add, eq_div_iff (by positivity)]
    push_cast
    ring
  · rename_i hsmall
    obtain ⟨places, hplaces⟩ := Nat.exists_eq_add_of_le (Nat.le_of_not_le hsmall)
    rw [number, hplaces, Nat.add_sub_cancel_left, eq_div_iff (by positivity), zpow_neg,
      zpow_natCast, pow_add, ← div_eq_mul_inv, div_mul_eq_mul_div, div_eq_iff (by positivity)]
    have hten : (10 : ℚ) ^ places = 2 ^ places * 5 ^ places := by
      rw [← mul_pow]
      norm_num
    push_cast
    rw [hten]
    ring

theorem coefficient_of_coarsen {coarse : Decimal}
    (hcoarse : decimal.coarsen? index dropped = some coarse) :
    coarse.coefficient ≤ decimal.coefficient / 10 ^ dropped + 1 := by
  simp only [coarsen?] at hcoarse
  split at hcoarse
  · split at hcoarse <;> obtain rfl := Option.some.inj hcoarse
    · exact Nat.le_refl _
    · exact Nat.le_succ _
  · split at hcoarse
    · obtain rfl := Option.some.inj hcoarse
      exact Nat.le_refl _
    · simp at hcoarse

/-- Dropped digits are missing, also if a carry has led to another digit: only zeros follow it. -/
theorem length_of_coarsen {coarse : Decimal} (trimmed : other.coefficient % 10 ≠ 0)
    (hdropped : dropped < decimal.digits.length)
    (hcoarse : decimal.coarsen? index dropped = some coarse) (h : other.number = coarse.number) :
    other.digits.length + dropped ≤ decimal.digits.length := by
  obtain ⟨count, hcount⟩ := Nat.exists_eq_add_of_lt hdropped
  have hquotient : decimal.coefficient / 10 ^ dropped < 10 ^ (count + 1) := by
    rw [Nat.div_lt_iff_lt_mul (Nat.pow_pos (by decide)), ← Nat.pow_add]
    exact decimal.coefficient_lt.trans_eq (congrArg _ (by omega))
  have hcoefficient := coefficient_of_coarsen hcoarse
  rcases Nat.lt_or_eq_of_le (Nat.le_trans hcoefficient hquotient) with hless | hcarry
  · have hlength := (length_digits_le_iff (Nat.succ_pos count)).mpr hless
    have := length_le_of_trimmed trimmed h
    omega
  · have hone : other.number = number ⟨1, coarse.exponent + (count + 1 : Nat)⟩ := by
      rw [h, number, number, hcarry, zpow_add₀ (by decide), zpow_natCast]
      push_cast
      ring
    have hlength : (digits ⟨1, coarse.exponent + (count + 1 : Nat)⟩).length ≤ 1 :=
      (length_digits_le_iff Nat.one_pos).mpr (show 1 < 10 ^ 1 by decide)
    have := length_le_of_trimmed trimmed hone
    omega

/-- Dropping digits, and then the zeros at the end, leaves no decimal that is shorter, and of those
that are as long none that comes first. -/
theorem coarsest_spec {shortest : Decimal} (hreads : decimal.magnitude = index)
    (hnonzero : index ≠ 0)
    (h : shortest = (decimal.coarsest index (decimal.digits.length - 1)).normalize) :
    shortest.coefficient % 10 ≠ 0 ∧ ∀ other : Decimal, other.magnitude = index →
      shortest.digits.length ≤ other.digits.length ∧
        (other.digits.length = shortest.digits.length →
          shortest.Precedes decimal.number other) := by
  have hlength := decimal.length_digits_pos
  have hcoefficient := coefficient_ne_zero_of_reads hreads hnonzero
  obtain ⟨dropped, hdropped, hsome, hnone⟩ :=
    exists_last_coarsen hreads (decimal.digits.length - 1)
  generalize decimal.coarsest index (decimal.digits.length - 1) = coarse at h hsome
  subst h
  have hnumber := number_normalize coarse
  have htrimmed := trimmed_normalize
    (coefficient_ne_zero_of_reads (magnitude_of_coarsen hsome) hnonzero)
  have hfew := length_of_coarsen htrimmed (by omega) hsome hnumber
  refine ⟨htrimmed, fun other hother => ⟨?_, fun hsame => ?_⟩⟩
  · by_contra hless
    have hpos := other.length_digits_pos
    have hlong := length_lt_of_coarsen hreads hcoefficient
      (hnone (dropped + 1) (Nat.lt_succ_self _) (by omega)) hother
    omega
  · rw [Precedes, hnumber]
    exact precedes_of_coarsen hreads hcoefficient hsome hother (by omega)

end Exact

section Value

variable {value : Float}

theorem reads_iff (finite : value.isFinite = true) :
    decimal.Reads value ↔ decimal.magnitude = ofFloat value := by
  rw [Reads, abs_eq finite]
  constructor
  · rintro ⟨index, hrounds, hvalue⟩
    rw [← decimal.roundsTo_magnitude.unique hrounds] at hvalue
    exact (index_eq_of_toFloat (isFinite_iff.mp finite) decimal.roundsTo_magnitude.inRange
      hvalue).symm
  · intro hreads
    exact ⟨_, decimal.roundsTo_magnitude, by rw [hreads]⟩

theorem isShortest_shortest (finite : value.isFinite = true) (nonzero : ofFloat value ≠ 0) :
    IsShortest value (shortest (ofFloat value)) := by
  have hindex := isFinite_iff.mp finite
  obtain ⟨htrimmed, hbest⟩ := coarsest_spec (magnitude_exact hindex) nonzero
    (show shortest (ofFloat value) = _ from rfl)
  rw [number_exact, ← size_eq finite] at hbest
  refine ⟨(reads_iff finite).mpr (magnitude_shortest hindex), htrimmed, ?_, ?_⟩
  · exact fun other hother => (hbest other ((reads_iff finite).mp hother)).1
  · exact fun other hother => (hbest other ((reads_iff finite).mp hother)).2

theorem Precedes.number_eq {exact : ℚ} (h : decimal.Precedes exact other)
    (hother : other.Precedes exact decimal) : decimal.number = other.number := by
  rcases h with hlt | ⟨heq, hle⟩ <;> rcases hother with hlt' | ⟨heq', hle'⟩
  · exact absurd hlt' (not_lt.mpr hlt.le)
  · exact absurd heq' hlt.ne'
  · exact absurd heq hlt'.ne'
  · exact le_antisymm hle' hle

theorem IsShortest.unique (h : IsShortest value decimal) (hother : IsShortest value other) :
    decimal = other := by
  have hlength := Nat.le_antisymm (h.fewest other hother.reads) (hother.fewest decimal h.reads)
  refine eq_of_trimmed h.trimmed hother.trimmed ?_
  exact (h.nearest other hother.reads hlength.symm).number_eq
    (hother.nearest decimal h.reads hlength)

end Value

end Decimal
end Calculator
