import Mathlib.Data.Rat.Floor
import MapOverlay.Number.Floor
import MapOverlay.Proofs.Number.Computed

/-! The floor of a computed number. The 32-bit result is settled by the integers that are not
above the number, so the error of the operation before it matters only where an integer lies
between the exact and the rounded result. -/
namespace MapOverlay

open Float.Model Float.Model.UnpackedFloat

/-- Shifting an integer is scaling it and taking the floor, in either direction of the
shift. -/
theorem floorScaled_eq (mantissa exponent : ℤ) :
    floorScaled mantissa exponent = ⌊(mantissa : ℚ) * 2 ^ exponent⌋ := by
  rw [floorScaled]
  split
  · obtain ⟨steps, rfl⟩ := Int.eq_ofNat_of_zero_le ‹_›
    rw [zpow_natCast]
    exact_mod_cast (Int.floor_intCast (mantissa * 2 ^ steps)).symm
  · obtain ⟨steps, rfl⟩ := Int.exists_eq_neg_ofNat (not_le.mp ‹_›).le
    rw [zpow_neg, zpow_natCast, neg_neg, Int.toNat_natCast, ← div_eq_mul_inv]
    have hFloor := Rat.floor_intCast_div_natCast mantissa (2 ^ steps)
    push_cast at hFloor
    exact hFloor.symm

/-- The floor of a finite number is that of its value, or the nearer end of the 32-bit
range. -/
theorem floorInt32_of_finite {number : Float} (hFinite : number.isFinite) :
    floorInt32 number = Int32.ofIntClamp ⌊value number⌋ := by
  change number.toModel.unpack.isFinite = true at hFinite
  rw [floorInt32, value]
  cases hNumber : number.toModel.unpack with
  | notANumber => cases hNumber ▸ hFinite
  | infinity sign => cases hNumber ▸ hFinite
  | zero sign =>
      rw [unpackedValue_zero, Int.floor_zero]
      rfl
  | finite sign mantissa exponent hPositive =>
      change Int32.ofIntClamp (floorScaled (sign.apply mantissa) exponent) = _
      rw [floorScaled_eq, cast_apply, unpackedValue_finite, signed_mul_right, Int.cast_natCast]

section Clamping

variable {threshold integer : ℤ} {column : Int32}

/-- An integer beyond the 32-bit range is taken for the end that it is nearer to. -/
theorem toInt_ofIntClamp_eq (integer : ℤ) :
    (Int32.ofIntClamp integer).toInt = max (-2 ^ 31) (min integer (2 ^ 31 - 1)) := by
  have hLeast := Int32.toInt_minValue
  have hGreatest := Int32.toInt_maxValue
  rw [Int32.ofIntClamp]
  split
  · split
    · rw [Int32.toInt_ofIntLE]
      omega
    · omega
  · omega

/-- Below the ends of the 32-bit range nothing is lost. An integer reaches a threshold there
whether it is clamped or not. -/
theorem le_toInt_ofIntClamp (hLower : -2 ^ 31 < threshold) (hUpper : threshold < 2 ^ 31) :
    threshold ≤ (Int32.ofIntClamp integer).toInt ↔ threshold ≤ integer := by
  rw [toInt_ofIntClamp_eq]
  omega

/-- A 32-bit number is known from the thresholds that it reaches. If two of them differed, the
greater one would be a threshold that only it reaches. -/
theorem eq_ofIntClamp (hThresholds : ∀ threshold : ℤ, -2 ^ 31 < threshold → threshold < 2 ^ 31 →
    (threshold ≤ column.toInt ↔ threshold ≤ integer)) : column = Int32.ofIntClamp integer := by
  have hLower := column.le_toInt
  have hUpper := column.toInt_lt
  have hLower' := (Int32.ofIntClamp integer).le_toInt
  have hUpper' := (Int32.ofIntClamp integer).toInt_lt
  have hAgree (threshold : ℤ) (hAbove : -2 ^ 31 < threshold) (hBelow : threshold < 2 ^ 31) :
      threshold ≤ column.toInt ↔ threshold ≤ (Int32.ofIntClamp integer).toInt :=
    (hThresholds threshold hAbove hBelow).trans (le_toInt_ofIntClamp hAbove hBelow).symm
  apply Int32.toInt_inj.mp
  rcases lt_trichotomy column.toInt (Int32.ofIntClamp integer).toInt with hLess | hEqual | hGreater
  · have hReached := (hAgree _ (by omega) hUpper').mpr le_rfl
    omega
  · exact hEqual
  · have hReached := (hAgree _ (by omega) hUpper).mp le_rfl
    omega

end Clamping

/-- An infinite result is as good as any other that is out of the 32-bit range. So the floor
can be read off a rounded result, even where the format has no room for it. -/
theorem Computed.exists_floorInt32 {precise : ℚ} {number : Float}
    (hComputed : Computed precise number) : ∃ result, RoundsTo precise result ∧
      ∀ threshold : ℤ, -2 ^ 31 < threshold → threshold < 2 ^ 31 →
        (threshold ≤ (floorInt32 number).toInt ↔ (threshold : ℚ) ≤ result) := by
  cases hComputed with
  | inRange hFinite hRounds =>
      refine ⟨_, hRounds, fun threshold hLower hUpper => ?_⟩
      rw [floorInt32_of_finite hFinite, le_toInt_ofIntClamp hLower hUpper, Int.le_floor]
  | overflow sign result hRounds hInfinite hLarge =>
      refine ⟨result, hRounds, fun threshold hLower hUpper => ?_⟩
      have hRange : (2 : ℚ) ^ 31 ≤ signed sign result := by
        rw [← zpow_natCast]
        exact (zpow_le_zpow_right₀ one_le_two (by norm_num)).trans hLarge
      rw [floorInt32, hInfinite]
      cases sign with
      | positive =>
          have hAbove : (threshold : ℚ) ≤ 2 ^ 31 := by exact_mod_cast hUpper.le
          rw [Int32.toInt_maxValue]
          exact iff_of_true (by omega) (hAbove.trans hRange)
      | negative =>
          have hAbove : (-2 ^ 31 : ℚ) < threshold := by exact_mod_cast hLower
          have hBelow : (2 : ℚ) ^ 31 ≤ -result := hRange
          rw [Int32.toInt_minValue]
          exact iff_of_false (by omega) (not_le.mpr (by linarith))

end MapOverlay
