import MapOverlay.Proofs.Number.Floor

/-! The floor as it is found with a conversion that cuts numbers off. Cutting off goes toward
zero, so below zero the result may be one too great. It is confined to 32 bits before and
after it is lowered, which makes no difference to the floor confined once. -/
namespace MapOverlay

open Float.Model Float.Model.UnpackedFloat

/-- Cuts a number off, confines the result to 32 bits, and lowers it by one where it lies
above the number, except at the lower end of the range. NaN is cut off to `0`, and as nothing
lies above NaN, that is not lowered. -/
def floorByCutting (number : Float) : Int32 :=
  let cut := number.toModel.toInt32
  if number < Float.ofInt cut.toInt then Int32.ofIntClamp (cut.toInt - 1) else cut

theorem denotes_ofInt32 (position : Int32) :
    Denotes (Float.ofInt position.toInt) position.toInt := by
  have hLower := position.le_toInt
  have hUpper := position.toInt_lt
  exact denotes_ofInt (abs_lt.mpr ⟨by omega, by omega⟩)

/-- The magnitude is shifted until it has no fraction, one way or the other. The sign is put on
afterwards, so this goes towards zero. -/
theorem roundToInt_eq (sign : Sign) (mantissa : ℕ) (exponent : ℤ) :
    roundToInt sign mantissa exponent = sign.apply ⌊(mantissa : ℚ) * 2 ^ exponent⌋ := by
  simp only [roundToInt, decreaseExponent, shiftToExponent, Nat.shiftLeft_eq, sub_zero]
  generalize hUp : exponent.toNat = up
  generalize hDown : (0 - (exponent - up)).toNat = down
  have hExact : Represents (.ofMantissaAndAccuracy (mantissa * 2 ^ up) .exact)
      ((mantissa * 2 ^ up : ℕ) : ℚ) := rfl
  have hScaled : ((mantissa * 2 ^ up : ℕ) : ℚ) / 2 ^ down = mantissa * 2 ^ exponent := by
    have hExponent : exponent = up - down := by omega
    rw [hExponent, zpow_sub₀ two_ne_zero, zpow_natCast, zpow_natCast]
    push_cast
    ring
  have hShifted := (hExact.shiftRight down).bounds
  rw [hScaled] at hShifted
  exact congrArg sign.apply (Int.floor_eq_iff.mpr hShifted).symm

/-- Cutting off goes to one of the two integers next to the number, down for a positive number
and up for a negative one. -/
theorem exists_cut {number : Float} (hFinite : number.isFinite) :
    ∃ cut : ℤ, number.toModel.toInt32 = Int32.ofIntClamp cut ∧
      ⌊value number⌋ ≤ cut ∧ cut ≤ ⌊value number⌋ + 1 := by
  change number.toModel.unpack.isFinite = true at hFinite
  rw [Float.Model.toInt32, UnpackedFloat.toInt32, value]
  cases hNumber : number.toModel.unpack with
  | notANumber => cases hNumber ▸ hFinite
  | infinity sign => cases hNumber ▸ hFinite
  | zero sign => exact ⟨0, rfl, by simp, by simp⟩
  | finite sign mantissa exponent hPositive =>
      refine ⟨roundToInt sign mantissa exponent, rfl, ?_⟩
      rw [roundToInt_eq, unpackedValue_finite]
      cases sign with
      | positive => exact ⟨le_rfl, Int.le_add_one le_rfl⟩
      | negative =>
          rw [signed, Sign.apply, ← Int.ceil_neg]
          exact ⟨Int.floor_le_ceil _, Int.ceil_le_floor_add_one _⟩

/-- Of the two integers next to the number, the one above it is lowered. At the ends of the
range both ways clamp alike. -/
theorem floorByCutting_of_finite {number : Float} (hFinite : number.isFinite) :
    floorByCutting number = Int32.ofIntClamp ⌊value number⌋ := by
  obtain ⟨cut, hCut, hLower, hUpper⟩ := exists_cut hFinite
  have hAbove := (denotes_value hFinite).lt_iff (denotes_ofInt32 (Int32.ofIntClamp cut))
  rw [← Int.floor_lt] at hAbove
  simp only [floorByCutting, hCut, hAbove]
  apply Int32.toInt_inj.mp
  split
  all_goals
    simp only [toInt_ofIntClamp_eq] at *
    omega

/-- The floor in exact arithmetic is the one that cutting off and lowering gives, for infinities
and NaN as well. -/
theorem floorInt32_eq_floorByCutting (number : Float) :
    floorInt32 number = floorByCutting number := by
  have hFinite (hFinite : number.isFinite) : floorInt32 number = floorByCutting number := by
    rw [floorInt32_of_finite hFinite, floorByCutting_of_finite hFinite]
  cases hNumber : number.toModel.unpack with
  | finite sign mantissa exponent hPositive =>
      exact hFinite (congrArg UnpackedFloat.isFinite hNumber)
  | zero sign => exact hFinite (congrArg UnpackedFloat.isFinite hNumber)
  | notANumber =>
      simp only [floorInt32, floorByCutting, Float.Model.toInt32, lt_iff_compare, hNumber]
      rfl
  | infinity sign =>
      simp only [floorInt32, floorByCutting, Float.Model.toInt32, lt_iff_compare, hNumber]
      cases sign <;> rfl

end MapOverlay
