import Mathlib.Tactic.Linarith
import MapOverlay.Proofs.Number.Value

/-! Rounding to binary64, the upper end of its range left aside. A rational is rounded to the
nearest multiple of the spacing that the numbers of the format have around it, and to the
even one of two. The bits that the operations of the format keep on the way, the first one
beyond the mantissa and whether there are more, decide exactly that. -/
namespace MapOverlay

open Float.Model Float.Model.UnpackedFloat

/-- An integer nearest to a number, the even one if there are two. -/
structure Nearest (integer : ℤ) (number : ℚ) : Prop where
  abs_sub_le : |number - integer| ≤ 1 / 2
  even_of_tie : |number - integer| = 1 / 2 → Even integer

namespace Nearest

variable {integer : ℤ} {number : ℚ}

theorem of_abs_lt (hClose : |number - integer| < 1 / 2) : Nearest integer number :=
  ⟨hClose.le, fun hTie => absurd hTie hClose.ne⟩

theorem neg (hNearest : Nearest integer number) : Nearest (-integer) (-number) := by
  have hDistance : |-number - (-integer : ℤ)| = |number - integer| := by
    rw [← abs_neg]
    push_cast
    ring_nf
  exact ⟨hDistance ▸ hNearest.abs_sub_le, fun hTie => (hNearest.even_of_tie (hDistance ▸ hTie)).neg⟩

theorem eq_of_abs_lt {other : ℤ} (hNearest : Nearest integer number)
    (hClose : |number - other| < 1 / 2) : integer = other := by
  have hDistance : |((integer - other : ℤ) : ℚ)| < 1 := by
    obtain ⟨hLower, hUpper⟩ := abs_le.mp hNearest.abs_sub_le
    obtain ⟨hLower', hUpper'⟩ := abs_lt.mp hClose
    push_cast
    exact abs_lt.mpr ⟨by linarith, by linarith⟩
  have hInteger : |integer - other| < 1 := by exact_mod_cast hDistance
  linarith [Int.abs_lt_one_iff.mp hInteger]

theorem eq_of_intCast {precise : ℤ} (hNearest : Nearest integer precise) : integer = precise := by
  apply hNearest.eq_of_abs_lt
  rw [sub_self, abs_zero]
  norm_num

theorem nonneg (hNearest : Nearest integer number) (hNumber : 0 ≤ number) : 0 ≤ integer := by
  have hDistance := (abs_le.mp hNearest.abs_sub_le).2
  have hAbove : (-1 : ℚ) < integer := by linarith
  have hInteger : -1 < integer := by exact_mod_cast hAbove
  omega

theorem abs_le_bound {bound : ℤ} (hNearest : Nearest integer number) (hBound : |number| ≤ bound) :
    |integer| ≤ bound := by
  have hBelow : |(integer : ℚ)| < bound + 1 := by
    have hTriangle := abs_sub_abs_le_abs_sub (integer : ℚ) number
    rw [abs_sub_comm] at hTriangle
    have hHalf := hNearest.abs_sub_le
    linarith
  have hInteger : |integer| < bound + 1 := by exact_mod_cast hBelow
  omega

end Nearest

/-- A multiple other than zero is no nearer to zero than one step, in either direction. -/
theorem le_abs_intCast_mul {integer : ℤ} (hNonzero : integer ≠ 0) {step : ℚ} (hStep : 0 < step) :
    step ≤ |integer * step| := by
  have hOne : (1 : ℚ) ≤ |(integer : ℚ)| := by exact_mod_cast Int.one_le_abs hNonzero
  rw [abs_mul, abs_of_pos hStep]
  exact le_mul_of_one_le_left hStep.le hOne

/-- The numbers of the format around a number lie `2 ^ exponent` apart: it has 53 bits in
front of the spacing, or fewer at the least spacing. -/
structure Spacing (number : ℚ) (exponent : ℤ) : Prop where
  least_le : -1074 ≤ exponent
  abs_lt : |number| < 2 ^ (exponent + 53)
  full_or_least : 2 ^ (exponent + 52) ≤ |number| ∨ exponent = -1074

/-- The spacing is no wider than the scale of a form of 53 bits that is as great as the number.
Such a form is therefore a multiple of the spacing. -/
theorem Spacing.le_scale {number : ℚ} {exponent integer scale : ℤ}
    (hSpacing : Spacing number exponent) (hInteger : |integer| < 2 ^ 53) (hScale : -1074 ≤ scale)
    (hReaches : |number| ≤ |(integer : ℚ) * 2 ^ scale|) : exponent ≤ scale := by
  rcases hSpacing.full_or_least with hFull | rfl
  · have hBound : |(integer : ℚ)| < 2 ^ 53 := by exact_mod_cast hInteger
    have hPowers : (2 : ℚ) ^ (exponent + 52) < 2 ^ (scale + 53) := by
      calc (2 : ℚ) ^ (exponent + 52) ≤ |(integer : ℚ) * 2 ^ scale| := hFull.trans hReaches
        _ = |(integer : ℚ)| * 2 ^ scale := by
          rw [abs_mul, abs_of_pos (by positivity : (0 : ℚ) < 2 ^ scale)]
        _ < 2 ^ 53 * 2 ^ scale := by gcongr
        _ = 2 ^ (scale + 53) := by rw [zpow_add₀ two_ne_zero]; ring
    have hExponents := (zpow_lt_zpow_iff_right₀ one_lt_two).mp hPowers
    omega
  · exact hScale

/-- A multiple of a wider spacing is one of a narrower spacing, since the spacings are powers
of two. -/
theorem exists_multiple (integer : ℤ) {exponent scale : ℤ} (hWider : exponent ≤ scale) :
    ∃ multiple : ℤ, (integer : ℚ) * 2 ^ scale = multiple * 2 ^ exponent := by
  obtain ⟨steps, rfl⟩ := Int.le.dest hWider
  refine ⟨integer * 2 ^ steps, ?_⟩
  rw [zpow_add₀ two_ne_zero, zpow_natCast]
  push_cast
  ring

/-- The result of rounding a number: at the spacing around it, a nearest multiple, and the even
one of two. The exponent has no upper end here. -/
def RoundsTo (number result : ℚ) : Prop :=
  ∃ (exponent : ℤ) (integer : ℤ), Spacing number exponent ∧
    Nearest integer (number / 2 ^ exponent) ∧ result = integer * 2 ^ exponent

/-- A number that the format can express: an integer of 53 bits at a scale in its range. -/
def Dyadic (number : ℚ) : Prop :=
  ∃ (integer exponent : ℤ), |integer| < 2 ^ 53 ∧ -1074 ≤ exponent ∧ exponent ≤ 971 ∧
    number = integer * 2 ^ exponent

namespace Dyadic

theorem of_int {integer : ℤ} (hInteger : |integer| < 2 ^ 53) : Dyadic integer :=
  ⟨integer, 0, hInteger, by omega, by omega, by rw [zpow_zero, mul_one]⟩

theorem of_nat {integer : ℕ} (hInteger : integer < 2 ^ 53) : Dyadic integer := by
  rw [← Int.cast_natCast]
  apply of_int
  rw [Nat.abs_cast]
  exact_mod_cast hInteger

theorem abs_lt {number : ℚ} (hDyadic : Dyadic number) : |number| < 2 ^ (1024 : ℤ) := by
  obtain ⟨integer, exponent, hInteger, _, hRange, rfl⟩ := hDyadic
  have hBound : |(integer : ℚ)| < 2 ^ (53 : ℤ) := by exact_mod_cast hInteger
  have hPower : (0 : ℚ) < 2 ^ exponent := by positivity
  calc |(integer : ℚ) * 2 ^ exponent| = |(integer : ℚ)| * 2 ^ exponent := by
        rw [abs_mul, abs_of_pos hPower]
    _ < 2 ^ (53 : ℤ) * 2 ^ exponent := by gcongr
    _ ≤ 2 ^ (53 : ℤ) * 2 ^ (971 : ℤ) := by
        gcongr
        exact one_le_two
    _ = 2 ^ (1024 : ℤ) := by
        rw [← zpow_add₀ two_ne_zero]
        rfl

theorem abs {number : ℚ} (hDyadic : Dyadic number) : Dyadic |number| := by
  obtain ⟨integer, exponent, hInteger, hLeast, hRange, rfl⟩ := hDyadic
  refine ⟨|integer|, exponent, by rwa [abs_abs], hLeast, hRange, ?_⟩
  rw [abs_mul, abs_of_pos (by positivity : (0 : ℚ) < 2 ^ exponent), Int.cast_abs]

/-- Only zero is nearer to zero than the least number of the format. -/
theorem least_le_abs {number : ℚ} (hDyadic : Dyadic number) (hNonzero : number ≠ 0) :
    2 ^ (-1074 : ℤ) ≤ |number| := by
  obtain ⟨integer, exponent, _, hLeast, _, rfl⟩ := hDyadic
  have hInteger : integer ≠ 0 := by
    rintro rfl
    exact hNonzero (by rw [Int.cast_zero, zero_mul])
  calc (2 : ℚ) ^ (-1074 : ℤ) ≤ 2 ^ exponent := zpow_le_zpow_right₀ one_le_two hLeast
    _ ≤ |(integer : ℚ) * 2 ^ exponent| := le_abs_intCast_mul hInteger (by positivity)

end Dyadic

namespace RoundsTo

variable {number result : ℚ}

/-- Rounding treats both signs alike, since evenness does not depend on the sign. -/
theorem neg (hRounds : RoundsTo number result) : RoundsTo (-number) (-result) := by
  obtain ⟨exponent, integer, ⟨hLeast, hBelow, hFull⟩, hNearest, rfl⟩ := hRounds
  refine ⟨exponent, -integer, ⟨hLeast, ?_, ?_⟩, ?_, ?_⟩
  · rwa [abs_neg]
  · rwa [abs_neg]
  · rw [neg_div]
    exact hNearest.neg
  · push_cast
    ring

theorem signed (hRounds : RoundsTo number result) (sign : Sign) :
    RoundsTo (signed sign number) (signed sign result) := by
  cases sign with
  | positive => exact hRounds
  | negative => exact hRounds.neg

/-- What the format can express is not changed, because it is a multiple of the spacing. -/
theorem eq_of_dyadic (hRounds : RoundsTo number result) (hDyadic : Dyadic number) :
    result = number := by
  obtain ⟨exponent, rounded, hSpacing, hNearest, rfl⟩ := hRounds
  obtain ⟨integer, scale, hInteger, hScale, _, rfl⟩ := hDyadic
  obtain ⟨multiple, hMultiple⟩ :=
    exists_multiple integer (hSpacing.le_scale hInteger hScale le_rfl)
  have hPower : (2 : ℚ) ^ exponent ≠ 0 := by positivity
  rw [hMultiple, mul_div_cancel_right₀ _ hPower] at hNearest
  rw [hMultiple, hNearest.eq_of_intCast]

/-- A bound that the format can express is not exceeded by rounding. At the spacing of the
number it is a multiple, and the nearest multiple does not pass it. -/
theorem abs_le_of_dyadic {bound : ℚ} (hRounds : RoundsTo number result) (hDyadic : Dyadic bound)
    (hBound : |number| ≤ bound) : |result| ≤ bound := by
  obtain ⟨exponent, rounded, hSpacing, hNearest, rfl⟩ := hRounds
  obtain ⟨integer, scale, hInteger, hScale, _, rfl⟩ := hDyadic
  obtain ⟨multiple, hMultiple⟩ := exists_multiple integer
    (hSpacing.le_scale hInteger hScale (hBound.trans (le_abs_self _)))
  have hPower : (0 : ℚ) < 2 ^ exponent := by positivity
  rw [hMultiple] at hBound ⊢
  rw [abs_mul, abs_of_pos hPower]
  gcongr
  have hScaled : |number / 2 ^ exponent| ≤ multiple := by
    rwa [abs_div, abs_of_pos hPower, div_le_iff₀ hPower]
  exact_mod_cast hNearest.abs_le_bound hScaled

/-- A number of the format attracts what is closer to it than half of the spacing around. One
bit is left over in the integer, so it does not matter on which side of it the number lies. -/
theorem eq_of_close {integer scale : ℤ} (hRounds : RoundsTo number result)
    (hInteger : |integer| < 2 ^ 52) (hScale : -1074 ≤ scale)
    (hReaches : |number| ≤ 2 * |(integer : ℚ) * 2 ^ scale|)
    (hClose : |number - integer * 2 ^ scale| < |number| * 2 ^ (-54 : ℤ)) :
    result = integer * 2 ^ scale := by
  obtain ⟨exponent, rounded, hSpacing, hNearest, rfl⟩ := hRounds
  have hDoubled : |2 * integer| < 2 ^ 53 := by
    rw [abs_mul, abs_two]
    omega
  have hWider : exponent ≤ scale := by
    apply hSpacing.le_scale hDoubled hScale
    rwa [Int.cast_mul, Int.cast_ofNat, mul_assoc, abs_mul, abs_two]
  obtain ⟨multiple, hMultiple⟩ := exists_multiple integer hWider
  have hPower : (0 : ℚ) < 2 ^ exponent := by positivity
  rw [hMultiple] at hClose ⊢
  have hHalf : |number - multiple * 2 ^ exponent| < 1 / 2 * 2 ^ exponent := by
    calc |number - multiple * 2 ^ exponent| < |number| * 2 ^ (-54 : ℤ) := hClose
      _ ≤ 2 ^ (exponent + 53) * 2 ^ (-54 : ℤ) := by gcongr; exact hSpacing.abs_lt.le
      _ = 1 / 2 * 2 ^ exponent := by
        rw [← zpow_add₀ two_ne_zero, add_assoc, zpow_add₀ two_ne_zero, mul_comm]
        norm_num
  have hScaled : |number / 2 ^ exponent - multiple| < 1 / 2 := by
    rwa [← mul_lt_mul_iff_left₀ hPower, ← abs_of_pos hPower, ← abs_mul, abs_of_pos hPower,
      sub_mul, div_mul_cancel₀ _ hPower.ne']
  rw [hNearest.eq_of_abs_lt hScaled]

theorem zero : RoundsTo 0 0 := by
  refine ⟨-1074, 0, ⟨le_rfl, ?_, Or.inr rfl⟩, ?_, ?_⟩
  · rw [abs_zero]
    positivity
  · rw [zero_div]
    exact .of_abs_lt (by norm_num)
  · rw [Int.cast_zero, zero_mul]

/-- A number that is not negative is not rounded to a negative one. -/
theorem nonneg (hRounds : RoundsTo number result) (hNumber : 0 ≤ number) : 0 ≤ result := by
  obtain ⟨exponent, integer, _, hNearest, rfl⟩ := hRounds
  have hInteger : (0 : ℚ) ≤ integer := by
    exact_mod_cast hNearest.nonneg (div_nonneg hNumber (by positivity))
  positivity

/-- The error is half a unit in the last place, or among the least numbers half of the least.
The first is told relative to the number, and the second is absolute. -/
theorem abs_sub_le (hRounds : RoundsTo number result) :
    |number - result| ≤ |number| * 2 ^ (-53 : ℤ) ∨
      |number| < 2 ^ (-1021 : ℤ) ∧ |number - result| ≤ 2 ^ (-1075 : ℤ) := by
  obtain ⟨exponent, integer, ⟨_, hBelow, hFull⟩, hNearest, rfl⟩ := hRounds
  have hPower : (0 : ℚ) < 2 ^ exponent := by positivity
  have hError : |number - integer * 2 ^ exponent| ≤ 2 ^ (exponent - 1) := by
    calc |number - integer * 2 ^ exponent| = |number / 2 ^ exponent - integer| * 2 ^ exponent := by
          rw [← abs_of_pos hPower, ← abs_mul, abs_of_pos hPower, sub_mul,
            div_mul_cancel₀ _ hPower.ne']
      _ ≤ 1 / 2 * 2 ^ exponent := by gcongr; exact hNearest.abs_sub_le
      _ = 2 ^ (exponent - 1) := by rw [zpow_sub_one₀ two_ne_zero]; ring
  rcases hFull with hFull | rfl
  · left
    calc |number - integer * 2 ^ exponent| ≤ 2 ^ (exponent - 1) := hError
      _ = 2 ^ (exponent + 52) * 2 ^ (-53 : ℤ) := by rw [← zpow_add₀ two_ne_zero]; ring_nf
      _ ≤ |number| * 2 ^ (-53 : ℤ) := by gcongr
  · exact Or.inr ⟨hBelow, hError⟩

/-- Half of the least number is still rounded to zero, which is even. Anything greater
is not. -/
theorem eq_zero_iff (hRounds : RoundsTo number result) :
    result = 0 ↔ |number| ≤ 2 ^ (-1075 : ℤ) := by
  obtain ⟨exponent, integer, ⟨hLeast, _, hFull⟩, ⟨hDistance, hTie⟩, rfl⟩ := hRounds
  have hPower : (0 : ℚ) < 2 ^ exponent := by positivity
  rw [mul_eq_zero_iff_right hPower.ne', Int.cast_eq_zero]
  constructor
  · rintro rfl
    rw [Int.cast_zero, sub_zero, abs_div, abs_of_pos hPower, div_le_iff₀ hPower] at hDistance
    have hHalf : |number| ≤ 2 ^ (exponent - 1) := by
      rw [zpow_sub_one₀ two_ne_zero]
      linarith
    rcases hFull with hFull | rfl
    · have hExponents := (zpow_le_zpow_iff_right₀ (one_lt_two (α := ℚ))).mp (hFull.trans hHalf)
      omega
    · exact hHalf
  · intro hSmall
    obtain rfl : exponent = -1074 := by
      refine hFull.resolve_left fun hFull => ?_
      have hExponents := (zpow_le_zpow_iff_right₀ (one_lt_two (α := ℚ))).mp (hFull.trans hSmall)
      omega
    have hScaled : |number / 2 ^ (-1074 : ℤ)| ≤ 1 / 2 := by
      have hLeastNumber : (2 : ℚ) ^ (-1074 : ℤ) = 2 ^ (-1075 : ℤ) * 2 :=
        zpow_add_one₀ two_ne_zero (-1075)
      rw [abs_div, abs_of_pos hPower, div_le_iff₀ hPower]
      linarith
    generalize number / 2 ^ (-1074 : ℤ) = scaled at *
    by_contra hNonzero
    have hOne : (1 : ℚ) ≤ |(integer : ℚ)| := by exact_mod_cast Int.one_le_abs hNonzero
    have hSplit : |(integer : ℚ)| ≤ |scaled| + |scaled - integer| := by
      have hTriangle := abs_sub_abs_le_abs_sub (integer : ℚ) scaled
      rw [abs_sub_comm] at hTriangle
      linarith
    have hEven := hTie (by linarith)
    have hUnit : |integer| ≤ 1 := by
      have hCast : |(integer : ℚ)| ≤ 1 := by linarith
      exact_mod_cast hCast
    obtain ⟨half, rfl⟩ := hEven
    rw [abs_le] at hUnit
    omega

/-- Rounding hides the sign of a number only where it leaves nothing of it, which is up to half
of the least number. -/
theorem nonneg_iff (hRounds : RoundsTo number result) :
    0 ≤ result ↔ -2 ^ (-1075 : ℤ) ≤ number := by
  rcases le_or_gt 0 number with hNumber | hNumber
  · have hPower : (0 : ℚ) < 2 ^ (-1075 : ℤ) := by positivity
    exact iff_of_true (hRounds.nonneg hNumber) (by linarith)
  · have hResult : result ≤ 0 := neg_nonneg.mp (hRounds.neg.nonneg (by linarith))
    rw [hResult.ge_iff_eq, hRounds.eq_zero_iff, abs_of_neg hNumber, neg_le]

end RoundsTo

section Bits

/-- Where a number lies from a mantissa upwards, as the two bits beyond it say. -/
def Represents : ExtendedMantissa → ℚ → Prop
  | ⟨mantissa, false, false⟩, number => number = mantissa
  | ⟨mantissa, false, true⟩, number => mantissa < number ∧ number < mantissa + 1 / 2
  | ⟨mantissa, true, false⟩, number => number = mantissa + 1 / 2
  | ⟨mantissa, true, true⟩, number => mantissa + 1 / 2 < number ∧ number < mantissa + 1

namespace Represents

variable {extended : ExtendedMantissa} {number : ℚ}

/-- A number begins with its mantissa and goes no further than the next one. -/
theorem bounds (hRepresents : Represents extended number) :
    (extended.mantissa : ℚ) ≤ number ∧ number < extended.mantissa + 1 := by
  obtain ⟨mantissa, roundBit, stickyBit⟩ := extended
  cases roundBit <;> cases stickyBit <;> simp only [Represents] at hRepresents <;>
    constructor <;> linarith

/-- Rounding to even gives an integer nearest to the number. Where the number is halfway, the
even neighbour is the mantissa or its successor. -/
theorem nearest (hRepresents : Represents extended number) :
    Nearest extended.roundedMantissa number := by
  obtain ⟨mantissa, roundBit, stickyBit⟩ := extended
  cases roundBit with
  | false =>
      have hRounded : ExtendedMantissa.roundedMantissa ⟨mantissa, false, stickyBit⟩ = mantissa := by
        cases stickyBit <;> rfl
      rw [hRounded]
      apply Nearest.of_abs_lt
      cases stickyBit <;> simp only [Represents] at hRepresents <;> push_cast <;>
        rw [abs_lt] <;> constructor <;> linarith
  | true =>
      cases stickyBit with
      | true =>
          apply Nearest.of_abs_lt
          simp only [Represents] at hRepresents
          change |number - ((mantissa + 1 : ℕ) : ℤ)| < 1 / 2
          push_cast
          rw [abs_lt]
          constructor <;> linarith
      | false =>
          have hHalfway : number = mantissa + 1 / 2 := hRepresents
          subst hHalfway
          have hRounded : ExtendedMantissa.roundedMantissa ⟨mantissa, true, false⟩ =
              mantissa + mantissa % 2 := rfl
          rw [hRounded]
          constructor
          · rcases Nat.mod_two_eq_zero_or_one mantissa with hBit | hBit <;> rw [hBit] <;>
              push_cast <;> rw [abs_le] <;> constructor <;> linarith
          · intro _
            rw [Int.even_coe_nat, Nat.even_iff]
            omega

theorem rounded_bounds (extended : ExtendedMantissa) :
    extended.mantissa ≤ extended.roundedMantissa ∧
      extended.roundedMantissa ≤ extended.mantissa + 1 := by
  obtain ⟨mantissa, roundBit, stickyBit⟩ := extended
  cases roundBit <;> cases stickyBit <;>
    simp only [ExtendedMantissa.roundedMantissa, ExtendedMantissa.accuracy,
      Accuracy.roundToNearestEven] <;> omega

/-- Halving a number drops one bit of its mantissa. The last bit becomes the first one beyond
the mantissa, and what was beyond it before is only remembered as being there. -/
theorem shiftRightOne (hRepresents : Represents extended number) :
    Represents extended.shiftRightOne (number / 2) := by
  obtain ⟨mantissa, roundBit, stickyBit⟩ := extended
  have hHalves : (mantissa : ℚ) = 2 * (mantissa / 2 : ℕ) + (mantissa % 2 : ℕ) := by
    exact_mod_cast (Nat.div_add_mod mantissa 2).symm
  rcases Nat.mod_two_eq_zero_or_one mantissa with hBit | hBit
  · have hShifted : ExtendedMantissa.shiftRightOne ⟨mantissa, roundBit, stickyBit⟩ =
        ⟨mantissa / 2, false, roundBit || stickyBit⟩ := by
      simp [ExtendedMantissa.shiftRightOne, hBit]
    rw [hBit, Nat.cast_zero] at hHalves
    rw [hShifted]
    cases roundBit <;> cases stickyBit <;> simp only [Represents, Bool.or_self, Bool.or_true,
      Bool.or_false] at hRepresents ⊢ <;> (try constructor) <;> linarith
  · have hShifted : ExtendedMantissa.shiftRightOne ⟨mantissa, roundBit, stickyBit⟩ =
        ⟨mantissa / 2, true, roundBit || stickyBit⟩ := by
      simp [ExtendedMantissa.shiftRightOne, hBit]
    rw [hBit, Nat.cast_one] at hHalves
    rw [hShifted]
    cases roundBit <;> cases stickyBit <;> simp only [Represents, Bool.or_self, Bool.or_true,
      Bool.or_false] at hRepresents ⊢ <;> (try constructor) <;> linarith

/-- Halving a number several times drops as many bits, by induction on their number. -/
theorem shiftRight (hRepresents : Represents extended number) (steps : ℕ) :
    Represents (extended >>> steps) (number / 2 ^ steps) := by
  change Represents (Nat.repeat ExtendedMantissa.shiftRightOne steps extended) _
  induction steps with
  | zero => simpa [Nat.repeat] using hRepresents
  | succ steps ih =>
      rw [Nat.repeat, pow_succ, ← div_div]
      exact ih.shiftRightOne

end Represents

/-- Of the exponent, 53 bits are kept for the mantissa, but it does not go below the
least one. -/
theorem targetExponent_eq (total : ℤ) :
    Format.binary64.targetExponent total = max (total - 53) (-1074) :=
  rfl

theorem mantissa_ofMantissaAndAccuracy (mantissa : ℕ) (accuracy : Accuracy) :
    (ExtendedMantissa.ofMantissaAndAccuracy mantissa accuracy).mantissa = mantissa := by
  cases accuracy with
  | exact => rfl
  | inexact order => cases order <;> rfl

/-- A number whose first bits are known, between the powers of two around it. The bits beyond
the mantissa do not carry it to the next power. -/
theorem bounds_of_represents {mantissa : ℕ} {exponent : ℤ} {accuracy : Accuracy} {number : ℚ}
    (hRepresents : Represents (.ofMantissaAndAccuracy mantissa accuracy) (number / 2 ^ exponent)) :
    0 ≤ number ∧ number < 2 ^ totalExponent mantissa exponent ∧
      (mantissa ≠ 0 → 2 ^ (totalExponent mantissa exponent - 1) ≤ number) := by
  obtain ⟨hLower, hUpper⟩ := hRepresents.bounds
  have hPower : (0 : ℚ) < 2 ^ exponent := by positivity
  rw [mantissa_ofMantissaAndAccuracy, le_div_iff₀ hPower] at hLower
  rw [mantissa_ofMantissaAndAccuracy, div_lt_iff₀ hPower] at hUpper
  rw [totalExponent]
  refine ⟨le_trans (by positivity) hLower, ?_, fun hNonzero => ?_⟩
  · have hLog : (mantissa : ℚ) + 1 ≤ 2 ^ (mantissa.log2 + 1) := by
      exact_mod_cast Nat.lt_log2_self (n := mantissa)
    calc number < (mantissa + 1) * 2 ^ exponent := hUpper
      _ ≤ 2 ^ (mantissa.log2 + 1) * 2 ^ exponent := by gcongr
      _ = 2 ^ ((mantissa.log2 : ℤ) + 1 + exponent) := by
        rw [zpow_add₀ two_ne_zero, zpow_add_one₀ two_ne_zero, zpow_natCast, pow_succ]
  · have hLog : (2 : ℚ) ^ mantissa.log2 ≤ mantissa := by
      exact_mod_cast Nat.log2_self_le hNonzero
    calc (2 : ℚ) ^ ((mantissa.log2 : ℤ) + 1 + exponent - 1) = 2 ^ mantissa.log2 * 2 ^ exponent := by
          rw [← zpow_natCast, ← zpow_add₀ two_ne_zero]
          congr 1
          ring
      _ ≤ mantissa * 2 ^ exponent := by gcongr
      _ ≤ number := hLower

/-- The spacing around a number whose first bits are known. The bits that are known reach down
to the spacing, so it does not matter what is beyond them. -/
theorem spacing_of_represents {mantissa : ℕ} {exponent : ℤ} {accuracy : Accuracy} {number : ℚ}
    (hRepresents : Represents (.ofMantissaAndAccuracy mantissa accuracy) (number / 2 ^ exponent))
    (hDeep : 2 ^ 52 ≤ mantissa ∨ exponent ≤ -1074) :
    Spacing number (Format.binary64.targetExponent (totalExponent mantissa exponent)) := by
  obtain ⟨hNonneg, hUpper, hLower⟩ := bounds_of_represents hRepresents
  rw [targetExponent_eq]
  refine ⟨le_max_right _ _, ?_, ?_⟩
  · rw [abs_of_nonneg hNonneg]
    refine hUpper.trans_le (zpow_le_zpow_right₀ one_le_two ?_)
    have hTarget := le_max_left (totalExponent mantissa exponent - 53) (-1074)
    omega
  · rcases le_or_gt (totalExponent mantissa exponent - 53) (-1074) with hLeast | hNormal
    · exact Or.inr (max_eq_right hLeast)
    · left
      have hNonzero : mantissa ≠ 0 := by
        rintro rfl
        have hZero : totalExponent 0 exponent = 1 + exponent := by
          rw [totalExponent, Nat.log2_zero, Nat.cast_zero, zero_add]
        omega
      have hExponent : totalExponent mantissa exponent - 53 + 52 =
          totalExponent mantissa exponent - 1 := by omega
      rw [max_eq_left hNormal.le, abs_of_nonneg hNonneg, hExponent]
      exact hLower hNonzero

/-- Enough bits are so many that rounding only drops some of them. A mantissa is never made
wider on the way. -/
theorem le_targetExponent_of_deep {mantissa : ℕ} {exponent : ℤ}
    (hDeep : 2 ^ 52 ≤ mantissa ∨ exponent ≤ -1074) :
    exponent ≤ Format.binary64.targetExponent (totalExponent mantissa exponent) := by
  rw [targetExponent_eq, totalExponent]
  rcases hDeep with hFull | hLeast
  · have hLog := (Nat.le_log2 (by omega : mantissa ≠ 0)).mpr hFull
    exact le_max_of_le_left (by omega)
  · exact le_max_of_le_right hLeast

/-- Where rounding has to drop bits, a mantissa is shifted by what the exponent lacks. -/
theorem shiftToTargetExponent_eq {mantissa : ℕ} {exponent : ℤ} (accuracy : Accuracy)
    (hDepth : exponent ≤ Format.binary64.targetExponent (totalExponent mantissa exponent)) :
    shiftToTargetExponent Format.binary64 mantissa exponent accuracy =
      (ExtendedMantissa.ofMantissaAndAccuracy mantissa accuracy >>>
          (Format.binary64.targetExponent (totalExponent mantissa exponent) - exponent).toNat,
        Format.binary64.targetExponent (totalExponent mantissa exponent)) := by
  rw [shiftToTargetExponent, shiftToExponent]
  congr 1
  omega

/-- A rounded mantissa that needs one bit too many is shifted once more, which is exact. It is
then a power of two, and its last bit is zero. -/
theorem shift_carry {mantissa : ℕ} {exponent : ℤ} (hMantissa : mantissa ≤ 2 ^ 53)
    (hLeast : -1074 ≤ exponent) (hFull : 2 ^ 52 ≤ mantissa ∨ exponent = -1074) :
    ∃ shifted final, shiftToTargetExponent Format.binary64 mantissa exponent .exact =
        (shifted, final) ∧ Aligned shifted.mantissa final ∧
      (shifted.mantissa : ℚ) * 2 ^ final = mantissa * 2 ^ exponent := by
  rcases hMantissa.lt_or_eq with hShort | rfl
  · have hTarget : Format.binary64.targetExponent (totalExponent mantissa exponent) = exponent := by
      have hLog : mantissa.log2 ≤ 52 := by
        rcases Nat.eq_zero_or_pos mantissa with rfl | hPositive
        · exact Nat.zero_le 52
        · exact Nat.le_of_lt_succ ((Nat.log2_lt hPositive.ne').mpr hShort)
      rw [targetExponent_eq, totalExponent]
      rcases hFull with hFull | rfl
      · have hFullLog := log2_of_full hFull hShort
        omega
      · omega
    have hShift := shiftToTargetExponent_eq .exact hTarget.ge
    rw [hTarget, sub_self] at hShift
    exact ⟨_, _, hShift, ⟨hShort, hLeast, hFull⟩, rfl⟩
  · have hTarget : Format.binary64.targetExponent (totalExponent (2 ^ 53) exponent) =
        exponent + 1 := by
      rw [targetExponent_eq, totalExponent, Nat.log2_two_pow]
      omega
    have hShift := shiftToTargetExponent_eq .exact (hTarget ▸ (Int.lt_succ exponent).le)
    rw [hTarget, add_sub_cancel_left] at hShift
    have hHalf : (ExtendedMantissa.ofMantissaAndAccuracy (2 ^ 53) .exact >>>
        (1 : ℤ).toNat).mantissa = 2 ^ 52 := rfl
    refine ⟨_, _, hShift, ⟨?_, by omega, Or.inl hHalf.ge⟩, ?_⟩
    · rw [hHalf]
      norm_num
    · rw [hHalf, zpow_add_one₀ two_ne_zero]
      push_cast
      ring

/-- The outcome of an operation before it is packed. -/
structure Rounds (precise : ℚ) (rounded : UnpackedFloat) : Prop where
  canonical : Canonical rounded
  finite : rounded.isFinite
  roundsTo : RoundsTo precise (unpackedValue rounded)

/-- A rounded mantissa has 53 bits, or is the next power of two. Only at the least exponent it
may be shorter. -/
theorem roundedMantissa_fits {extended : ExtendedMantissa} {number : ℚ} {exponent : ℤ}
    (hNonneg : 0 ≤ number) (hRepresents : Represents extended (number / 2 ^ exponent))
    (hSpacing : Spacing number exponent) :
    extended.roundedMantissa ≤ 2 ^ 53 ∧
      (2 ^ 52 ≤ extended.roundedMantissa ∨ exponent = -1074) := by
  obtain ⟨_, hBelow, hFull⟩ := hSpacing
  obtain ⟨hRoundedLower, hRoundedUpper⟩ := Represents.rounded_bounds extended
  obtain ⟨hLower, hUpper⟩ := hRepresents.bounds
  have hPower : (0 : ℚ) < 2 ^ exponent := by positivity
  rw [abs_of_nonneg hNonneg, add_comm, zpow_add₀ two_ne_zero] at hBelow hFull
  rw [← div_lt_iff₀ hPower] at hBelow
  rw [← le_div_iff₀ hPower] at hFull
  constructor
  · have hShort : extended.mantissa < 2 ^ 53 := by exact_mod_cast hLower.trans_lt hBelow
    omega
  · refine hFull.imp_left fun hNumber => ?_
    have hLong : 2 ^ 52 < extended.mantissa + 1 := by exact_mod_cast hNumber.trans_lt hUpper
    omega

/-- Rounding to the format, from enough bits and what they leave open. The mantissa is cut to
53 bits, rounded to even, and shifted once more if the rounding carried. -/
theorem rounds_roundWithAccuracy (sign : Sign) {mantissa : ℕ} {exponent : ℤ}
    {accuracy : Accuracy} {number : ℚ}
    (hRepresents : Represents (.ofMantissaAndAccuracy mantissa accuracy) (number / 2 ^ exponent))
    (hDeep : 2 ^ 52 ≤ mantissa ∨ exponent ≤ -1074) :
    Rounds (signed sign number)
      (roundWithAccuracy Format.binary64 sign mantissa exponent accuracy) := by
  have hSpacing := spacing_of_represents hRepresents hDeep
  have hDepth := le_targetExponent_of_deep hDeep
  have hFirst := shiftToTargetExponent_eq accuracy hDepth
  generalize Format.binary64.targetExponent (totalExponent mantissa exponent) = target at *
  have hShifted := hRepresents.shiftRight (target - exponent).toNat
  have hScaled : number / 2 ^ exponent / 2 ^ (target - exponent).toNat = number / 2 ^ target := by
    rw [div_div, ← zpow_natCast, ← zpow_add₀ two_ne_zero]
    congr 2
    omega
  rw [hScaled] at hShifted
  have hNonneg := (bounds_of_represents hRepresents).1
  obtain ⟨hMantissa, hFull⟩ := roundedMantissa_fits hNonneg hShifted hSpacing
  obtain ⟨shifted, final, hCarry, hAligned, hValue⟩ :=
    shift_carry hMantissa hSpacing.least_le hFull
  have hRounds : RoundsTo number (shifted.mantissa * 2 ^ final) :=
    ⟨target, _, hSpacing, hShifted.nearest, by rw [hValue]; push_cast; rfl⟩
  have hOutcome : roundWithAccuracy Format.binary64 sign mantissa exponent accuracy =
      if hZero : shifted.mantissa = 0 then .zero sign
      else .finite sign shifted.mantissa final (Nat.pos_of_ne_zero hZero) := by
    unfold roundWithAccuracy
    rw [hFirst]
    dsimp only
    rw [hCarry]
  rw [hOutcome]
  by_cases hZero : shifted.mantissa = 0
  · rw [dif_pos hZero]
    rw [hZero, Nat.cast_zero, zero_mul] at hRounds
    refine ⟨trivial, rfl, ?_⟩
    have hSigned := hRounds.signed sign
    rwa [signed_zero] at hSigned
  · rw [dif_neg hZero]
    exact ⟨hAligned, rfl, hRounds.signed sign⟩

end Bits

end MapOverlay
