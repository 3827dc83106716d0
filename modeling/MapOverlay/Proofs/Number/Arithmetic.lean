import Mathlib.Tactic.FieldSimp
import MapOverlay.Proofs.Number.Rounding

/-! The operations of binary64 on finite numbers. Each of them rounds the exact result once,
and a result that is out of range becomes infinite. Where the format can express the exact
result, that is what the operation gives. -/
namespace MapOverlay

open Float.Model Float.Model.UnpackedFloat

section Division

/-- A quotient with remainder keeps what is needed to round it. The remainder tells on which
side of the middle between two integers the exact quotient lies. -/
theorem represents_quotient (dividend : ℕ) {divisor : ℕ} (hDivisor : 0 < divisor) :
    Represents (.ofMantissaAndAccuracy (dividend / divisor)
      (accuracyOfFraction (dividend % divisor) divisor)) ((dividend : ℚ) / divisor) := by
  have hPositive : (0 : ℚ) < divisor := by exact_mod_cast hDivisor
  have hRemainder : dividend % divisor < divisor := Nat.mod_lt _ hDivisor
  have hSplit : (dividend : ℚ) / divisor =
      (dividend / divisor : ℕ) + (dividend % divisor : ℕ) / divisor := by
    rw [div_eq_iff hPositive.ne', add_mul, div_mul_cancel₀ _ hPositive.ne', mul_comm]
    exact_mod_cast (Nat.div_add_mod dividend divisor).symm
  rw [hSplit]
  generalize dividend / divisor = quotient
  generalize dividend % divisor = remainder at *
  rw [accuracyOfFraction]
  by_cases hZero : remainder = 0
  · rw [if_pos hZero, hZero, Nat.cast_zero, zero_div, add_zero]
    rfl
  · rw [if_neg hZero]
    have hRest : (0 : ℚ) < remainder := by exact_mod_cast Nat.pos_of_ne_zero hZero
    rcases lt_trichotomy (2 * remainder) divisor with hLess | hTie | hGreater
    · have hHalf : (2 : ℚ) * remainder < divisor := by exact_mod_cast hLess
      rw [compare_lt_iff_lt.mpr hLess]
      refine ⟨lt_add_of_pos_right _ (by positivity), add_lt_add_right ?_ _⟩
      rw [div_lt_iff₀ hPositive]
      linarith
    · have hHalf : (2 : ℚ) * remainder = divisor := by exact_mod_cast hTie
      rw [compare_eq_iff_eq.mpr hTie]
      change (quotient : ℚ) + remainder / divisor = quotient + 1 / 2
      rw [← hHalf]
      field_simp
    · have hHalf : (divisor : ℚ) < 2 * remainder := by exact_mod_cast hGreater
      have hWhole : (remainder : ℚ) < divisor := by exact_mod_cast hRemainder
      rw [compare_gt_iff_gt.mpr hGreater]
      refine ⟨add_lt_add_right ?_ _, add_lt_add_right ?_ _⟩
      · rw [lt_div_iff₀ hPositive]
        linarith
      · exact (div_lt_one hPositive).mpr hWhole

/-- A quotient is computed with enough bits to be rounded. The dividend is made wide first, or
the exponent is as low as the format goes. -/
theorem divCore_deep {dividend divisor : ℕ} (hDividend : 0 < dividend) (hDivisor : 0 < divisor)
    (first second : ℤ) :
    ∃ quotient exponent accuracy,
      divCore Format.binary64 dividend first divisor second = (quotient, exponent, accuracy) ∧
      Represents (.ofMantissaAndAccuracy quotient accuracy)
        ((dividend * 2 ^ first : ℚ) / (divisor * 2 ^ second) / 2 ^ exponent) ∧
      (2 ^ 52 ≤ quotient ∨ exponent ≤ -1074) := by
  simp only [divCore]
  generalize hTarget : min (first - second) (Format.binary64.targetExponent
    (totalExponent dividend first - totalExponent divisor second)) = target
  have hShift : target ≤ first - second := hTarget ▸ min_le_left _ _
  have hDepth : target ≤ Format.binary64.targetExponent
      (totalExponent dividend first - totalExponent divisor second) := hTarget ▸ min_le_right _ _
  obtain ⟨steps, hSteps⟩ := Int.le.dest hShift
  have hAmount : (first - second - target).toNat = steps := by omega
  simp only [hAmount, Nat.shiftLeft_eq]
  refine ⟨_, _, _, rfl, ?_, ?_⟩
  · have hScaled : (dividend * 2 ^ first : ℚ) / (divisor * 2 ^ second) / 2 ^ target =
        (dividend * 2 ^ steps : ℕ) / divisor := by
      have hFirst : first = second + target + steps := by omega
      rw [hFirst, zpow_add₀ two_ne_zero, zpow_add₀ two_ne_zero, zpow_natCast]
      push_cast
      field_simp
    rw [hScaled]
    exact represents_quotient _ hDivisor
  · rcases le_or_gt target (-1074) with hLeast | hNormal
    · exact Or.inr hLeast
    · left
      rw [targetExponent_eq, totalExponent, totalExponent] at hDepth
      have hDividendLog := Nat.log2_self_le hDividend.ne'
      have hDivisorLog : divisor < 2 ^ (divisor.log2 + 1) := Nat.lt_log2_self
      rw [Nat.le_div_iff_mul_le hDivisor]
      calc 2 ^ 52 * divisor ≤ 2 ^ 52 * 2 ^ (divisor.log2 + 1) := by gcongr
        _ = 2 ^ (52 + (divisor.log2 + 1)) := (pow_add _ _ _).symm
        _ ≤ 2 ^ (dividend.log2 + steps) := by
          apply Nat.pow_le_pow_right two_pos
          omega
        _ = 2 ^ dividend.log2 * 2 ^ steps := pow_add _ _ _
        _ ≤ dividend * 2 ^ steps := by gcongr

theorem signed_div (first second : Sign) (dividend divisor : ℚ) :
    signed (first / second) (dividend / divisor) =
      signed first dividend / signed second divisor := by
  cases first <;> cases second
  · exact (neg_div_neg_eq dividend divisor).symm
  · exact (neg_div divisor dividend).symm
  · exact (div_neg dividend).symm
  · rfl

/-- A division is rounded once, from the exact quotient, for a divisor other than zero. -/
theorem rounds_div {first second : UnpackedFloat} (hFirst : first.isFinite)
    (hSecond : second.isFinite) (hNonzero : unpackedValue second ≠ 0) :
    Rounds (unpackedValue first / unpackedValue second)
      (UnpackedFloat.div Format.binary64 first second) := by
  cases second with
  | notANumber => cases hSecond
  | infinity sign => cases hSecond
  | zero sign => exact absurd rfl hNonzero
  | finite sign divisor low hDivisor =>
      cases first with
      | notANumber => cases hFirst
      | infinity sign => cases hFirst
      | zero sign' =>
          rw [unpackedValue_zero, zero_div]
          exact ⟨trivial, rfl, .zero⟩
      | finite sign' dividend high hDividend =>
          obtain ⟨quotient, exponent, accuracy, hCore, hRepresents, hDeep⟩ :=
            divCore_deep hDividend hDivisor high low
          have hQuotient : UnpackedFloat.div Format.binary64
              (.finite sign' dividend high hDividend) (.finite sign divisor low hDivisor) =
                roundWithAccuracy Format.binary64 (sign' / sign) quotient exponent accuracy := by
            unfold UnpackedFloat.div
            dsimp only
            rw [hCore]
          rw [unpackedValue_finite, unpackedValue_finite, ← signed_div, hQuotient]
          exact rounds_roundWithAccuracy (sign' / sign) hRepresents hDeep

end Division

section Product

theorem signed_mul (first second : Sign) (left right : ℚ) :
    signed (first * second) (left * right) = signed first left * signed second right := by
  cases first <;> cases second
  · exact (neg_mul_neg left right).symm
  · exact (neg_mul left right).symm
  · exact (mul_neg left right).symm
  · rfl

/-- A factor of full width makes the product wide enough, and the least numbers have none. Two
factors that are short both have the least exponent, and their product a lower one still. -/
theorem Aligned.mul_deep {first second : ℕ} {low high : ℤ} (hFirst : Aligned first low)
    (hSecond : Aligned second high) (hPositive : 0 < first) (hPositive' : 0 < second) :
    2 ^ 52 ≤ first * second ∨ low + high ≤ -1074 := by
  rcases hFirst.full_or_least with hFull | hLeast
  · exact Or.inl (hFull.trans (Nat.le_mul_of_pos_right first hPositive'))
  · rcases hSecond.full_or_least with hFull | hLeast'
    · exact Or.inl (hFull.trans (Nat.le_mul_of_pos_left second hPositive))
    · right
      omega

/-- A multiplication is rounded once, from the exact product. -/
theorem rounds_mul {first second : UnpackedFloat} (hFirst : first.isFinite)
    (hSecond : second.isFinite) (hCanonical : Canonical first) (hCanonical' : Canonical second) :
    Rounds (unpackedValue first * unpackedValue second)
      (UnpackedFloat.mul Format.binary64 first second) := by
  cases first with
  | notANumber => cases hFirst
  | infinity sign => cases hFirst
  | zero sign =>
      rw [unpackedValue_zero, zero_mul]
      cases second with
      | notANumber => cases hSecond
      | infinity sign' => cases hSecond
      | zero sign' => exact ⟨trivial, rfl, .zero⟩
      | finite sign' mantissa exponent hPositive => exact ⟨trivial, rfl, .zero⟩
  | finite sign mantissa exponent hPositive =>
      cases second with
      | notANumber => cases hSecond
      | infinity sign' => cases hSecond
      | zero sign' =>
          rw [unpackedValue_zero, mul_zero]
          exact ⟨trivial, rfl, .zero⟩
      | finite sign' mantissa' exponent' hPositive' =>
          rw [unpackedValue_finite, unpackedValue_finite, ← signed_mul]
          refine rounds_roundWithAccuracy (sign * sign') ?_
            (Aligned.mul_deep hCanonical hCanonical' hPositive hPositive')
          change _ = _
          rw [zpow_add₀ two_ne_zero]
          push_cast
          field_simp

end Product

section Sum

/-- What is already in the format is rounded to itself. This covers a sum in which one of the
numbers is zero. -/
theorem rounds_self {number : UnpackedFloat} (hFinite : number.isFinite)
    (hCanonical : Canonical number) : Rounds (unpackedValue number) number := by
  cases number with
  | notANumber => cases hFinite
  | infinity sign => cases hFinite
  | zero sign => exact ⟨trivial, rfl, .zero⟩
  | finite sign mantissa exponent hPositive =>
      obtain ⟨hUpper, hLeast, hFull⟩ := hCanonical
      have hPower : (0 : ℚ) < 2 ^ exponent := by positivity
      have hRounds : RoundsTo (mantissa * 2 ^ exponent) (mantissa * 2 ^ exponent) := by
        refine ⟨exponent, mantissa, ⟨hLeast, ?_, ?_⟩, ?_, rfl⟩
        · rw [abs_of_nonneg (by positivity), add_comm, zpow_add₀ two_ne_zero]
          gcongr
          exact_mod_cast hUpper
        · refine hFull.imp_left fun hMantissa => ?_
          rw [abs_of_nonneg (by positivity), add_comm, zpow_add₀ two_ne_zero]
          gcongr
          exact_mod_cast hMantissa
        · rw [mul_div_cancel_right₀ _ hPower.ne']
          exact .of_abs_lt (by simp)
      exact ⟨⟨hUpper, hLeast, hFull⟩, rfl, hRounds.signed sign⟩

/-- Rounding from any width. A short mantissa is first filled up with zeros, which does not
change the number. -/
theorem rounds_round (sign : Sign) {mantissa : ℕ} (hPositive : 0 < mantissa) (exponent : ℤ) :
    Rounds (signed sign (mantissa * 2 ^ exponent))
      (UnpackedFloat.round Format.binary64 sign mantissa exponent) := by
  simp only [UnpackedFloat.round, decreaseExponent, Nat.shiftLeft_eq, targetExponent_eq,
    totalExponent]
  generalize hSteps : (exponent - max ((mantissa.log2 : ℤ) + 1 + exponent - 53) (-1074)).toNat =
    steps
  apply rounds_roundWithAccuracy
  · change _ = _
    rw [zpow_sub₀ two_ne_zero, zpow_natCast]
    push_cast
    field_simp
  · rcases le_or_gt (exponent - steps) (-1074) with hLeast | hNormal
    · exact Or.inr hLeast
    · left
      calc 2 ^ 52 ≤ 2 ^ (mantissa.log2 + steps) := by
            apply Nat.pow_le_pow_right two_pos
            omega
        _ = 2 ^ mantissa.log2 * 2 ^ steps := pow_add _ _ _
        _ ≤ mantissa * 2 ^ steps := by
            gcongr
            exact Nat.log2_self_le hPositive.ne'

/-- An integer at some scale is rounded once, whatever its sign is. Zero takes the sign that it
is given. -/
theorem rounds_normalize (mantissa : ℤ) (exponent : ℤ) (zeroSign : Sign) :
    Rounds (mantissa * 2 ^ exponent)
      (UnpackedFloat.normalize Format.binary64 mantissa exponent zeroSign) := by
  rw [UnpackedFloat.normalize]
  rcases lt_trichotomy mantissa 0 with hNegative | rfl | hPositive
  · obtain ⟨magnitude, rfl⟩ := Int.exists_eq_neg_ofNat hNegative.le
    rw [compare_lt_iff_lt.mpr hNegative]
    have hRounds := rounds_round .negative (by omega : 0 < magnitude) exponent
    simpa [signed] using hRounds
  · rw [compare_eq_iff_eq.mpr rfl, Int.cast_zero, zero_mul]
    exact ⟨trivial, rfl, .zero⟩
  · obtain ⟨magnitude, rfl⟩ := Int.eq_ofNat_of_zero_le hPositive.le
    rw [compare_gt_iff_gt.mpr hPositive]
    exact rounds_round .positive (by omega) exponent

theorem cast_apply (sign : Sign) (magnitude : ℤ) :
    ((sign.apply magnitude : ℤ) : ℚ) = signed sign magnitude := by
  cases sign
  · exact Int.cast_neg magnitude
  · rfl

theorem signed_mul_right (sign : Sign) (left right : ℚ) :
    signed sign (left * right) = signed sign left * right := by
  cases sign
  · exact (neg_mul left right).symm
  · rfl

/-- Lowering an exponent shifts zeros into the mantissa and keeps the number. -/
theorem decreaseExponent_eq (sign : Sign) (mantissa : ℕ) {exponent target : ℤ}
    (hTarget : target ≤ exponent) :
    (sign.apply (decreaseExponent mantissa exponent target).1 : ℚ) * 2 ^ target =
      signed sign (mantissa * 2 ^ exponent) := by
  obtain ⟨steps, rfl⟩ := Int.le.dest hTarget
  rw [cast_apply, ← signed_mul_right]
  congr 1
  simp only [decreaseExponent, add_sub_cancel_left, Int.toNat_natCast, Nat.shiftLeft_eq]
  rw [zpow_add₀ two_ne_zero, zpow_natCast]
  push_cast
  ring

/-- An addition is rounded once, from the exact sum. At the lower of the two exponents both
numbers are integers, and so is their sum. -/
theorem rounds_add {first second : UnpackedFloat} (hFirst : first.isFinite)
    (hSecond : second.isFinite) (hCanonical : Canonical first) (hCanonical' : Canonical second) :
    Rounds (unpackedValue first + unpackedValue second)
      (UnpackedFloat.add Format.binary64 first second) := by
  cases first with
  | notANumber => cases hFirst
  | infinity sign => cases hFirst
  | zero sign =>
      rw [unpackedValue_zero, zero_add]
      cases second with
      | notANumber => cases hSecond
      | infinity sign' => cases hSecond
      | zero sign' =>
          cases sign <;> cases sign' <;> exact ⟨trivial, rfl, .zero⟩
      | finite sign' mantissa exponent hPositive => exact rounds_self hSecond hCanonical'
  | finite sign mantissa exponent hPositive =>
      cases second with
      | notANumber => cases hSecond
      | infinity sign' => cases hSecond
      | zero sign' =>
          rw [unpackedValue_zero, add_zero]
          exact rounds_self hFirst hCanonical
      | finite sign' mantissa' exponent' hPositive' =>
          have hRounds := rounds_normalize
            (sign.apply (decreaseExponent mantissa exponent (min exponent exponent')).1 +
              sign'.apply (decreaseExponent mantissa' exponent' (min exponent exponent')).1)
            (min exponent exponent') .positive
          rw [Int.cast_add, add_mul, decreaseExponent_eq sign mantissa (min_le_left _ _),
            decreaseExponent_eq sign' mantissa' (min_le_right _ _)] at hRounds
          exact hRounds

end Sum

end MapOverlay
