import MapOverlay.Number.DepthOrder
import MapOverlay.Proofs.Number.Value

/-! What the rank of a depth says about the number. Wherever two numbers are ordered, their
ranks are ordered in the same way, and the rank settles what the numbers leave open: zeros of
different sign, and the places of the NaNs. -/
namespace MapOverlay

open Float.Model Float.Model.UnpackedFloat

section Fields

/-- The rank of a magnitude with a sign. Negative ranks descend from `-1`, so that the zeros
differ. -/
def signedRank : Sign → ℤ → ℤ
  | .positive, magnitude => magnitude
  | .negative, magnitude => -1 - magnitude

def Depth.sign (depth : Depth) : Sign :=
  .ofBitVec (@unpackSign Format.binary32 depth.bits.toBitVec)

def Depth.exponentField (depth : Depth) : BitVec 8 :=
  @unpackExponent Format.binary32 depth.bits.toBitVec

def Depth.mantissaField (depth : Depth) : BitVec 23 :=
  @unpackMantissa Format.binary32 depth.bits.toBitVec

/-- What a depth stands for in the binary32 format. -/
def Depth.unpacked (depth : Depth) : UnpackedFloat :=
  unpack Format.binary32 depth.bits.toBitVec

theorem Depth.unpacks (depth : Depth) :
    @Unpacks Format.binary32 depth.bits.toBitVec depth.unpacked :=
  @MapOverlay.unpacks Format.binary32 depth.bits.toBitVec

theorem toNat_sign (depth : Depth) : depth.sign.toBitVec.toNat = depth.bits.toNat / 2 ^ 31 := by
  have hKept : ∀ bit : BitVec 1, (Sign.ofBitVec bit).toBitVec = bit := by decide
  have hBits := depth.bits.toNat_lt
  rw [Depth.sign, hKept]
  unfold unpackSign
  simp only [BitVec.toNat_cast, BitVec.extractLsb_toNat, Nat.shiftRight_eq_div_pow,
    UInt32.toNat_toBitVec]
  exact Nat.mod_eq_of_lt (by omega)

theorem toNat_exponentField (depth : Depth) :
    depth.exponentField.toNat = depth.bits.toNat / 2 ^ 23 % 2 ^ 8 := by
  simp [Depth.exponentField, unpackExponent, Nat.shiftRight_eq_div_pow]

theorem toNat_mantissaField (depth : Depth) :
    depth.mantissaField.toNat = depth.bits.toNat % 2 ^ 23 := by
  simp [Depth.mantissaField, unpackMantissa]

/-- Sign, exponent and mantissa stand one after the other and leave no bit out. -/
theorem toNat_bits_eq (depth : Depth) :
    depth.bits.toNat = depth.sign.toBitVec.toNat * 2 ^ 31 + depth.exponentField.toNat * 2 ^ 23 +
      depth.mantissaField.toNat := by
  rw [toNat_sign, toNat_exponentField, toNat_mantissaField]
  omega

/-- Exponent and mantissa together are the magnitude that the rank counts. The sign bit only
says in which direction. -/
theorem depthRank_eq_signedRank (depth : Depth) :
    depthRank depth =
      signedRank depth.sign (depth.exponentField.toNat * 2 ^ 23 + depth.mantissaField.toNat) := by
  have hBits := toNat_bits_eq depth
  have hExponent := depth.exponentField.isLt
  have hMantissa := depth.mantissaField.isLt
  cases hSign : depth.sign with
  | positive =>
      have hClear : (Sign.toBitVec .positive).toNat = 0 := rfl
      rw [hSign] at hBits
      simp only [depthRank, signedRank]
      rw [if_pos (by omega)]
      omega
  | negative =>
      have hSet : (Sign.toBitVec .negative).toNat = 1 := rfl
      rw [hSign] at hBits
      simp only [depthRank, signedRank]
      rw [if_neg (by omega)]
      omega

end Fields

section Numbers

/-- The rank of a number by what it stands for. A mantissa counts steps of the format, and an
exponent that is higher by one comes `2 ^ 23` steps later. -/
def rankUnpacked : UnpackedFloat → ℤ
  | .finite sign mantissa exponent _ => signedRank sign ((exponent + 149) * 2 ^ 23 + mantissa)
  | .zero sign => signedRank sign 0
  | .infinity sign => signedRank sign (255 * 2 ^ 23)
  | .notANumber => 0

theorem rankUnpacked_infinity (sign : Sign) :
    rankUnpacked (.infinity sign) = signedRank sign (255 * 2 ^ 23) :=
  rfl

theorem rankUnpacked_zero (sign : Sign) : rankUnpacked (.zero sign) = signedRank sign 0 :=
  rfl

theorem rankUnpacked_finite (sign : Sign) (mantissa : ℕ) (exponent : ℤ) (hPositive : 0 < mantissa) :
    rankUnpacked (.finite sign mantissa exponent hPositive) =
      signedRank sign ((exponent + 149) * 2 ^ 23 + mantissa) :=
  rfl

/-- What 32 bits hold where they hold a number: the mantissa has 24 bits, or fewer at the least
exponent. -/
def Ranked : UnpackedFloat → Prop
  | .finite _ mantissa exponent _ => mantissa < 2 ^ 24 ∧ -149 ≤ exponent ∧ exponent ≤ 104 ∧
      (2 ^ 23 ≤ mantissa ∨ exponent = -149)
  | .zero _ => True
  | .infinity _ => True
  | .notANumber => False

/-- The leading bit of a full mantissa is a step of the exponent field, so both ways to store a
finite number lead to the same count of steps. -/
theorem ranked_unpacked {depth : Depth} (hNumber : depth.unpacked ≠ .notANumber) :
    Ranked depth.unpacked ∧ depthRank depth = rankUnpacked depth.unpacked := by
  have hBias : ((Format.binary32.exponentBias : ℕ) : ℤ) = 127 := rfl
  have hWidth : ((Format.binary32.mantissaBitsWithoutImplicit : ℕ) : ℤ) = 23 := rfl
  have hMantissa : depth.mantissaField.toNat < 2 ^ 23 := depth.mantissaField.isLt
  have hExponent : depth.exponentField.toNat < 2 ^ 8 := depth.exponentField.isLt
  have hUnpacks := depth.unpacks
  rw [depthRank_eq_signedRank]
  generalize depth.unpacked = number at *
  cases hUnpacks with
  | notANumber => exact absurd rfl hNumber
  | infinity hTop hBare hSign =>
      have hTop : depth.exponentField.toNat = 255 := congrArg BitVec.toNat hTop
      have hBare : depth.mantissaField.toNat = 0 := congrArg BitVec.toNat hBare
      rw [hTop, hBare, ← hSign]
      exact ⟨trivial, rfl⟩
  | zero hBelow hBottom hBare hSign =>
      have hBottom : depth.exponentField.toNat = 0 := congrArg BitVec.toNat hBottom
      have hBare : depth.mantissaField.toNat = 0 := congrArg BitVec.toNat hBare
      rw [hBottom, hBare, ← hSign]
      exact ⟨trivial, rfl⟩
  | least hBelow hBottom hSign hShort hLeast hPositive =>
      have hBottom : depth.exponentField.toNat = 0 := congrArg BitVec.toNat hBottom
      have hShort : depth.mantissaField.toNat = _ := hShort
      rw [hBias, hWidth] at hLeast
      refine ⟨⟨by omega, by omega, by omega, Or.inr (by omega)⟩, ?_⟩
      rw [rankUnpacked_finite, ← hSign]
      congr 1
      omega
  | ordinary hBelow hAbove hSign hFull hOrdinary hPositive =>
      have hBelow : depth.exponentField.toNat ≠ 255 := BitVec.toNat_ne.mp hBelow
      have hAbove : depth.exponentField.toNat ≠ 0 := BitVec.toNat_ne.mp hAbove
      have hFull : 2 ^ 23 + depth.mantissaField.toNat = _ := hFull
      have hOrdinary : (depth.exponentField.toNat : ℤ) - _ = _ := hOrdinary
      rw [hBias, hWidth] at hOrdinary
      refine ⟨⟨by omega, by omega, by omega, Or.inl (by omega)⟩, ?_⟩
      rw [rankUnpacked_finite, ← hSign]
      congr 1
      omega

/-- A higher exponent outweighs the mantissa, which is full above the least exponent. Where
exponents are equal, the mantissas decide. -/
theorem steps_lt_of_compare {first second : ℕ} {low high : ℤ} (hFirst : first < 2 ^ 24)
    (hLeast : -149 ≤ low) (hSecond : 2 ^ 23 ≤ second ∨ high = -149)
    (hLess : (compare low high).then (compare first second) = .lt) :
    (low + 149) * 2 ^ 23 + first < (high + 149) * 2 ^ 23 + (second : ℤ) := by
  rcases Ordering.then_eq_lt.mp hLess with hExponent | ⟨hExponent, hMantissa⟩
  · have hLower := compare_lt_iff_lt.mp hExponent
    omega
  · have hEqual := compare_eq_iff_eq.mp hExponent
    have hLower := compare_lt_iff_lt.mp hMantissa
    omega

/-- The steps of a finite number lie between those of zero and infinity, so finite numbers rank
between the two. -/
theorem steps_bounds {sign : Sign} {mantissa : ℕ} {exponent : ℤ} {hPositive : 0 < mantissa}
    (hRanked : Ranked (.finite sign mantissa exponent hPositive)) :
    0 < (exponent + 149) * 2 ^ 23 + (mantissa : ℤ) ∧
      (exponent + 149) * 2 ^ 23 + (mantissa : ℤ) < 255 * 2 ^ 23 := by
  obtain ⟨hShort, hLeast, hMost, _⟩ := hRanked
  omega

/-- Numbers that the format orders have ranks in the same order. Among negative numbers the greater
magnitude is the lesser number. -/
theorem rankUnpacked_lt_of_compare {first second : UnpackedFloat} (hFirst : Ranked first)
    (hSecond : Ranked second) (hLess : first.compare second = some .lt) :
    rankUnpacked first < rankUnpacked second := by
  cases first with
  | notANumber => exact hFirst.elim
  | infinity sign | zero sign =>
      cases second with
      | notANumber => exact hSecond.elim
      | infinity other | zero other =>
          cases sign <;> cases other <;> cases hLess <;> decide
      | finite other mantissa exponent hPositive =>
          obtain ⟨hLower, hUpper⟩ := steps_bounds hSecond
          rw [rankUnpacked_finite]
          cases sign <;> cases other <;> cases hLess <;>
            simp only [rankUnpacked_infinity, rankUnpacked_zero, signedRank] <;> omega
  | finite sign mantissa exponent hPositive =>
      obtain ⟨hLower, hUpper⟩ := steps_bounds hFirst
      cases second with
      | notANumber => exact hSecond.elim
      | infinity other | zero other =>
          rw [rankUnpacked_finite]
          cases sign <;> cases other <;> cases hLess <;>
            simp only [rankUnpacked_infinity, rankUnpacked_zero, signedRank] <;> omega
      | finite other mantissa' exponent' hPositive' =>
          obtain ⟨hLower', hUpper'⟩ := steps_bounds hSecond
          obtain ⟨hShort, hLeast, _, hFull⟩ := hFirst
          obtain ⟨hShort', hLeast', _, hFull'⟩ := hSecond
          cases sign with
          | positive =>
              cases other with
              | positive => exact steps_lt_of_compare hShort hLeast hFull' (Option.some.inj hLess)
              | negative => cases hLess
          | negative =>
              cases other with
              | positive =>
                  rw [rankUnpacked_finite, rankUnpacked_finite, signedRank, signedRank]
                  omega
              | negative =>
                  have hGreater :
                      (compare exponent' exponent).then (compare mantissa' mantissa) = .lt := by
                    rw [Std.OrientedOrd.eq_swap (a := exponent'),
                      Std.OrientedOrd.eq_swap (a := mantissa'), ← Ordering.swap_then]
                    exact Option.some.inj hLess
                  have hSteps := steps_lt_of_compare hShort' hLeast' hFull hGreater
                  rw [rankUnpacked_finite, rankUnpacked_finite, signedRank, signedRank]
                  omega

/-- The rank follows the order of the numbers. Two NaNs or two zeros are not in that order, and
nothing is said about them here. -/
theorem depthRank_lt_of_lt {first second : Float32} (hLess : first < second) :
    depthRank first < depthRank second := by
  have hCompare : (Depth.unpacked first).compare (Depth.unpacked second) = some .lt :=
    beq_iff_eq.mp (decide_eq_true_iff.mp hLess)
  have hFirst : Depth.unpacked first ≠ .notANumber := by
    intro hNaN
    rw [hNaN] at hCompare
    cases hCompare
  have hSecond : Depth.unpacked second ≠ .notANumber := by
    intro hNaN
    rw [hNaN] at hCompare
    cases hUnpacked : Depth.unpacked first <;> rw [hUnpacked] at hCompare <;> cases hCompare
  obtain ⟨hRankedFirst, hRankFirst⟩ := ranked_unpacked hFirst
  obtain ⟨hRankedSecond, hRankSecond⟩ := ranked_unpacked hSecond
  rw [hRankFirst, hRankSecond]
  exact rankUnpacked_lt_of_compare hRankedFirst hRankedSecond hCompare

end Numbers

section TotalOrder

/-- The total order of the format. It extends the order of the numbers, puts the negative zero
before the positive one and the NaNs of either sign beyond the infinity of that sign, and goes
by the bits among depths of one sign. -/
structure Depth.TotallyRanked (rank : Depth → ℤ) : Prop where
  injective : Function.Injective rank
  lt_of_lt : ∀ first second : Float32, first < second → rank first < rank second
  zeros : rank (-0.0 : Float32) < rank (0.0 : Float32)
  positive_nan : ∀ depth : Depth, depth.unpacked = .notANumber → depth.sign = .positive →
    rank (1 / 0 : Float32) < rank depth
  negative_nan : ∀ depth : Depth, depth.unpacked = .notANumber → depth.sign = .negative →
    rank depth < rank (-1 / 0 : Float32)
  positive_bits : ∀ first second : Depth, first.sign = .positive → second.sign = .positive →
    first.bits < second.bits → rank first < rank second
  negative_bits : ∀ first second : Depth, first.sign = .negative → second.sign = .negative →
    first.bits < second.bits → rank second < rank first

/-- A NaN has the greatest exponent and some payload. -/
theorem fields_of_notANumber {depth : Depth} (hNaN : depth.unpacked = .notANumber) :
    depth.exponentField.toNat = 255 ∧ 0 < depth.mantissaField.toNat := by
  have hUnpacks := depth.unpacks
  rw [hNaN] at hUnpacks
  cases hUnpacks with
  | notANumber hTop hPayload =>
      exact ⟨congrArg BitVec.toNat hTop, Nat.pos_of_ne_zero (BitVec.toNat_ne.mp hPayload)⟩

theorem depthRank_of_positive {depth : Depth} (hSign : depth.sign = .positive) :
    depthRank depth = depth.bits.toNat := by
  have hClear : (Sign.toBitVec .positive).toNat = 0 := rfl
  rw [depthRank_eq_signedRank, toNat_bits_eq, hSign, signedRank]
  omega

/-- With the sign bit the rank descends as the bits ascend, from below all positive ranks. -/
theorem depthRank_of_negative {depth : Depth} (hSign : depth.sign = .negative) :
    depthRank depth = 2 ^ 31 - 1 - depth.bits.toNat := by
  have hSet : (Sign.toBitVec .negative).toNat = 1 := rfl
  rw [depthRank_eq_signedRank, toNat_bits_eq, hSign, signedRank]
  omega

/-- The rank that drawings are sorted by is the total order of the format, for every sign and
payload of a NaN. -/
theorem depthRank_totallyRanked : Depth.TotallyRanked depthRank where
  injective _ _ := eq_of_depthRank_eq
  lt_of_lt _ _ := depthRank_lt_of_lt
  zeros := by decide +kernel
  positive_nan depth hNaN hSign := by
    have hInfinity : depthRank (1 / 0 : Float32) = 255 * 2 ^ 23 := by decide +kernel
    obtain ⟨hTop, hPayload⟩ := fields_of_notANumber hNaN
    rw [hInfinity, depthRank_eq_signedRank, hSign, signedRank]
    omega
  negative_nan depth hNaN hSign := by
    have hInfinity : depthRank (-1 / 0 : Float32) = -1 - 255 * 2 ^ 23 := by decide +kernel
    obtain ⟨hTop, hPayload⟩ := fields_of_notANumber hNaN
    rw [hInfinity, depthRank_eq_signedRank, hSign, signedRank]
    omega
  positive_bits first second hFirst hSecond hBits := by
    rw [depthRank_of_positive hFirst, depthRank_of_positive hSecond]
    exact_mod_cast UInt32.lt_iff_toNat_lt.mp hBits
  negative_bits first second hFirst hSecond hBits := by
    have hNat := UInt32.lt_iff_toNat_lt.mp hBits
    rw [depthRank_of_negative hFirst, depthRank_of_negative hSecond]
    omega

end TotalOrder

end MapOverlay
