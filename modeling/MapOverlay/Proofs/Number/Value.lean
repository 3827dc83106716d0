import Mathlib.Algebra.Order.Field.Power
import Mathlib.Data.Rat.Cast.Order
import Mathlib.Tactic.Positivity
import Mathlib.Tactic.Ring

/-! The rational number that a binary64 number stands for. Finite numbers are compared as
the rationals that they stand for, and a result that was rounded to the format is kept as it
is when it is packed into 64 bits, unless it is out of range. -/
namespace MapOverlay

open Float.Model Float.Model.UnpackedFloat

/-- A magnitude with a sign. -/
def signed : Sign → ℚ → ℚ
  | .positive, magnitude => magnitude
  | .negative, magnitude => -magnitude

theorem abs_signed (sign : Sign) (magnitude : ℚ) : |signed sign magnitude| = |magnitude| := by
  cases sign
  · exact abs_neg magnitude
  · rfl

@[simp] theorem signed_zero (sign : Sign) : signed sign 0 = 0 := by
  cases sign
  · exact neg_zero
  · rfl

/-- The value of a finite number, and zero for infinities and NaN. -/
def unpackedValue : UnpackedFloat → ℚ
  | .finite sign mantissa exponent _ => signed sign (mantissa * 2 ^ exponent)
  | .zero _ => 0
  | .infinity _ => 0
  | .notANumber => 0

@[simp] theorem unpackedValue_zero (sign : Sign) : unpackedValue (.zero sign) = 0 :=
  rfl

theorem unpackedValue_finite (sign : Sign) (mantissa : ℕ) (exponent : ℤ)
    (hPositive : 0 < mantissa) :
    unpackedValue (.finite sign mantissa exponent hPositive) =
      signed sign (mantissa * 2 ^ exponent) :=
  rfl

/-- The value of a number as a rational, and zero for infinities and NaN. -/
def value (number : Float) : ℚ :=
  unpackedValue number.toModel.unpack

/-- The mantissa has 53 bits, or fewer at the least exponent. -/
structure Aligned (mantissa : ℕ) (exponent : ℤ) : Prop where
  mantissa_lt : mantissa < 2 ^ 53
  least_le : -1074 ≤ exponent
  full_or_least : 2 ^ 52 ≤ mantissa ∨ exponent = -1074

/-- What rounding leaves, before the exponent is looked at. Numbers in this form are compared
by exponent and mantissa. -/
def Canonical : UnpackedFloat → Prop
  | .finite _ mantissa exponent _ => Aligned mantissa exponent
  | .zero _ => True
  | .infinity _ => True
  | .notANumber => True

/-- What the 64 bits of a number hold: canonical numbers with an exponent that there is room
for. -/
def Storable : UnpackedFloat → Prop
  | .finite _ mantissa exponent _ => Aligned mantissa exponent ∧ exponent ≤ 971
  | .zero _ => True
  | .infinity _ => True
  | .notANumber => True

section Packing

theorem toNat_leading {width : ℕ} (bits : BitVec width) :
    (1#1 ++ bits).toNat = 2 ^ width + bits.toNat := by
  rw [BitVec.toNat_append, ← Nat.shiftLeft_add_eq_or_of_lt bits.isLt, BitVec.toNat_one zero_lt_one,
    Nat.one_shiftLeft]

/-- A sign that was packed is found again. -/
theorem sign_packComponents {spec : Format} (sign : Sign) (exponent : BitVec spec.exponentBits)
    (mantissa : BitVec spec.mantissaBitsWithoutImplicit) :
    Sign.ofBitVec (unpackSign (packComponents spec sign exponent mantissa)) = sign := by
  have hBit : unpackSign (packComponents spec sign exponent mantissa) = sign.toBitVec := by
    ext place hPlace
    obtain rfl : place = 0 := by omega
    unfold unpackSign packComponents
    simp [BitVec.getLsbD_append, BitVec.getElem_append]
  rw [hBit]
  cases sign <;> rfl

/-- What bits stand for, told by their fields. The greatest exponent is kept for infinities and NaN,
and with the least one a mantissa has no leading bit to be left out. -/
inductive Unpacks {spec : Format} (bits : BitVec spec.numBits) : UnpackedFloat → Prop
  | notANumber (top : unpackExponent bits = -1#_) (payload : unpackMantissa bits ≠ 0#_) :
      Unpacks bits .notANumber
  | infinity {sign : Sign} (top : unpackExponent bits = -1#_) (bare : unpackMantissa bits = 0#_)
      (sign_eq : .ofBitVec (unpackSign bits) = sign) : Unpacks bits (.infinity sign)
  | zero {sign : Sign} (below : unpackExponent bits ≠ -1#_) (bottom : unpackExponent bits = 0#_)
      (bare : unpackMantissa bits = 0#_) (sign_eq : .ofBitVec (unpackSign bits) = sign) :
      Unpacks bits (.zero sign)
  | least {sign : Sign} {mantissa : ℕ} {exponent : ℤ} (below : unpackExponent bits ≠ -1#_)
      (bottom : unpackExponent bits = 0#_) (sign_eq : .ofBitVec (unpackSign bits) = sign)
      (mantissa_eq : (unpackMantissa bits).toNat = mantissa)
      (exponent_eq : 1 - (spec.exponentBias + spec.mantissaBitsWithoutImplicit : ℤ) = exponent)
      (positive : 0 < mantissa) : Unpacks bits (.finite sign mantissa exponent positive)
  | ordinary {sign : Sign} {mantissa : ℕ} {exponent : ℤ} (below : unpackExponent bits ≠ -1#_)
      (above : unpackExponent bits ≠ 0#_) (sign_eq : .ofBitVec (unpackSign bits) = sign)
      (mantissa_eq :
        2 ^ spec.mantissaBitsWithoutImplicit + (unpackMantissa bits).toNat = mantissa)
      (exponent_eq : (unpackExponent bits).toNat -
        (spec.exponentBias + spec.mantissaBitsWithoutImplicit : ℤ) = exponent)
      (positive : 0 < mantissa) : Unpacks bits (.finite sign mantissa exponent positive)

theorem unpacks {spec : Format} (bits : BitVec spec.numBits) : Unpacks bits (unpack spec bits) := by
  by_cases hTop : unpackExponent bits = -1#_
  · by_cases hBare : unpackMantissa bits = 0#_
    · have hUnpack : unpack spec bits = _ := (if_pos hTop).trans (if_pos hBare)
      exact hUnpack ▸ .infinity hTop hBare rfl
    · have hUnpack : unpack spec bits = _ := (if_pos hTop).trans (if_neg hBare)
      exact hUnpack ▸ .notANumber hTop hBare
  · by_cases hBottom : unpackExponent bits = 0#_
    · by_cases hBare : unpackMantissa bits = 0#_
      · have hUnpack : unpack spec bits = _ :=
          (if_neg hTop).trans ((if_pos hBottom).trans (dif_pos hBare))
        exact hUnpack ▸ .zero hTop hBottom hBare rfl
      · have hUnpack : unpack spec bits = _ :=
          (if_neg hTop).trans ((if_pos hBottom).trans (dif_neg hBare))
        refine hUnpack ▸ .least hTop hBottom rfl rfl ?_ _
        rw [hBottom, BitVec.toNat_zero]
        omega
    · have hUnpack : unpack spec bits = _ := (if_neg hTop).trans (if_neg hBottom)
      exact hUnpack ▸ .ordinary hTop hBottom rfl (toNat_leading _).symm rfl _

/-- The fields determine what the bits stand for. -/
theorem Unpacks.unpack_eq {spec : Format} {bits : BitVec spec.numBits} {number : UnpackedFloat}
    (hUnpacks : Unpacks bits number) : unpack spec bits = number := by
  cases hUnpacks with
  | notANumber hTop hPayload => exact (if_pos hTop).trans (if_neg hPayload)
  | infinity hTop hBare hSign =>
      exact (if_pos hTop).trans ((if_pos hBare).trans (congrArg UnpackedFloat.infinity hSign))
  | zero hBelow hBottom hBare hSign =>
      exact (if_neg hBelow).trans ((if_pos hBottom).trans
        ((dif_pos hBare).trans (congrArg UnpackedFloat.zero hSign)))
  | least hBelow hBottom hSign hMantissa hExponent hPositive =>
      have hBare : unpackMantissa bits ≠ 0#_ := BitVec.toNat_ne.mpr (hMantissa ▸ hPositive.ne')
      refine (if_neg hBelow).trans ((if_pos hBottom).trans ((dif_neg hBare).trans ?_))
      rw [UnpackedFloat.finite.injEq, ← hExponent, hBottom, BitVec.toNat_zero]
      exact ⟨hSign, hMantissa, by omega⟩
  | ordinary hBelow hAbove hSign hMantissa hExponent hPositive =>
      refine (if_neg hBelow).trans ((if_neg hAbove).trans ?_)
      rw [UnpackedFloat.finite.injEq]
      exact ⟨hSign, (toNat_leading _).trans hMantissa, hExponent⟩

/-- What is unpacked leaves the bits room for it, since it comes from them. Each way to read
the fields gives a mantissa of the right width. -/
theorem storable_unpack (bits : BitVec Format.binary64.numBits) :
    Storable (unpack Format.binary64 bits) := by
  have hBias : ((Format.binary64.exponentBias : ℕ) : ℤ) = 1023 := rfl
  have hWidth : Format.binary64.mantissaBitsWithoutImplicit = 52 := rfl
  have hMantissa : (unpackMantissa bits).toNat < 2 ^ 52 := (unpackMantissa bits).isLt
  have hExponent : (unpackExponent bits).toNat < 2 ^ 11 := (unpackExponent bits).isLt
  have hUnpacks := unpacks bits
  generalize unpack Format.binary64 bits = number at *
  cases hUnpacks with
  | notANumber | infinity | zero => trivial
  | least hBelow hBottom hSign hShort hLeast hPositive =>
      rw [hBias, hWidth] at hLeast
      exact ⟨⟨by omega, by omega, Or.inr (by omega)⟩, by omega⟩
  | ordinary hBelow hAbove hSign hFull hOrdinary hPositive =>
      have hNotTop : (unpackExponent bits).toNat ≠ 2047 := BitVec.toNat_ne.mp hBelow
      have hNotBottom : (unpackExponent bits).toNat ≠ 0 := BitVec.toNat_ne.mp hAbove
      have hFull : 2 ^ 52 + (unpackMantissa bits).toNat = _ := hFull
      rw [hBias, hWidth] at hOrdinary
      exact ⟨⟨by omega, by omega, Or.inl (by omega)⟩, by omega⟩

theorem log2_of_full {mantissa : ℕ} (hLower : 2 ^ 52 ≤ mantissa) (hUpper : mantissa < 2 ^ 53) :
    mantissa.log2 = 52 := by
  have hNonzero : mantissa ≠ 0 := by omega
  have hAtLeast := (Nat.le_log2 hNonzero).mpr hLower
  have hBelow := (Nat.log2_lt hNonzero).mpr hUpper
  omega

/-- What packing writes for a finite number. A mantissa without its leading bit is stored with the
least exponent, and an exponent for which there is no room makes the number infinite. -/
theorem pack_finite (sign : Sign) (mantissa : ℕ) (exponent : ℤ) (hPositive : 0 < mantissa) :
    UnpackedFloat.pack Format.binary64 (.finite sign mantissa exponent hPositive) =
      if 2 ^ 11 ≤ (exponent + 1075).toNat + 1 then packedInfinity Format.binary64 sign
      else if mantissa.log2 + 1 = 53 then
        packComponents Format.binary64 sign (.ofNat 11 (exponent + 1075).toNat) (.ofNat 52 mantissa)
      else packComponents Format.binary64 sign 0#11 (.ofNat 52 mantissa) := by
  have hBias : ((Format.binary64.exponentBias : ℕ) : ℤ) = 1023 := rfl
  have hBiased : (exponent + Format.binary64.exponentBias + (52 : ℕ)).toNat =
      (exponent + 1075).toNat := by omega
  rw [← hBiased]
  rfl

/-- The leading bit of a full mantissa is left out, and the exponent says that it is there. -/
theorem unpack_pack_of_full {sign : Sign} {mantissa : ℕ} {exponent : ℤ} {hPositive : 0 < mantissa}
    (hFull : 2 ^ 52 ≤ mantissa) (hUpper : mantissa < 2 ^ 53) (hLeast : -1074 ≤ exponent)
    (hRange : exponent ≤ 971) :
    (Float.Model.pack (.finite sign mantissa exponent hPositive)).unpack =
      .finite sign mantissa exponent hPositive := by
  have hBias : ((Format.binary64.exponentBias : ℕ) : ℤ) = 1023 := rfl
  have hWidth : Format.binary64.mantissaBitsWithoutImplicit = 52 := rfl
  have hExponent : (BitVec.ofNat 11 (exponent + 1075).toNat).toNat = (exponent + 1075).toNat :=
    Nat.mod_eq_of_lt (by omega)
  have hBelow : (exponent + 1075).toNat ≠ 2047 := by omega
  have hAbove : (exponent + 1075).toNat ≠ 0 := by omega
  have hMantissa : 2 ^ 52 + mantissa % 2 ^ 52 = mantissa := by omega
  change UnpackedFloat.unpack Format.binary64 (UnpackedFloat.pack Format.binary64 _) = _
  rw [pack_finite, if_neg (by omega), if_pos (by rw [log2_of_full hFull hUpper])]
  apply Unpacks.unpack_eq
  apply Unpacks.ordinary _ _ (sign_packComponents _ _ _)
  · rwa [unpackMantissa_packComponents, BitVec.toNat_ofNat]
  · rw [unpackExponent_packComponents, hExponent, hBias, hWidth]
    omega
  · rwa [unpackExponent_packComponents, BitVec.toNat_ne, hExponent]
  · rwa [unpackExponent_packComponents, BitVec.toNat_ne, hExponent]

/-- A shorter mantissa is stored as it is, with the least exponent. -/
theorem unpack_pack_of_short {sign : Sign} {mantissa : ℕ} {hPositive : 0 < mantissa}
    (hShort : mantissa < 2 ^ 52) :
    (Float.Model.pack (.finite sign mantissa (-1074) hPositive)).unpack =
      .finite sign mantissa (-1074) hPositive := by
  have hWidth := (Nat.log2_lt hPositive.ne').mpr hShort
  have hBelow : 0#11 ≠ -1#11 := by decide
  change UnpackedFloat.unpack Format.binary64 (UnpackedFloat.pack Format.binary64 _) = _
  rw [pack_finite, if_neg (by omega), if_neg (by omega)]
  apply Unpacks.unpack_eq
  apply Unpacks.least _ unpackExponent_packComponents (sign_packComponents _ _ _)
  · rw [unpackMantissa_packComponents]
    exact Nat.mod_eq_of_lt hShort
  · rfl
  · rwa [unpackExponent_packComponents]

/-- A number survives being packed where the bits have room for it, whether its mantissa is
full or short. -/
theorem unpack_pack {number : UnpackedFloat} (hStorable : Storable number) :
    (Float.Model.pack number).unpack = number := by
  cases number with
  | notANumber => rfl
  | infinity sign => cases sign <;> rfl
  | zero sign => cases sign <;> rfl
  | finite sign mantissa exponent hPositive =>
      obtain ⟨⟨hUpper, hLeast, hFull⟩, hRange⟩ := hStorable
      rcases le_or_gt (2 ^ 52) mantissa with hLong | hShort
      · exact unpack_pack_of_full hLong hUpper hLeast hRange
      · obtain rfl : exponent = -1074 := hFull.resolve_left hShort.not_ge
        exact unpack_pack_of_short hShort

/-- A number without room for its exponent becomes infinite, with the sign that it has. -/
theorem unpack_pack_of_overflow {sign : Sign} {mantissa : ℕ} {exponent : ℤ}
    {hPositive : 0 < mantissa} (hOverflow : 971 < exponent) :
    (Float.Model.pack (.finite sign mantissa exponent hPositive)).unpack = .infinity sign := by
  have hPacked : UnpackedFloat.pack Format.binary64 (.finite sign mantissa exponent hPositive) =
      packedInfinity Format.binary64 sign := by
    rw [pack_finite, if_pos (by omega)]
  change UnpackedFloat.unpack Format.binary64 (UnpackedFloat.pack Format.binary64 _) = _
  rw [hPacked]
  cases sign <;> rfl

end Packing

section Order

namespace Aligned

variable {first second : ℕ} {low high : ℤ}

/-- A greater exponent outweighs the mantissa, since a mantissa above the least exponent has
its leading bit. -/
theorem lt_of_exponent_lt (hFirst : Aligned first low) (hSecond : Aligned second high)
    (hExponent : low < high) : (first : ℚ) * 2 ^ low < second * 2 ^ high := by
  have hFull : (2 : ℚ) ^ 52 ≤ second := by
    have hLeast := hFirst.least_le
    exact_mod_cast hSecond.full_or_least.resolve_right (by omega)
  have hBound : (first : ℚ) < 2 ^ 53 := by exact_mod_cast hFirst.mantissa_lt
  calc (first : ℚ) * 2 ^ low < 2 ^ 53 * 2 ^ low :=
        mul_lt_mul_of_pos_right hBound (by positivity)
    _ = 2 ^ 52 * 2 ^ (low + 1) := by rw [zpow_add_one₀ two_ne_zero]; ring
    _ ≤ 2 ^ 52 * 2 ^ high := by gcongr; exacts [one_le_two, hExponent]
    _ ≤ second * 2 ^ high := by gcongr

/-- Aligned magnitudes are compared by their exponents first. Only for equal exponents the
mantissas decide. -/
theorem compare_eq (hFirst : Aligned first low) (hSecond : Aligned second high) :
    compare ((first : ℚ) * 2 ^ low) (second * 2 ^ high) =
      (compare low high).then (compare first second) := by
  rcases lt_trichotomy low high with hLess | rfl | hGreater
  · rw [compare_lt_iff_lt.mpr hLess, compare_lt_iff_lt.mpr (hFirst.lt_of_exponent_lt hSecond hLess)]
    rfl
  · rw [compare_eq_iff_eq.mpr rfl, Ordering.eq_then]
    rcases lt_trichotomy first second with hLess | rfl | hGreater
    · rw [compare_lt_iff_lt.mpr hLess, compare_lt_iff_lt]
      gcongr
    · rw [compare_eq_iff_eq.mpr rfl, compare_eq_iff_eq.mpr rfl]
    · rw [compare_gt_iff_gt.mpr hGreater, compare_gt_iff_gt]
      gcongr
  · rw [compare_gt_iff_gt.mpr hGreater,
      compare_gt_iff_gt.mpr (hSecond.lt_of_exponent_lt hFirst hGreater)]
    rfl

end Aligned

theorem compare_neg_neg (first second : ℚ) :
    compare (-first) (-second) = (compare first second).swap := by
  rcases lt_trichotomy first second with hLess | rfl | hGreater
  · rw [compare_lt_iff_lt.mpr hLess, compare_gt_iff_gt.mpr (neg_lt_neg hLess)]
    rfl
  · rw [compare_eq_iff_eq.mpr rfl, compare_eq_iff_eq.mpr rfl]
    rfl
  · rw [compare_gt_iff_gt.mpr hGreater, compare_lt_iff_lt.mpr (neg_lt_neg hGreater)]
    rfl

/-- Finite canonical numbers are ordered as their values are, and both zeros have the value
zero. -/
theorem compare_unpacked {first second : UnpackedFloat} (hFirst : Canonical first)
    (hSecond : Canonical second) (hFiniteFirst : first.isFinite) (hFiniteSecond : second.isFinite) :
    first.compare second = some (compare (unpackedValue first) (unpackedValue second)) := by
  have hMagnitude {mantissa : ℕ} (hPositive : 0 < mantissa) (exponent : ℤ) :
      (0 : ℚ) < mantissa * 2 ^ exponent := by positivity
  cases first with
  | notANumber => cases hFiniteFirst
  | infinity sign => cases hFiniteFirst
  | zero sign =>
      cases second with
      | notANumber => cases hFiniteSecond
      | infinity other => cases hFiniteSecond
      | zero other => exact congrArg some (compare_eq_iff_eq.mpr rfl).symm
      | finite other mantissa exponent hPositive =>
          have hOther := hMagnitude hPositive exponent
          cases other with
          | positive => exact congrArg some (compare_lt_iff_lt.mpr hOther).symm
          | negative => exact congrArg some (compare_gt_iff_gt.mpr (neg_lt_zero.mpr hOther)).symm
  | finite sign mantissa exponent hPositive =>
      have hOne := hMagnitude hPositive exponent
      cases second with
      | notANumber => cases hFiniteSecond
      | infinity other => cases hFiniteSecond
      | zero other =>
          cases sign with
          | positive => exact congrArg some (compare_gt_iff_gt.mpr hOne).symm
          | negative => exact congrArg some (compare_lt_iff_lt.mpr (neg_lt_zero.mpr hOne)).symm
      | finite other mantissa' exponent' hPositive' =>
          have hOther := hMagnitude hPositive' exponent'
          cases sign with
          | positive =>
              cases other with
              | positive => exact congrArg some (Aligned.compare_eq hFirst hSecond).symm
              | negative =>
                  have hOrder := (neg_lt_zero.mpr hOther).trans hOne
                  exact congrArg some (compare_gt_iff_gt.mpr hOrder).symm
          | negative =>
              cases other with
              | positive =>
                  have hOrder := (neg_lt_zero.mpr hOne).trans hOther
                  exact congrArg some (compare_lt_iff_lt.mpr hOrder).symm
              | negative =>
                  have hOrder := congrArg Ordering.swap (Aligned.compare_eq hFirst hSecond)
                  exact congrArg some ((compare_neg_neg _ _).trans hOrder).symm

theorem canonical_of_storable {number : UnpackedFloat} (hStorable : Storable number) :
    Canonical number := by
  cases number with
  | finite sign mantissa exponent hPositive => exact hStorable.1
  | _ => trivial

theorem canonical_toModel (number : Float) : Canonical number.toModel.unpack :=
  canonical_of_storable (storable_unpack _)

theorem lt_iff_compare {first second : Float} : first < second ↔
    first.toModel.unpack.compare second.toModel.unpack = some .lt :=
  decide_eq_true_iff.trans beq_iff_eq

theorem le_iff_compare {first second : Float} : first ≤ second ↔
    (first.toModel.unpack.compare second.toModel.unpack).any Ordering.isLE = true :=
  decide_eq_true_iff

theorem le_of_less {first second : Float} (hLess : first < second) : first ≤ second := by
  rw [le_iff_compare, lt_iff_compare.mp hLess]
  rfl

/-- Finite numbers are ordered as their values are. -/
theorem lt_iff_value_lt {first second : Float} (hFirst : first.isFinite)
    (hSecond : second.isFinite) : first < second ↔ value first < value second := by
  rw [lt_iff_compare, compare_unpacked (canonical_toModel first) (canonical_toModel second) hFirst
    hSecond, Option.some_inj, compare_lt_iff_lt, value, value]

theorem le_iff_value_le {first second : Float} (hFirst : first.isFinite)
    (hSecond : second.isFinite) : first ≤ second ↔ value first ≤ value second := by
  rw [le_iff_compare, compare_unpacked (canonical_toModel first) (canonical_toModel second) hFirst
    hSecond, Option.any_some, Ordering.isLE_iff_ne_gt]
  exact compare_le_iff_le

/-- Infinities and NaN do not lie between finite numbers, so a number with finite bounds has a
value. -/
theorem isFinite_of_between {lower number upper : Float} (hLower : lower ≤ number)
    (hUpper : number ≤ upper) (hFiniteLower : lower.isFinite) (hFiniteUpper : upper.isFinite) :
    number.isFinite := by
  change lower.toModel.unpack.isFinite = true at hFiniteLower
  change upper.toModel.unpack.isFinite = true at hFiniteUpper
  change number.toModel.unpack.isFinite = true
  rw [le_iff_compare] at hLower hUpper
  generalize lower.toModel.unpack = bottom at *
  generalize upper.toModel.unpack = top at *
  cases hNumber : number.toModel.unpack with
  | zero sign => rfl
  | finite sign mantissa exponent hPositive => rfl
  | notANumber =>
      rw [hNumber] at hUpper
      cases hUpper
  | infinity sign =>
      rw [hNumber] at hLower hUpper
      cases sign with
      | positive =>
          cases top with
          | notANumber => cases hFiniteUpper
          | infinity sign => cases hFiniteUpper
          | zero sign => cases hUpper
          | finite sign mantissa exponent hPositive => cases hUpper
      | negative =>
          cases bottom with
          | notANumber => cases hFiniteLower
          | infinity sign => cases hFiniteLower
          | zero sign => cases hLower
          | finite sign mantissa exponent hPositive => cases hLower

end Order

end MapOverlay
