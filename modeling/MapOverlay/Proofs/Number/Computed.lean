import MapOverlay.Proofs.Number.Arithmetic

/-! What the 64 bits hold after an operation. The exact result is rounded once, and becomes
infinite if it is out of range. A result that the format can express is held as it is. -/
namespace MapOverlay

open Float.Model Float.Model.UnpackedFloat

/-- A finite number that stands for exactly this rational. Facts about exact results are stated
this way. -/
structure Denotes (number : Float) (precise : ℚ) : Prop where
  finite : number.isFinite
  value_eq : value number = precise

theorem denotes_value {number : Float} (hFinite : number.isFinite) :
    Denotes number (value number) :=
  ⟨hFinite, rfl⟩

/-- Numbers that stand for rationals are compared as these are. -/
theorem Denotes.le_iff {first second : Float} {left right : ℚ} (hFirst : Denotes first left)
    (hSecond : Denotes second right) : first ≤ second ↔ left ≤ right := by
  rw [le_iff_value_le hFirst.finite hSecond.finite, hFirst.value_eq, hSecond.value_eq]

theorem Denotes.lt_iff {first second : Float} {left right : ℚ} (hFirst : Denotes first left)
    (hSecond : Denotes second right) : first < second ↔ left < right := by
  rw [lt_iff_value_lt hFirst.finite hSecond.finite, hFirst.value_eq, hSecond.value_eq]

/-- Numbers for one rational compare as equal, also where they are zeros of different signs. -/
theorem Denotes.beq {first second : Float} {precise : ℚ} (hFirst : Denotes first precise)
    (hSecond : Denotes second precise) : first == second := by
  change (first.toModel.unpack.compare second.toModel.unpack == some .eq) = true
  rw [compare_unpacked (canonical_toModel first) (canonical_toModel second) hFirst.finite
    hSecond.finite, beq_iff_eq, Option.some_inj, compare_eq_iff_eq]
  exact hFirst.value_eq.trans hSecond.value_eq.symm

theorem dyadic_value (number : Float) : Dyadic (value number) := by
  have hStorable : Storable number.toModel.unpack := storable_unpack _
  have hZero : Dyadic 0 := ⟨0, 0, by norm_num, by omega, by omega, by norm_num⟩
  rw [value]
  cases hNumber : number.toModel.unpack with
  | finite sign mantissa exponent hPositive =>
      rw [hNumber] at hStorable
      obtain ⟨⟨hUpper, hLeast, _⟩, hRange⟩ := hStorable
      refine ⟨sign.apply mantissa, exponent, ?_, hLeast, hRange, ?_⟩
      · cases sign <;> simp only [Sign.apply, abs_neg, Nat.abs_cast] <;> exact_mod_cast hUpper
      · rw [unpackedValue_finite, signed_mul_right, cast_apply]
        rfl
  | _ => exact hZero

/-- The number that an operation gives for its exact result. It is the rounded result where the
format has room for it, and the infinity of its sign where it has none. -/
inductive Computed (precise : ℚ) (number : Float) : Prop
  | inRange (hFinite : number.isFinite) (hRounds : RoundsTo precise (value number))
  | overflow (sign : Sign) (result : ℚ) (hRounds : RoundsTo precise result)
      (hInfinite : number.toModel.unpack = .infinity sign)
      (hLarge : 2 ^ (1024 : ℤ) ≤ signed sign result)

theorem signed_signed (sign : Sign) (magnitude : ℚ) :
    signed sign (signed sign magnitude) = magnitude := by
  cases sign
  · exact neg_neg magnitude
  · rfl

/-- A rounded result becomes a number of the format, or an infinity if its exponent is too
great. -/
theorem computed_pack {precise : ℚ} {rounded : UnpackedFloat} (hRounds : Rounds precise rounded) :
    Computed precise (.ofModel (Float.Model.pack rounded)) := by
  obtain ⟨hCanonical, hFinite, hRounds⟩ := hRounds
  have hStored (hStorable : Storable rounded) :
      Computed precise (.ofModel (Float.Model.pack rounded)) := by
    have hUnpack := unpack_pack hStorable
    refine .inRange ?_ ?_
    · change (Float.Model.pack rounded).unpack.isFinite = true
      rwa [hUnpack]
    · change RoundsTo precise (unpackedValue (Float.Model.pack rounded).unpack)
      rwa [hUnpack]
  cases rounded with
  | notANumber => cases hFinite
  | infinity sign => cases hFinite
  | zero sign => exact hStored trivial
  | finite sign mantissa exponent hPositive =>
      rcases le_or_gt exponent 971 with hRange | hOverflow
      · exact hStored ⟨hCanonical, hRange⟩
      · refine .overflow sign _ hRounds (unpack_pack_of_overflow hOverflow) ?_
        have hFull : (2 : ℚ) ^ (52 : ℤ) ≤ mantissa := by
          exact_mod_cast hCanonical.full_or_least.resolve_right (by omega)
        rw [unpackedValue_finite, signed_signed]
        calc (2 : ℚ) ^ (1024 : ℤ) = 2 ^ (52 : ℤ) * 2 ^ (972 : ℤ) := by
              rw [← zpow_add₀ two_ne_zero]
              rfl
          _ ≤ (mantissa : ℚ) * 2 ^ exponent := by
              gcongr
              exacts [one_le_two, hOverflow]

namespace Computed

variable {precise : ℚ} {number : Float}

/-- A result within a bound of the format is not out of range, since rounding does not pass the
bound. -/
theorem roundsTo_of_abs_le {bound : ℚ} (hComputed : Computed precise number)
    (hDyadic : Dyadic bound) (hBound : |precise| ≤ bound) :
    number.isFinite ∧ RoundsTo precise (value number) := by
  cases hComputed with
  | inRange hFinite hRounds => exact ⟨hFinite, hRounds⟩
  | overflow sign result hRounds hInfinite hLarge =>
      have hMagnitude := hLarge.trans (le_abs_self _)
      rw [abs_signed] at hMagnitude
      have hResult := (hRounds.abs_le_of_dyadic hDyadic hBound).trans (le_abs_self _)
      exact absurd (hMagnitude.trans hResult) hDyadic.abs_lt.not_ge

/-- A result that the format can express is given exactly, as rounding does not change it. -/
theorem denotes (hComputed : Computed precise number) (hDyadic : Dyadic precise) :
    Denotes number precise := by
  obtain ⟨hFinite, hRounds⟩ := hComputed.roundsTo_of_abs_le hDyadic.abs le_rfl
  exact ⟨hFinite, hRounds.eq_of_dyadic hDyadic⟩

end Computed

section Operations

variable {first second : Float} {left right : ℚ}

/-- A quotient of numbers is their exact quotient, rounded once. -/
theorem Denotes.div (hFirst : Denotes first left) (hSecond : Denotes second right)
    (hNonzero : right ≠ 0) : Computed (left / right) (first / second) := by
  obtain ⟨hFinite, rfl⟩ := hFirst
  obtain ⟨hFinite', rfl⟩ := hSecond
  exact computed_pack (rounds_div hFinite hFinite' hNonzero)

/-- A product of numbers is their exact product, rounded once. -/
theorem Denotes.mul (hFirst : Denotes first left) (hSecond : Denotes second right) :
    Computed (left * right) (first * second) := by
  obtain ⟨hFinite, rfl⟩ := hFirst
  obtain ⟨hFinite', rfl⟩ := hSecond
  exact computed_pack
    (rounds_mul hFinite hFinite' (canonical_toModel first) (canonical_toModel second))

/-- A sum of numbers is their exact sum, rounded once. -/
theorem Denotes.add (hFirst : Denotes first left) (hSecond : Denotes second right) :
    Computed (left + right) (first + second) := by
  obtain ⟨hFinite, rfl⟩ := hFirst
  obtain ⟨hFinite', rfl⟩ := hSecond
  exact computed_pack
    (rounds_add hFinite hFinite' (canonical_toModel first) (canonical_toModel second))

theorem storable_neg {number : UnpackedFloat} (hStorable : Storable number) :
    Storable number.neg := by
  cases number with
  | notANumber | infinity sign | zero sign => trivial
  | finite sign mantissa exponent hPositive => exact hStorable

theorem isFinite_neg (number : UnpackedFloat) : number.neg.isFinite = number.isFinite := by
  cases number <;> rfl

theorem unpackedValue_neg (number : UnpackedFloat) :
    unpackedValue number.neg = -unpackedValue number := by
  cases number with
  | finite sign mantissa exponent hPositive =>
      cases sign
      · exact (neg_neg _).symm
      · rfl
  | _ => exact neg_zero.symm

/-- A change of sign is exact: nothing has to be rounded for it. -/
theorem Denotes.neg (hNumber : Denotes first left) : Denotes first.neg (-left) := by
  obtain ⟨hFinite, rfl⟩ := hNumber
  have hUnpack : first.neg.toModel.unpack = first.toModel.unpack.neg :=
    unpack_pack (storable_neg (storable_unpack _))
  constructor
  · change first.neg.toModel.unpack.isFinite = true
    rw [hUnpack, isFinite_neg]
    exact hFinite
  · rw [value, hUnpack, unpackedValue_neg]
    rfl

end Operations

section Integers

/-- A word below `2 ^ 53` becomes a number without rounding. -/
theorem denotes_toFloat {word : UInt64} (hWord : word.toNat < 2 ^ 53) :
    Denotes word.toFloat word.toNat := by
  have hComputed := computed_pack (rounds_normalize word.toNat 0 .positive)
  rw [zpow_zero, mul_one] at hComputed
  exact hComputed.denotes (Dyadic.of_nat hWord)

theorem denotes_ofNat {integer : ℕ} (hInteger : integer < 2 ^ 53) :
    Denotes (Float.ofNat integer) integer := by
  have hWord : Denotes integer.toUInt64.toFloat integer := by
    have hToNat : integer.toUInt64.toNat = integer := Nat.mod_eq_of_lt (by omega)
    have hDenotes := denotes_toFloat (hToNat.symm ▸ hInteger)
    rwa [hToNat] at hDenotes
  have hOne : Denotes (Float.ofBits 0x3FF0000000000000) 1 := by
    refine ⟨rfl, ?_⟩
    change (2 ^ 52 : ℕ) * (2 : ℚ) ^ (-52 : ℤ) = 1
    norm_num
  have hProduct := hWord.mul hOne
  rw [mul_one] at hProduct
  have hDenotes := hProduct.denotes (Dyadic.of_nat hInteger)
  have hFast : Float.ofNat integer =
      integer.toUInt64.toFloat * Float.ofBits 0x3FF0000000000000 :=
    dif_pos ⟨hInteger, Nat.zero_le 22⟩
  rwa [hFast]

/-- An integer of magnitude below `2 ^ 53` becomes a number without rounding. -/
theorem denotes_ofInt {integer : ℤ} (hInteger : |integer| < 2 ^ 53) :
    Denotes (Float.ofInt integer) integer := by
  cases integer with
  | ofNat magnitude => exact denotes_ofNat (by simpa using hInteger)
  | negSucc magnitude =>
      have hMagnitude : magnitude + 1 < 2 ^ 53 := by
        rw [abs_lt] at hInteger
        omega
      have hDenotes := (denotes_ofNat hMagnitude).neg
      rw [Int.cast_negSucc]
      exact hDenotes

end Integers

end MapOverlay
