/-! The floor of a binary64 number, computed exactly on its sign, mantissa and
exponent and then confined to 32 bits. No floating-point rounding is involved, so
the result is the mathematical floor wherever that fits. -/
namespace MapOverlay

/-- The greatest integer that is not above `mantissa · 2 ^ exponent`. -/
def floorScaled (mantissa exponent : Int) : Int :=
  if 0 ≤ exponent then mantissa * Int.pow 2 exponent.toNat
  else mantissa / Int.pow 2 (-exponent).toNat

/-- The floor of a number, or the nearer end of the 32-bit range where the floor
lies outside it. Both zeros go to `0`, and so does NaN, which has no floor. -/
def floorInt32 (value : Float) : Int32 :=
  match value.toModel.unpack with
  | .notANumber => 0
  | .zero _ => 0
  | .infinity .positive => Int32.maxValue
  | .infinity .negative => Int32.minValue
  | .finite sign mantissa exponent _ =>
      Int32.ofIntClamp (floorScaled (sign.apply mantissa) exponent)

end MapOverlay
