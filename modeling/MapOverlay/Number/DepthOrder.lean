/-! A total order on depths. The comparison of binary32 numbers leaves zeros tied and NaN
incomparable, so drawing order is taken from the bits instead. -/
namespace MapOverlay

/-- A binary32 number of which only its place among all others matters. It is kept as its
bits, so NaNs of either sign and with any payload have places of their own. -/
structure Depth where
  bits : UInt32
deriving DecidableEq

namespace Depth

def ofFloat32 (number : Float32) : Depth :=
  ⟨number.toBits⟩

/-- The number at a depth, which is the same for all NaNs. -/
def toFloat32 (depth : Depth) : Float32 :=
  .ofBits depth.bits

instance : Coe Float32 Depth where
  coe := ofFloat32

instance : Coe Depth Float32 where
  coe := toFloat32

instance (number : Nat) : OfNat Depth number where
  ofNat := ofFloat32 (.ofNat number)

end Depth

/-- The rank of a depth among all depths. Without the sign bit the bits already ascend with
the value, and with it they ascend with the magnitude. Hence `-0.0` ranks just below `0.0`,
a positive NaN above infinity and a negative one below all numbers. -/
def depthRank (depth : Depth) : Int :=
  let bits := depth.bits.toNat
  if bits < 0x80000000 then bits else 0x7fffffff - bits

/-- Only depths of the same bits share a rank. -/
theorem eq_of_depthRank_eq {first second : Depth} (hRank : depthRank first = depthRank second) :
    first = second := by
  obtain ⟨first⟩ := first
  obtain ⟨second⟩ := second
  have hFirst := first.toNat_lt
  have hSecond := second.toNat_lt
  congr 1
  apply UInt32.toNat_inj.mp
  simp only [depthRank] at hRank
  split at hRank <;> split at hRank <;> omega

/-- Whether `first` may be drawn before `second`. -/
def notDeeper (first second : Depth) : Bool :=
  depthRank first ≤ depthRank second

theorem notDeeper_trans (first second third : Depth) (hLeft : notDeeper first second)
    (hRight : notDeeper second third) : notDeeper first third := by
  simp only [notDeeper, decide_eq_true_eq] at hLeft hRight ⊢
  omega

theorem notDeeper_total (first second : Depth) :
    notDeeper first second || notDeeper second first := by
  simp only [notDeeper, Bool.or_eq_true, decide_eq_true_eq]
  omega

end MapOverlay
