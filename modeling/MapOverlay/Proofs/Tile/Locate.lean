import Mathlib.Tactic.LinearCombination
import MapOverlay.Proofs.Number.Truncation
import MapOverlay.Proofs.Tile.Grid

/-! The tile that a point is placed in. No rounded quotient crosses an edge other than the
origin: the exact one is a fraction with denominator 45 and a power of two, so it lies
further away from every other edge than the error of the division. -/
namespace MapOverlay

section Quotient

variable {quotient rounded : ℚ}

/-- A number that is closer to its rounded form than to a threshold is not moved across it.
Between the two there is not enough room. -/
theorem le_iff_of_abs_sub_lt {threshold : ℚ}
    (hCloser : |quotient - rounded| < |quotient - threshold|) :
    threshold ≤ rounded ↔ threshold ≤ quotient := by
  obtain ⟨hLower, hUpper⟩ := abs_lt.mp hCloser
  rcases le_or_gt threshold quotient with hBelow | hAbove
  · rw [abs_of_nonneg (sub_nonneg.mpr hBelow)] at hUpper
    exact iff_of_true (by linarith) hBelow
  · rw [abs_of_neg (sub_neg.mpr hAbove)] at hLower
    exact iff_of_false (by linarith) hAbove.not_ge

variable {integer exponent threshold : ℤ}

/-- Two different fractions of the denominator 45 are at least one step apart. The step is a
power of two, and the rounding error is smaller. -/
theorem step_le_of_ne (hFraction : 45 * quotient = integer * 2 ^ exponent)
    (hOther : quotient ≠ threshold) : (2 : ℚ) ^ min exponent 0 ≤ 45 * |quotient - threshold| := by
  obtain ⟨above, hAbove⟩ := Int.le.dest (min_le_left exponent 0)
  obtain ⟨below, hBelow⟩ := Int.le.dest (min_le_right exponent 0)
  generalize min exponent 0 = low at *
  have hUnit : (2 : ℚ) ^ low * 2 ^ below = 1 := by
    rw [← zpow_natCast, ← zpow_add₀ two_ne_zero, hBelow, zpow_zero]
  have hSteps : 45 * (quotient - threshold) =
      ((integer * 2 ^ above - 45 * threshold * 2 ^ below : ℤ) : ℚ) * 2 ^ low := by
    rw [mul_sub, hFraction, ← hAbove, zpow_add₀ two_ne_zero, zpow_natCast]
    push_cast
    linear_combination (45 * threshold : ℚ) * hUnit
  have hNonzero : integer * 2 ^ above - 45 * threshold * 2 ^ below ≠ 0 := by
    intro hZero
    rw [hZero, Int.cast_zero, zero_mul, mul_eq_zero] at hSteps
    exact hOther (sub_eq_zero.mp (hSteps.resolve_left (by norm_num)))
  calc (2 : ℚ) ^ low ≤ |45 * (quotient - threshold)| := by
        rw [hSteps]
        exact le_abs_intCast_mul hNonzero (by positivity)
    _ = 45 * |quotient - threshold| := by rw [abs_mul, abs_of_pos (by norm_num : (0 : ℚ) < 45)]

/-- The relative error of a quotient is less than its distance from any edge in reach. A number
of ordinary size has a small error, and a greater one is far from the edges. -/
theorem relative_error_lt (hInteger : |integer| < 2 ^ 53)
    (hFraction : 45 * quotient = integer * 2 ^ exponent) (hThreshold : |threshold| < 2 ^ 31)
    (hOther : quotient ≠ threshold) : |quotient| * 2 ^ (-53 : ℤ) < |quotient - threshold| := by
  have hStep := step_le_of_ne hFraction hOther
  rcases le_or_gt exponent 0 with hSmallPower | hLargePower
  · rw [min_eq_left hSmallPower] at hStep
    have hBound : |(integer : ℚ)| < 2 ^ (53 : ℤ) := by exact_mod_cast hInteger
    have hPower : (0 : ℚ) < 2 ^ exponent := by positivity
    have hMagnitude : 45 * |quotient| < 2 ^ (53 : ℤ) * 2 ^ exponent := by
      calc 45 * |quotient| = |45 * quotient| := by
            rw [abs_mul, abs_of_pos (by norm_num : (0 : ℚ) < 45)]
        _ = |(integer : ℚ)| * 2 ^ exponent := by rw [hFraction, abs_mul, abs_of_pos hPower]
        _ < 2 ^ (53 : ℤ) * 2 ^ exponent := by gcongr
    have hScaled : 45 * (|quotient| * 2 ^ (-53 : ℤ)) < 2 ^ exponent := by
      calc 45 * (|quotient| * 2 ^ (-53 : ℤ)) = 45 * |quotient| * 2 ^ (-53 : ℤ) := by ring
        _ < 2 ^ (53 : ℤ) * 2 ^ exponent * 2 ^ (-53 : ℤ) := by gcongr
        _ = 2 ^ exponent := by
          rw [mul_right_comm, ← zpow_add₀ two_ne_zero]
          norm_num
    linarith
  · rw [min_eq_right hLargePower.le, zpow_zero] at hStep
    have hBound : |(threshold : ℚ)| < 2 ^ 31 := by exact_mod_cast hThreshold
    have hFactor : (2 : ℚ) ^ (-53 : ℤ) = 1 / 2 ^ 53 := by norm_num
    rw [hFactor]
    rcases le_or_gt |quotient| (2 ^ 40) with hOrdinary | hLarge
    · linarith
    · have hDistance := abs_sub_abs_le_abs_sub quotient threshold
      linarith

/-- Rounding a quotient respects every edge except the origin. The error is relative, or the
quotient is among the least numbers, from where the edges are out of sight. -/
theorem RoundsTo.edge_le_iff (hRounds : RoundsTo quotient rounded) (hInteger : |integer| < 2 ^ 53)
    (hFraction : 45 * quotient = integer * 2 ^ exponent) (hThreshold : |threshold| < 2 ^ 31)
    (hNonzero : threshold ≠ 0) : (threshold : ℚ) ≤ rounded ↔ (threshold : ℚ) ≤ quotient := by
  by_cases hOther : quotient = threshold
  · rw [hRounds.eq_of_dyadic (hOther ▸ .of_int (hThreshold.trans (by norm_num)))]
  · apply le_iff_of_abs_sub_lt
    rcases hRounds.abs_sub_le with hRelative | ⟨hSmall, hAbsolute⟩
    · exact hRelative.trans_lt (relative_error_lt hInteger hFraction hThreshold hOther)
    · have hOne : (1 : ℚ) ≤ |(threshold : ℚ)| := by exact_mod_cast Int.one_le_abs hNonzero
      have hSmallest {power : ℤ} (hPower : power ≤ -2) : (2 : ℚ) ^ power ≤ 1 / 4 :=
        (zpow_le_zpow_right₀ one_le_two hPower).trans_eq (by norm_num)
      have hQuotientSmall := hSmall.trans_le (hSmallest (by norm_num))
      have hErrorSmall := hAbsolute.trans (hSmallest (by norm_num))
      have hDistance := abs_sub_abs_le_abs_sub (threshold : ℚ) quotient
      rw [abs_sub_comm] at hDistance
      linarith

end Quotient

section Position

variable (zoom : Zoom)

/-- A negative coordinate so close to the origin that nothing is left of its quotient. -/
def Zoom.Vanishing (coordinate : ℚ) : Prop :=
  -(zoom.sideLength * 2 ^ (-1075 : ℤ)) ≤ coordinate ∧ coordinate < 0

instance (coordinate : ℚ) : Decidable (zoom.Vanishing coordinate) :=
  inferInstanceAs (Decidable (_ ∧ _))

theorem Zoom.vanishing_iff {coordinate : ℚ} : zoom.Vanishing coordinate ↔
    -2 ^ (-1075 : ℤ) ≤ coordinate / zoom.sideLength ∧ coordinate / zoom.sideLength < 0 := by
  rw [Vanishing, le_div_iff₀ zoom.sideLength_pos, div_lt_iff₀ zoom.sideLength_pos, zero_mul,
    neg_mul, mul_comm]

/-- The exact quotient still has a floor of its own, which is one less than the floor of the
rounded one. -/
theorem Zoom.floor_of_vanishing {coordinate : ℚ} (hVanishing : zoom.Vanishing coordinate) :
    ⌊coordinate / zoom.sideLength⌋ = -1 := by
  obtain ⟨hLower, hUpper⟩ := zoom.vanishing_iff.mp hVanishing
  have hSmall : (2 : ℚ) ^ (-1075 : ℤ) ≤ 1 := zpow_le_one_of_nonpos₀ one_le_two (by norm_num)
  rw [Int.floor_eq_iff]
  push_cast
  exact ⟨by linarith, by linarith⟩

/-- A quotient by the side in the form that tells it from the edges. Multiplied by 45, it has
as few significant bits as the coordinate. -/
theorem Zoom.exists_fraction (coordinate : Float) : ∃ integer exponent : ℤ, |integer| < 2 ^ 53 ∧
    45 * (value coordinate / zoom.sideLength) = integer * 2 ^ exponent := by
  obtain ⟨integer, exponent, hInteger, _, _, hValue⟩ := dyadic_value coordinate
  refine ⟨integer, exponent - (4 - zoom.level), hInteger, ?_⟩
  rw [hValue, sideLength_eq, zpow_sub₀ two_ne_zero exponent]
  field_simp

/-- The column or row of a coordinate is the floor of the exact quotient, or the nearer end
of the range, with one exception next to the origin. -/
theorem floorInt32_quotient {coordinate : Float} (hFinite : coordinate.isFinite) :
    floorInt32 (coordinate / zoom.side) =
      if zoom.Vanishing (value coordinate) then 0
      else Int32.ofIntClamp ⌊value coordinate / zoom.sideLength⌋ := by
  have hQuotient := (denotes_value hFinite).div zoom.denotes_side zoom.sideLength_pos.ne'
  obtain ⟨rounded, hRounds, hReached⟩ := hQuotient.exists_floorInt32
  obtain ⟨integer, exponent, hInteger, hFraction⟩ := zoom.exists_fraction coordinate
  have hEdge (threshold : ℤ) (hLower : -2 ^ 31 < threshold) (hUpper : threshold < 2 ^ 31)
      (hNonzero : threshold ≠ 0) : threshold ≤ (floorInt32 (coordinate / zoom.side)).toInt ↔
        threshold ≤ ⌊value coordinate / zoom.sideLength⌋ := by
    rw [hReached threshold hLower hUpper, Int.le_floor]
    exact hRounds.edge_le_iff hInteger hFraction (abs_lt.mpr ⟨hLower, hUpper⟩) hNonzero
  have hOrigin := (hReached 0 (by norm_num) (by norm_num)).trans
    (Int.cast_zero (R := ℚ) ▸ hRounds.nonneg_iff)
  by_cases hVanishing : zoom.Vanishing (value coordinate)
  · rw [zoom.floor_of_vanishing hVanishing] at hEdge
    have hReachesOrigin := hOrigin.mpr (zoom.vanishing_iff.mp hVanishing).1
    rw [if_pos hVanishing]
    change _ = Int32.ofIntClamp 0
    refine eq_ofIntClamp fun threshold hLower hUpper => ?_
    rcases eq_or_ne threshold 0 with rfl | hNonzero
    · exact iff_of_true hReachesOrigin le_rfl
    · rw [hEdge threshold hLower hUpper hNonzero]
      omega
  · have hNonneg : -2 ^ (-1075 : ℤ) ≤ value coordinate / zoom.sideLength ↔
        0 ≤ value coordinate / zoom.sideLength := by
      refine ⟨fun hNear => ?_, (neg_nonpos.mpr (by positivity)).trans⟩
      by_contra hNegative
      exact hVanishing (zoom.vanishing_iff.mpr ⟨hNear, not_le.mp hNegative⟩)
    rw [if_neg hVanishing]
    refine eq_ofIntClamp fun threshold hLower hUpper => ?_
    rcases eq_or_ne threshold 0 with rfl | hNonzero
    · rw [hOrigin, hNonneg, Int.floor_nonneg]
    · exact hEdge threshold hLower hUpper hNonzero

/-- The column or row of a coordinate: the floor of the exact quotient, or the outermost column
if the floor lies beyond that, with the exception next to the origin. -/
def Zoom.positionOf (coordinate : ℚ) : ℤ :=
  if zoom.Vanishing coordinate then 0
  else max (-2 ^ 31) (min ⌊coordinate / zoom.sideLength⌋ (2 ^ 31 - 1))

/-- The column or row that is computed for a finite coordinate is the one that its exact
quotient defines. -/
theorem toInt_position {coordinate : Float} (hFinite : coordinate.isFinite) :
    (floorInt32 (coordinate / zoom.side)).toInt = zoom.positionOf (value coordinate) := by
  rw [floorInt32_quotient zoom hFinite, Zoom.positionOf]
  split
  · rfl
  · exact toInt_ofIntClamp_eq _

/-- Between the outermost edges of a level the ends of the 32-bit range play no part, so the
column is the floor unless the coordinate vanishes. -/
theorem toInt_position_of_range {coordinate : Float} (hFinite : coordinate.isFinite)
    (hLower : -2 ^ 31 * zoom.sideLength ≤ value coordinate)
    (hUpper : value coordinate < 2 ^ 31 * zoom.sideLength) :
    (floorInt32 (coordinate / zoom.side)).toInt =
      if zoom.Vanishing (value coordinate) then 0 else ⌊value coordinate / zoom.sideLength⌋ := by
  obtain ⟨hLeast, hGreatest⟩ := (zoom.position_range_iff _).mp ⟨hLower, hUpper⟩
  have hInRange : max (-2 ^ 31) (min ⌊value coordinate / zoom.sideLength⌋ (2 ^ 31 - 1)) =
      ⌊value coordinate / zoom.sideLength⌋ := by omega
  rw [toInt_position zoom hFinite, Zoom.positionOf, hInRange]

/-- Rounding moves no coordinate across an edge of the grid, but for those that vanish. Every
finite point is placed in the column and row that the exact quotients of its coordinates name,
also where a quotient is out of the range of the format or of 32 bits. That holds for the
floor in exact arithmetic and for the one that is found by cutting off. -/
theorem containing_eq_floor {point : Point} (hFinite : point.isFinite) :
    ∃ tile, Tile.containing point zoom = .ok tile ∧ tile.zoom = zoom ∧
      tile.column.toInt = zoom.positionOf (value point.x) ∧
      tile.row.toInt = zoom.positionOf (value point.y) ∧
      tile.column = floorByCutting (point.x / zoom.side) ∧
      tile.row = floorByCutting (point.y / zoom.side) := by
  obtain ⟨hFiniteX, hFiniteY⟩ := Bool.and_eq_true_iff.mp hFinite
  exact ⟨_, Tile.containing_of_finite hFinite zoom, rfl, toInt_position zoom hFiniteX,
    toInt_position zoom hFiniteY, floorInt32_eq_floorByCutting _, floorInt32_eq_floorByCutting _⟩

/-- A coordinate that vanishes and one far beyond the last row. The first is counted to column
zero, and the second to the outermost row. -/
theorem containing_eq_floor_outskirts :
    let point : Point := ⟨Float.ofBits 0x8000000000000001, -1000000000000⟩
    point.isFinite ∧ ∃ tile, Tile.containing point .coarsest = .ok tile ∧
      tile.column.toInt = 0 ∧ tile.row.toInt = -2 ^ 31 := by
  intro point
  have hFinite : point.isFinite := by decide +kernel
  obtain ⟨tile, hTile, _, hColumn, hRow, _⟩ := containing_eq_floor .coarsest hFinite
  have hVanishing : Zoom.coarsest.positionOf (value point.x) = 0 := by decide +kernel
  have hOutermost : Zoom.coarsest.positionOf (value point.y) = -2 ^ 31 := by decide +kernel
  exact ⟨hFinite, tile, hTile, hColumn.trans hVanishing, hRow.trans hOutermost⟩

end Position

section World

/-- The world square with all of its edges. -/
structure Point.InWorld (point : Point) : Prop where
  lower_x : -180 ≤ point.x
  upper_x : point.x ≤ 180
  lower_y : -180 ≤ point.y
  upper_y : point.y ≤ 180

/-- Columns and rows of the world are far from the ends of the 32-bit range, so the floor is
not held back by them. -/
theorem toInt_floorInt32_quotient {coordinate : Float} (hFinite : coordinate.isFinite)
    (hWorld : |value coordinate| ≤ 180) (zoom : Zoom) :
    (floorInt32 (coordinate / zoom.side)).toInt =
      if zoom.Vanishing (value coordinate) then 0 else ⌊value coordinate / zoom.sideLength⌋ := by
  have hSide : 360 / 2 ^ 16 ≤ zoom.sideLength := zoom.sideLength_anti .finest zoom.le_seventeen
  obtain ⟨hLower, hUpper⟩ := abs_le.mp hWorld
  exact toInt_position_of_range zoom hFinite (by linarith) (by linarith)

/-- Within the world the column is the exact floor, unless the coordinate vanishes. -/
theorem floor_eq_position_iff {coordinate : Float} (hFinite : coordinate.isFinite)
    (hWorld : |value coordinate| ≤ 180) (zoom : Zoom) :
    ⌊value coordinate / zoom.sideLength⌋ = (floorInt32 (coordinate / zoom.side)).toInt ↔
      ¬ zoom.Vanishing (value coordinate) := by
  rw [toInt_floorInt32_quotient hFinite hWorld]
  by_cases hVanishing : zoom.Vanishing (value coordinate)
  · rw [if_pos hVanishing, zoom.floor_of_vanishing hVanishing]
    exact iff_of_false (by decide) (not_not.mpr hVanishing)
  · rw [if_neg hVanishing]
    exact iff_of_true rfl hVanishing

theorem finite_of_world {coordinate : Float} (hLower : -180 ≤ coordinate)
    (hUpper : coordinate ≤ 180) : coordinate.isFinite ∧ |value coordinate| ≤ 180 := by
  have hGreatest : Denotes 180 (180 : ℕ) := denotes_ofNat (by norm_num)
  have hFinite := isFinite_of_between hLower hUpper hGreatest.neg.finite hGreatest.finite
  have hCoordinate := denotes_value hFinite
  have hAbove := (hGreatest.neg.le_iff hCoordinate).mp hLower
  have hBelow := (hCoordinate.le_iff hGreatest).mp hUpper
  push_cast at hAbove hBelow
  exact ⟨hFinite, abs_le.mpr ⟨hAbove, hBelow⟩⟩

/-- A point of the world lies in the square of its tile, unless a coordinate vanishes. -/
theorem mem_bounds_locate_iff {point : Point} (hWorld : point.InWorld) (zoom : Zoom) :
    point.isFinite ∧ (point ∈ (Tile.locate point zoom).bounds ↔
      ¬ zoom.Vanishing (value point.x) ∧ ¬ zoom.Vanishing (value point.y)) := by
  obtain ⟨hFiniteX, hWorldX⟩ := finite_of_world hWorld.lower_x hWorld.upper_x
  obtain ⟨hFiniteY, hWorldY⟩ := finite_of_world hWorld.lower_y hWorld.upper_y
  have hFinite : point.isFinite = true := Bool.and_eq_true_iff.mpr ⟨hFiniteX, hFiniteY⟩
  rw [mem_bounds_iff hFinite]
  exact ⟨hFinite, and_congr (floor_eq_position_iff hFiniteX hWorldX zoom)
    (floor_eq_position_iff hFiniteY hWorldY zoom)⟩

/-- Every point of the world has a tile, and lies in its square unless a coordinate vanishes.
This is the exact condition, for every level. -/
theorem exists_containing_mem_bounds_iff {point : Point} (hWorld : point.InWorld) (zoom : Zoom) :
    ∃ tile, Tile.containing point zoom = .ok tile ∧
      (point ∈ tile.bounds ↔
        ¬ zoom.Vanishing (value point.x) ∧ ¬ zoom.Vanishing (value point.y)) := by
  obtain ⟨hFinite, hBounds⟩ := mem_bounds_locate_iff hWorld zoom
  exact ⟨_, Tile.containing_of_finite hFinite zoom, hBounds⟩

/-- A corner of the world, on edges of the finest grid. -/
theorem exists_containing_worldCorner : Point.InWorld ⟨180, -180⟩ ∧
    ∃ tile, Tile.containing ⟨180, -180⟩ .finest = .ok tile ∧ ⟨180, -180⟩ ∈ tile.bounds := by
  have hWorld : Point.InWorld ⟨180, -180⟩ :=
    ⟨by decide +kernel, by decide +kernel, by decide +kernel, by decide +kernel⟩
  obtain ⟨tile, hTile, hBounds⟩ := exists_containing_mem_bounds_iff hWorld .finest
  exact ⟨hWorld, tile, hTile, hBounds.mpr ⟨by decide +kernel, by decide +kernel⟩⟩

/-- The greatest negative number is placed east of the origin, where its square begins. The
square does not contain it, so not every point of the world lies in its square. -/
theorem not_forall_containing_mem_bounds : ¬ ∀ (point : Point) (zoom : Zoom), point.InWorld →
    ∃ tile, Tile.containing point zoom = .ok tile ∧ point ∈ tile.bounds := by
  intro hEvery
  have hWorld : Point.InWorld ⟨Float.ofBits 0x8000000000000001, 0⟩ :=
    ⟨by decide +kernel, by decide +kernel, by decide +kernel, by decide +kernel⟩
  have hOrigin : Tile.containing ⟨Float.ofBits 0x8000000000000001, 0⟩ .coarsest =
      .ok ⟨.coarsest, 0, 0⟩ := by decide +kernel
  obtain ⟨tile, hTile, hBounds⟩ := hEvery _ .coarsest hWorld
  rw [hOrigin, Except.ok.injEq] at hTile
  subst hTile
  exact absurd hBounds (by decide +kernel)

/-- From the ninth level on the sides are less than two, and no quotient is that small. Even
the least number of the format leaves a quotient there. -/
theorem not_vanishing_of_nine_le (coordinate : Float) {zoom : Zoom} (hFine : 9 ≤ zoom.level) :
    ¬ zoom.Vanishing (value coordinate) := by
  rintro ⟨hNear, hNegative⟩
  have hSide : zoom.sideLength ≤ 360 / 2 ^ 8 := Zoom.sideLength_anti { level := 9 } zoom hFine
  have hLeast := (dyadic_value coordinate).least_le_abs hNegative.ne
  rw [abs_of_neg hNegative] at hLeast
  have hHalf : (2 : ℚ) ^ (-1074 : ℤ) = 2 ^ (-1075 : ℤ) * 2 := zpow_add_one₀ two_ne_zero (-1075)
  have hUnit : (0 : ℚ) < 2 ^ (-1075 : ℤ) := by positivity
  have hProduct := mul_le_mul_of_nonneg_right hSide hUnit.le
  linarith

/-- From the ninth level on no coordinate vanishes, so every point of the world lies in the
square of its tile. -/
theorem mem_bounds_of_nine_le {point : Point} (hWorld : point.InWorld) {zoom : Zoom}
    (hFine : 9 ≤ zoom.level) : point ∈ (Tile.locate point zoom).bounds :=
  (mem_bounds_locate_iff hWorld zoom).2.mpr
    ⟨not_vanishing_of_nine_le point.x hFine, not_vanishing_of_nine_le point.y hFine⟩

end World

end MapOverlay
