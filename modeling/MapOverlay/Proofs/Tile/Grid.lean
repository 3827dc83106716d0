import MapOverlay.Proofs.Number.Floor
import MapOverlay.Tile.Grid

/-! Points and the squares that their tiles cover. Sides and edges are computed exactly, and a
rounded quotient stays on its side of every edge, because the side has the odd factor 45 and
the mantissa of a coordinate is short beside it. The origin is the one edge that can be
crossed: the quotient of a negative coordinate may be too small for the format. -/
namespace MapOverlay

section Edges

/-- The side of a tile as a rational. -/
def Zoom.sideLength (zoom : Zoom) : ℚ :=
  360 / 2 ^ (zoom.level - 1)

variable (zoom : Zoom)

theorem Zoom.sideLength_pos : 0 < zoom.sideLength := by
  rw [sideLength]
  positivity

theorem Zoom.sideLength_anti (coarser finer : Zoom) (hLevel : coarser.level ≤ finer.level) :
    finer.sideLength ≤ coarser.sideLength := by
  rw [sideLength, sideLength]
  gcongr
  exact one_le_two

/-- A side is 45 times a power of two. This is what makes it exact, and what makes its
quotients fractions of 45. -/
theorem Zoom.sideLength_eq : zoom.sideLength = 45 * 2 ^ (4 - zoom.level : ℤ) := by
  obtain ⟨steps, hSteps⟩ := Nat.exists_eq_add_of_le zoom.one_le
  have hExponent : (4 - (1 + steps : ℕ) : ℤ) = 3 - steps := by omega
  rw [sideLength, hSteps, hExponent, Nat.add_sub_cancel_left, zpow_sub₀ two_ne_zero, zpow_natCast]
  ring

theorem Zoom.half_sideLength_eq : zoom.sideLength / 2 = 45 * 2 ^ (3 - zoom.level : ℤ) := by
  have hHalf : (4 - zoom.level : ℤ) = 3 - zoom.level + 1 := by ring
  rw [sideLength_eq, hHalf, zpow_add_one₀ two_ne_zero]
  ring

/-- Half of a side, and each of its multiples that the grid needs, is a number of the format.
Corners and centres are therefore never rounded. -/
theorem Zoom.dyadic_halves {halves : ℤ} {number : ℚ} (hHalves : |halves| ≤ 2 ^ 33)
    (hNumber : number = halves * (zoom.sideLength / 2)) : Dyadic number := by
  have hFinest := zoom.le_seventeen
  refine ⟨45 * halves, 3 - zoom.level, ?_, by omega, by omega, ?_⟩
  · rw [abs_mul]
    norm_num
    omega
  · rw [hNumber, half_sideLength_eq]
    push_cast
    ring

/-- A coordinate between the outermost edges has a column that 32 bits can count, and no other
coordinate has. -/
theorem Zoom.position_range_iff (coordinate : ℚ) :
    (-2 ^ 31 * zoom.sideLength ≤ coordinate ∧ coordinate < 2 ^ 31 * zoom.sideLength) ↔
      -2 ^ 31 ≤ ⌊coordinate / zoom.sideLength⌋ ∧ ⌊coordinate / zoom.sideLength⌋ < 2 ^ 31 := by
  rw [Int.le_floor, Int.floor_lt, le_div_iff₀ zoom.sideLength_pos,
    div_lt_iff₀ zoom.sideLength_pos]
  push_cast
  rfl

theorem Zoom.dyadic_sideLength : Dyadic zoom.sideLength :=
  zoom.dyadic_halves (by norm_num : |(2 : ℤ)| ≤ 2 ^ 33) (by push_cast; ring)

/-- The side of a tile is exact, as the format has the quotient that it is computed by. -/
theorem Zoom.denotes_side : Denotes zoom.side zoom.sideLength := by
  have hSteps : 2 ^ (zoom.level - 1) ≤ 2 ^ 16 :=
    Nat.pow_le_pow_right two_pos (by have hFinest := zoom.le_seventeen; omega)
  have hWorld : Denotes 360 (360 : ℕ) := denotes_ofNat (by norm_num)
  have hDivisor : Denotes (Float.ofNat (Nat.pow 2 (zoom.level - 1))) (2 ^ (zoom.level - 1) : ℕ) :=
    denotes_ofNat (hSteps.trans_lt (by norm_num))
  have hQuotient := hWorld.div hDivisor (by positivity)
  have hExact : ((360 : ℕ) : ℚ) / (2 ^ (zoom.level - 1) : ℕ) = zoom.sideLength := by
    rw [sideLength]
    push_cast
    rfl
  rw [hExact] at hQuotient
  exact hQuotient.denotes zoom.dyadic_sideLength

/-- The lower edge of a column is exact at every position that 32 bits can count. -/
theorem denotes_lowerEdge (position : Int32) :
    Denotes (Float.ofInt position.toInt * zoom.side) (position.toInt * zoom.sideLength) := by
  have hLower := position.le_toInt
  have hUpper := position.toInt_lt
  have hHalves : |2 * position.toInt| ≤ 2 ^ 33 := abs_le.mpr ⟨by omega, by omega⟩
  have hPosition : |position.toInt| < 2 ^ 53 := abs_lt.mpr ⟨by omega, by omega⟩
  exact ((denotes_ofInt hPosition).mul zoom.denotes_side).denotes
    (zoom.dyadic_halves hHalves (by push_cast; ring))

/-- The upper edge is computed from the lower one and is exact as well, so it is the lower edge
of the next column. -/
theorem denotes_upperEdge (position : Int32) :
    Denotes (Float.ofInt position.toInt * zoom.side + zoom.side)
      ((position.toInt + 1) * zoom.sideLength) := by
  have hLower := position.le_toInt
  have hUpper := position.toInt_lt
  have hHalves : |2 * position.toInt + 2| ≤ 2 ^ 33 := abs_le.mpr ⟨by omega, by omega⟩
  have hSum := (denotes_lowerEdge zoom position).add zoom.denotes_side
  rw [← add_one_mul] at hSum
  exact hSum.denotes (zoom.dyadic_halves hHalves (by push_cast; ring))

theorem denotes_half : Denotes 0.5 (1 / 2) :=
  ⟨by decide +kernel, by decide +kernel⟩

/-- The centre is exact too, since neither the sum of the edges nor its half is rounded. Both
are multiples of half a side. -/
theorem denotes_middle (position : Int32) :
    Denotes (0.5 * (Float.ofInt position.toInt * zoom.side +
        (Float.ofInt position.toInt * zoom.side + zoom.side)))
      ((position.toInt + 1 / 2) * zoom.sideLength) := by
  have hLower := position.le_toInt
  have hUpper := position.toInt_lt
  have hSumHalves : |4 * position.toInt + 2| ≤ 2 ^ 33 := abs_le.mpr ⟨by omega, by omega⟩
  have hHalves : |2 * position.toInt + 1| ≤ 2 ^ 33 := abs_le.mpr ⟨by omega, by omega⟩
  have hSum := ((denotes_lowerEdge zoom position).add (denotes_upperEdge zoom position)).denotes
    (zoom.dyadic_halves hSumHalves (by push_cast; ring))
  have hProduct := (denotes_half.mul hSum).denotes
    (zoom.dyadic_halves hHalves (by push_cast; ring))
  have hMiddle : 1 / 2 * (position.toInt * zoom.sideLength +
      (position.toInt + 1) * zoom.sideLength) =
        (position.toInt + 1 / 2) * zoom.sideLength := by ring
  rwa [hMiddle] at hProduct

/-- A coordinate between the edges of a column has the quotient between them as well, since
neither edge is rounded. -/
theorem between_edges_iff {coordinate : Float} (hFinite : coordinate.isFinite) (position : Int32) :
    (Float.ofInt position.toInt * zoom.side ≤ coordinate ∧
        coordinate < Float.ofInt position.toInt * zoom.side + zoom.side) ↔
      ⌊value coordinate / zoom.sideLength⌋ = position.toInt := by
  have hSide := zoom.sideLength_pos
  have hCoordinate := denotes_value hFinite
  rw [(denotes_lowerEdge zoom position).le_iff hCoordinate,
    hCoordinate.lt_iff (denotes_upperEdge zoom position), Int.floor_eq_iff, le_div_iff₀ hSide,
    div_lt_iff₀ hSide]

/-- Only finite points lie in a tile, as comparisons with NaN fail and the edges are finite. -/
theorem finite_of_mem_bounds {point : Point} {tile : Tile} (hMem : point ∈ tile.bounds) :
    point.isFinite := by
  change (_ && _ && _ && _) = true at hMem
  simp only [Bool.and_eq_true, decide_eq_true_eq] at hMem
  obtain ⟨⟨⟨hLowerX, hUpperX⟩, hLowerY⟩, hUpperY⟩ := hMem
  have hBetween {coordinate : Float} (position : Int32)
      (hLower : Float.ofInt position.toInt * tile.zoom.side ≤ coordinate)
      (hUpper : coordinate < Float.ofInt position.toInt * tile.zoom.side + tile.zoom.side) :
      coordinate.isFinite :=
    isFinite_of_between hLower (le_of_less hUpper) (denotes_lowerEdge tile.zoom position).finite
      (denotes_upperEdge tile.zoom position).finite
  exact Bool.and_eq_true_iff.mpr
    ⟨hBetween tile.column hLowerX hUpperX, hBetween tile.row hLowerY hUpperY⟩

/-- A finite point lies in a tile exactly if the exact quotients of its coordinates name the
column and the row. -/
theorem mem_bounds_iff {point : Point} (hFinite : point.isFinite) (tile : Tile) :
    point ∈ tile.bounds ↔
      ⌊value point.x / tile.zoom.sideLength⌋ = tile.column.toInt ∧
        ⌊value point.y / tile.zoom.sideLength⌋ = tile.row.toInt := by
  obtain ⟨hFiniteX, hFiniteY⟩ := Bool.and_eq_true_iff.mp hFinite
  rw [← between_edges_iff tile.zoom hFiniteX, ← between_edges_iff tile.zoom hFiniteY]
  change (_ && _ && _ && _) = true ↔ _
  simp only [Bool.and_eq_true, decide_eq_true_eq, and_assoc]
  rfl

end Edges

end MapOverlay
