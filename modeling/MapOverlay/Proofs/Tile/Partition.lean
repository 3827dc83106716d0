import MapOverlay.Proofs.Tile.Grid

/-! The squares of a level divide its part of the plane, and each of them is divided by four
squares of the next level. Nothing is rounded on the way from a column to its edges, so
neighbours meet in the same number and leave neither a gap nor an overlap. -/
namespace MapOverlay

/-- The computed corners and the centre of a tile are the exact ones. -/
structure Tile.ExactBounds (tile : Tile) : Prop where
  x0 : Denotes tile.bounds.x0 (tile.column.toInt * tile.zoom.sideLength)
  y0 : Denotes tile.bounds.y0 (tile.row.toInt * tile.zoom.sideLength)
  x1 : Denotes tile.bounds.x1 ((tile.column.toInt + 1) * tile.zoom.sideLength)
  y1 : Denotes tile.bounds.y1 ((tile.row.toInt + 1) * tile.zoom.sideLength)
  center_x : Denotes tile.bounds.center.x ((tile.column.toInt + 1 / 2) * tile.zoom.sideLength)
  center_y : Denotes tile.bounds.center.y ((tile.row.toInt + 1 / 2) * tile.zoom.sideLength)

/-- Corners and centre of every tile are exact, up to the ends of the 32-bit range. -/
theorem Tile.exactBounds (tile : Tile) : tile.ExactBounds where
  x0 := denotes_lowerEdge tile.zoom tile.column
  y0 := denotes_lowerEdge tile.zoom tile.row
  x1 := denotes_upperEdge tile.zoom tile.column
  y1 := denotes_upperEdge tile.zoom tile.row
  center_x := denotes_middle tile.zoom tile.column
  center_y := denotes_middle tile.zoom tile.row

/-- One column ends in the number in which the next one begins. One is computed by a sum and
the other by a product, and both are exact. -/
theorem edges_meet (zoom : Zoom) {position next : Int32}
    (hNext : next.toInt = position.toInt + 1) :
    Float.ofInt position.toInt * zoom.side + zoom.side == Float.ofInt next.toInt * zoom.side := by
  have hLower := denotes_lowerEdge zoom next
  rw [hNext] at hLower ⊢
  push_cast at hLower
  exact (denotes_upperEdge zoom position).beq hLower

/-- A point in two tiles of a level has one column and one row, so they are one tile. -/
theorem tile_eq_of_mem_bounds {first second : Tile} (hZoom : first.zoom = second.zoom)
    {point : Point} (hFirst : point ∈ first.bounds) (hSecond : point ∈ second.bounds) :
    first = second := by
  have hFinite := finite_of_mem_bounds hFirst
  obtain ⟨hColumn, hRow⟩ := (mem_bounds_iff hFinite first).mp hFirst
  obtain ⟨hColumn', hRow'⟩ := (mem_bounds_iff hFinite second).mp hSecond
  rw [hZoom] at hColumn hRow
  have hColumns : first.column = second.column := Int32.toInt_inj.mp (hColumn.symm.trans hColumn')
  have hRows : first.row = second.row := Int32.toInt_inj.mp (hRow.symm.trans hRow')
  cases first
  cases second
  rw [Tile.mk.injEq]
  exact ⟨hZoom, hColumns, hRows⟩

section Coverage

/-- A point between the outermost edges of a level. -/
structure Point.OnGrid (point : Point) (zoom : Zoom) : Prop where
  finite : point.isFinite
  lower_x : -2 ^ 31 * zoom.sideLength ≤ value point.x
  upper_x : value point.x < 2 ^ 31 * zoom.sideLength
  lower_y : -2 ^ 31 * zoom.sideLength ≤ value point.y
  upper_y : value point.y < 2 ^ 31 * zoom.sideLength

/-- Between the outermost edges there is a column for every coordinate, and nowhere else, as
the columns are what 32 bits can count. -/
theorem exists_position_iff (zoom : Zoom) (coordinate : ℚ) :
    (∃ position : Int32, ⌊coordinate / zoom.sideLength⌋ = position.toInt) ↔
      -2 ^ 31 * zoom.sideLength ≤ coordinate ∧ coordinate < 2 ^ 31 * zoom.sideLength := by
  rw [zoom.position_range_iff]
  constructor
  · rintro ⟨position, hPosition⟩
    rw [hPosition]
    exact ⟨position.le_toInt, position.toInt_lt⟩
  · rintro ⟨hLower, hUpper⟩
    refine ⟨Int32.ofIntClamp ⌊coordinate / zoom.sideLength⌋, ?_⟩
    rw [toInt_ofIntClamp_eq]
    omega

theorem exists_tile_iff (zoom : Zoom) (point : Point) :
    (∃ tile : Tile, tile.zoom = zoom ∧ point ∈ tile.bounds) ↔ point.OnGrid zoom := by
  constructor
  · rintro ⟨tile, rfl, hMem⟩
    have hFinite := finite_of_mem_bounds hMem
    obtain ⟨hColumn, hRow⟩ := (mem_bounds_iff hFinite tile).mp hMem
    obtain ⟨hLowerX, hUpperX⟩ := (exists_position_iff tile.zoom _).mp ⟨tile.column, hColumn⟩
    obtain ⟨hLowerY, hUpperY⟩ := (exists_position_iff tile.zoom _).mp ⟨tile.row, hRow⟩
    exact ⟨hFinite, hLowerX, hUpperX, hLowerY, hUpperY⟩
  · rintro ⟨hFinite, hLowerX, hUpperX, hLowerY, hUpperY⟩
    obtain ⟨column, hColumn⟩ := (exists_position_iff zoom _).mpr ⟨hLowerX, hUpperX⟩
    obtain ⟨row, hRow⟩ := (exists_position_iff zoom _).mpr ⟨hLowerY, hUpperY⟩
    exact ⟨⟨zoom, column, row⟩, rfl, (mem_bounds_iff hFinite _).mpr ⟨hColumn, hRow⟩⟩

/-- Between the outermost edges a point lies in one tile of a level, and elsewhere in none. -/
theorem existsUnique_tile_iff (zoom : Zoom) (point : Point) :
    (∃! tile : Tile, tile.zoom = zoom ∧ point ∈ tile.bounds) ↔ point.OnGrid zoom := by
  rw [← exists_tile_iff]
  refine ⟨ExistsUnique.exists, ?_⟩
  rintro ⟨tile, hZoom, hMem⟩
  refine ⟨tile, ⟨hZoom, hMem⟩, ?_⟩
  rintro other ⟨hOther, hMem'⟩
  exact tile_eq_of_mem_bounds (hOther.trans hZoom.symm) hMem' hMem

end Coverage

section Quarters

/-- The tile of a finer level in the given halves of the columns and rows of a tile. Only where
the doubled position fits into 32 bits does it lie there. -/
def Tile.quarter (tile : Tile) (finer : Zoom) (right upper : Fin 2) : Tile where
  zoom := finer
  column := Int32.ofInt (2 * tile.column.toInt + right)
  row := Int32.ofInt (2 * tile.row.toInt + upper)

/-- A tile with all of its quarters in the 32-bit range. -/
structure Tile.Divisible (tile : Tile) : Prop where
  lower_column : -2 ^ 30 ≤ tile.column.toInt
  column_lt : tile.column.toInt < 2 ^ 30
  lower_row : -2 ^ 30 ≤ tile.row.toInt
  row_lt : tile.row.toInt < 2 ^ 30

theorem toInt_doubled {position : ℤ} (hLower : -2 ^ 30 ≤ position) (hUpper : position < 2 ^ 30)
    (half : Fin 2) : (Int32.ofInt (2 * position + half)).toInt = 2 * position + half := by
  have hHalf := half.isLt
  apply Int32.toInt_ofInt_of_le <;> omega

variable {zoom finer : Zoom}

theorem sideLength_of_next (hNext : finer.level = zoom.level + 1) :
    zoom.sideLength = 2 * finer.sideLength := by
  have hLevel : (4 - zoom.level : ℤ) = 4 - finer.level + 1 := by omega
  rw [Zoom.sideLength_eq, Zoom.sideLength_eq, hLevel, zpow_add_one₀ two_ne_zero]
  ring

/-- Two columns of the next level make up one column. The floor of the doubled quotient tells
the half. -/
theorem floor_eq_iff_exists_half (hNext : finer.level = zoom.level + 1) (coordinate : ℚ)
    (position : ℤ) : ⌊coordinate / zoom.sideLength⌋ = position ↔
      ∃ half : Fin 2, ⌊coordinate / finer.sideLength⌋ = 2 * position + (half : ℤ) := by
  have hHalves : ⌊coordinate / zoom.sideLength⌋ = ⌊coordinate / finer.sideLength⌋ / 2 := by
    rw [sideLength_of_next hNext, mul_comm, ← div_div]
    exact_mod_cast Int.floor_div_natCast (coordinate / finer.sideLength) 2
  rw [hHalves]
  constructor
  · intro hPosition
    refine ⟨⟨(⌊coordinate / finer.sideLength⌋ % 2).toNat, by omega⟩, ?_⟩
    simp only
    omega
  · rintro ⟨half, hHalf⟩
    omega

variable {tile : Tile}

/-- A quarter of a divisible tile is the tile that the doubled position names, without wrapping
around. -/
theorem mem_bounds_quarter_iff (hDivisible : tile.Divisible) {point : Point}
    (hFinite : point.isFinite) (right upper : Fin 2) :
    point ∈ (tile.quarter finer right upper).bounds ↔
      ⌊value point.x / finer.sideLength⌋ = 2 * tile.column.toInt + (right : ℤ) ∧
        ⌊value point.y / finer.sideLength⌋ = 2 * tile.row.toInt + (upper : ℤ) := by
  obtain ⟨hLowerX, hUpperX, hLowerY, hUpperY⟩ := hDivisible
  rw [mem_bounds_iff hFinite, Tile.quarter, toInt_doubled hLowerX hUpperX,
    toInt_doubled hLowerY hUpperY]

/-- A divisible tile is made up of its quarters, with no gap between them. -/
theorem mem_bounds_iff_exists_quarter (hDivisible : tile.Divisible)
    (hNext : finer.level = tile.zoom.level + 1) (point : Point) :
    point ∈ tile.bounds ↔ ∃ right upper, point ∈ (tile.quarter finer right upper).bounds := by
  by_cases hFinite : point.isFinite
  · simp only [mem_bounds_quarter_iff hDivisible hFinite]
    rw [mem_bounds_iff hFinite, floor_eq_iff_exists_half hNext, floor_eq_iff_exists_half hNext,
      exists_and_exists_comm]
  · refine iff_of_false (fun hMem => hFinite (finite_of_mem_bounds hMem)) ?_
    rintro ⟨right, upper, hMem⟩
    exact hFinite (finite_of_mem_bounds hMem)

/-- Different quarters have no point in common, as they differ in the column or in the row. -/
theorem quarter_unique (hDivisible : tile.Divisible) {point : Point}
    {right upper right' upper' : Fin 2}
    (hFirst : point ∈ (tile.quarter finer right upper).bounds)
    (hSecond : point ∈ (tile.quarter finer right' upper').bounds) :
    right = right' ∧ upper = upper' := by
  have hFinite := finite_of_mem_bounds hFirst
  rw [mem_bounds_quarter_iff hDivisible hFinite] at hFirst hSecond
  omega

end Quarters

/-- The squares of the tiles form a nested grid. Corners and centres are computed without any
rounding. At one level, different squares share no point, neighbours share the number that
their common edge lies at, and a point lies in exactly one square if it lies between the
outermost edges, and else in none. Where the doubled positions fit into 32 bits, a square
is made up of four squares of the next level, which share no point. -/
theorem bounds_form_nested_grid :
    (∀ tile : Tile, tile.ExactBounds) ∧
    (∀ first second : Tile, first.zoom = second.zoom → first ≠ second →
      ∀ point, ¬ (point ∈ first.bounds ∧ point ∈ second.bounds)) ∧
    (∀ first second : Tile, first.zoom = second.zoom →
      (second.column.toInt = first.column.toInt + 1 → first.bounds.x1 == second.bounds.x0) ∧
      (second.row.toInt = first.row.toInt + 1 → first.bounds.y1 == second.bounds.y0)) ∧
    (∀ (zoom : Zoom) (point : Point),
      (∃! tile : Tile, tile.zoom = zoom ∧ point ∈ tile.bounds) ↔ point.OnGrid zoom) ∧
    (∀ (tile : Tile) (finer : Zoom), finer.level = tile.zoom.level + 1 → tile.Divisible →
      (∀ point, point ∈ tile.bounds ↔
        ∃ right upper, point ∈ (tile.quarter finer right upper).bounds) ∧
      ∀ point right upper right' upper', point ∈ (tile.quarter finer right upper).bounds →
        point ∈ (tile.quarter finer right' upper').bounds → right = right' ∧ upper = upper') := by
  refine ⟨Tile.exactBounds, ?_, ?_, existsUnique_tile_iff, ?_⟩
  · rintro first second hZoom hNe point ⟨hFirst, hSecond⟩
    exact hNe (tile_eq_of_mem_bounds hZoom hFirst hSecond)
  · rintro ⟨zoom, column, row⟩ ⟨_, column', row'⟩ hZoom
    obtain rfl : zoom = _ := hZoom
    exact ⟨edges_meet zoom, edges_meet zoom⟩
  · intro tile finer hNext hDivisible
    exact ⟨mem_bounds_iff_exists_quarter hDivisible hNext,
      fun _ _ _ _ _ hFirst hSecond => quarter_unique hDivisible hFirst hSecond⟩

/-- A point on the outer edge of the first column that can be divided. It lies in one tile of
its level and in one quarter of it. -/
theorem bounds_form_nested_grid_rim :
    let tile : Tile := ⟨{ level := 16 }, -1073741824, 0⟩
    let point : Point := ⟨-11796480, 0.01⟩
    tile.Divisible ∧ point ∈ tile.bounds ∧
      (∃! other : Tile, other.zoom = tile.zoom ∧ point ∈ other.bounds) ∧
      ∃ right upper, point ∈ (tile.quarter .finest right upper).bounds := by
  intro tile point
  obtain ⟨_, _, _, hCovered, hNested⟩ := bounds_form_nested_grid
  have hDivisible : tile.Divisible :=
    ⟨by decide, by decide, by decide, by decide⟩
  have hOnGrid : point.OnGrid tile.zoom :=
    ⟨by decide +kernel, by decide +kernel, by decide +kernel, by decide +kernel,
      by decide +kernel⟩
  have hMem : point ∈ tile.bounds := by decide +kernel
  exact ⟨hDivisible, hMem, (hCovered tile.zoom point).mpr hOnGrid,
    ((hNested tile .finest rfl hDivisible).1 point).mp hMem⟩

end MapOverlay
