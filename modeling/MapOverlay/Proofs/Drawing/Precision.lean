import MapOverlay.Proofs.Drawing.Picture
import MapOverlay.Proofs.Tile.Locate
import MapOverlay.Proofs.Tile.Partition

/-! How far local coordinates are from the truth. The centre of a tile is exact, so a pivot is
rounded once on its way there, and it is so close to the centre that the error is small beside
the tile, however far the tile is from the origin of the world. -/
namespace MapOverlay

section Translation

variable {number : Float} {precise : ℚ}

/-- The coefficients of a translation let one coordinate pass and leave nothing of the other,
in both cases without rounding. -/
theorem denotes_one_mul (hNumber : Denotes number precise) : Denotes (1 * number) precise := by
  have hOne : Denotes 1 (1 : ℕ) := denotes_ofNat (by norm_num)
  have hProduct := hOne.mul hNumber
  rw [Nat.cast_one, one_mul] at hProduct
  exact hProduct.denotes (hNumber.value_eq ▸ dyadic_value number)

theorem denotes_zero_mul (hNumber : Denotes number precise) : Denotes (0 * number) (0 : ℕ) := by
  have hZero : Denotes 0 (0 : ℕ) := denotes_ofNat (by norm_num)
  have hProduct := hZero.mul hNumber
  rw [Nat.cast_zero, zero_mul, ← Nat.cast_zero] at hProduct
  exact hProduct.denotes (Dyadic.of_nat (by norm_num))

/-- A translation rounds each coordinate once, when the displacement is added. The products
before that are exact, and so is the sum with zero. -/
theorem computed_translation {point : Point} {move : Displacement} {dx dy : ℚ}
    (hFinite : point.isFinite) (hX : Denotes move.dx dx) (hY : Denotes move.dy dy) :
    Computed (value point.x + dx) ((Affine.translation move).apply point).x ∧
      Computed (value point.y + dy) ((Affine.translation move).apply point).y := by
  obtain ⟨hFiniteX, hFiniteY⟩ := Bool.and_eq_true_iff.mp hFinite
  have hPointX := denotes_value hFiniteX
  have hPointY := denotes_value hFiniteY
  have hSumX := (denotes_one_mul hPointX).add (denotes_zero_mul hPointY)
  have hSumY := (denotes_zero_mul hPointX).add (denotes_one_mul hPointY)
  rw [Nat.cast_zero, add_zero] at hSumX
  rw [Nat.cast_zero, zero_add] at hSumY
  exact ⟨(hSumX.denotes (dyadic_value _)).add hX, (hSumY.denotes (dyadic_value _)).add hY⟩

end Translation

section Localization

/-- A local coordinate within half a tile, and as close to the exact one as the format is fine
at that distance. -/
structure Zoom.Localizes (zoom : Zoom) (near : Float) (exact : ℚ) : Prop where
  finite : near.isFinite
  abs_le : |value near| ≤ zoom.sideLength / 2
  error_le : |value near - exact| ≤ 2 ^ (-53 : ℤ) * (zoom.sideLength / 2)

variable {zoom : Zoom} {near : Float} {exact : ℚ}

theorem Zoom.dyadic_half (zoom : Zoom) : Dyadic (zoom.sideLength / 2) :=
  zoom.dyadic_halves (by norm_num : |(1 : ℤ)| ≤ 2 ^ 33) (by rw [Int.cast_one, one_mul])

/-- The error among the least numbers is nothing beside a tile. It is smaller than the error
that a number of half a side may have. -/
theorem Zoom.least_error_le (zoom : Zoom) :
    (2 : ℚ) ^ (-1075 : ℤ) ≤ 2 ^ (-53 : ℤ) * (zoom.sideLength / 2) := by
  have hSide : 360 / 2 ^ 16 ≤ zoom.sideLength := zoom.sideLength_anti .finest zoom.le_seventeen
  have hTiny : (2 : ℚ) ^ (-1075 : ℤ) ≤ 2 ^ (-63 : ℤ) :=
    zpow_le_zpow_right₀ one_le_two (by norm_num)
  calc (2 : ℚ) ^ (-1075 : ℤ) ≤ 2 ^ (-63 : ℤ) := hTiny
    _ ≤ 2 ^ (-53 : ℤ) * (360 / 2 ^ 16 / 2) := by norm_num
    _ ≤ 2 ^ (-53 : ℤ) * (zoom.sideLength / 2) := by gcongr

/-- A coordinate within half a tile is localized by one rounding, since no rounded number
passes the edge. -/
theorem localizes_of_abs_le (hComputed : Computed exact near)
    (hBound : |exact| ≤ zoom.sideLength / 2) : zoom.Localizes near exact := by
  obtain ⟨hFinite, hRounds⟩ := hComputed.roundsTo_of_abs_le zoom.dyadic_half hBound
  refine ⟨hFinite, hRounds.abs_le_of_dyadic zoom.dyadic_half hBound, ?_⟩
  rw [abs_sub_comm]
  rcases hRounds.abs_sub_le with hRelative | ⟨_, hAbsolute⟩
  · calc |exact - value near| ≤ |exact| * 2 ^ (-53 : ℤ) := hRelative
      _ ≤ zoom.sideLength / 2 * 2 ^ (-53 : ℤ) := by gcongr
      _ = 2 ^ (-53 : ℤ) * (zoom.sideLength / 2) := mul_comm _ _
  · exact hAbsolute.trans zoom.least_error_le

/-- What vanishes is nothing beside a tile either, so the edge is the closest number. -/
theorem Zoom.Vanishing.neg_le {coordinate : ℚ} (hVanishing : zoom.Vanishing coordinate) :
    -coordinate ≤ zoom.sideLength / 2 * (1 / 2 ^ 60) := by
  obtain ⟨hNear, _⟩ := hVanishing
  have hPower : (2 : ℚ) ^ (-1075 : ℤ) ≤ 2 ^ (-61 : ℤ) :=
    zpow_le_zpow_right₀ one_le_two (by norm_num)
  have hProduct := mul_le_mul_of_nonneg_left hPower zoom.sideLength_pos.le
  have hFactor : (2 : ℚ) ^ (-61 : ℤ) = 1 / 2 ^ 60 / 2 := by norm_num
  rw [hFactor] at hProduct
  linarith

/-- Seen from the centre, a coordinate that vanishes lies beyond the edge by its own size. -/
theorem Zoom.Vanishing.abs_sub_half {coordinate : ℚ} (hVanishing : zoom.Vanishing coordinate) :
    |coordinate - zoom.sideLength / 2| = zoom.sideLength / 2 - coordinate := by
  have hHalfSide : 0 < zoom.sideLength / 2 := half_pos zoom.sideLength_pos
  have hNegative := hVanishing.2
  rw [abs_of_neg (by linarith), neg_sub]

/-- A coordinate that vanishes is counted to the tile beyond the origin. It lies more than half a
side from the centre, but is rounded to the edge. -/
theorem Zoom.Vanishing.eq_edge {coordinate result : ℚ} (hVanishing : zoom.Vanishing coordinate)
    (hRounds : RoundsTo (coordinate - zoom.sideLength / 2) result) :
    result = -(zoom.sideLength / 2) := by
  have hTiny := hVanishing.neg_le
  have hHalfSide : 0 < zoom.sideLength / 2 := half_pos zoom.sideLength_pos
  have hFinest := zoom.le_seventeen
  have hEdge : ((-45 : ℤ) : ℚ) * 2 ^ (3 - zoom.level : ℤ) = -(zoom.sideLength / 2) := by
    rw [zoom.half_sideLength_eq]
    push_cast
    ring
  have hRelative : (2 : ℚ) ^ (-54 : ℤ) = 1 / 2 ^ 54 := by norm_num
  rw [← hEdge]
  apply hRounds.eq_of_close (by norm_num) (by omega)
  · rw [hEdge, abs_neg, abs_of_pos hHalfSide, hVanishing.abs_sub_half]
    linarith
  · rw [hEdge, sub_neg_eq_add, sub_add_cancel, abs_of_neg hVanishing.2, hVanishing.abs_sub_half,
      hRelative]
    linarith

/-- A coordinate that vanishes is localized on the edge, which lies as close to it as the
format allows. -/
theorem localizes_of_vanishing {coordinate : ℚ} (hVanishing : zoom.Vanishing coordinate)
    (hComputed : Computed (coordinate - zoom.sideLength / 2) near) :
    zoom.Localizes near (coordinate - zoom.sideLength / 2) := by
  have hTiny := hVanishing.neg_le
  have hHalfSide : 0 < zoom.sideLength / 2 := half_pos zoom.sideLength_pos
  have hInRange : |coordinate - zoom.sideLength / 2| ≤ zoom.sideLength := by
    rw [hVanishing.abs_sub_half]
    linarith
  obtain ⟨hFinite, hRounds⟩ := hComputed.roundsTo_of_abs_le zoom.dyadic_sideLength hInRange
  have hResult := hVanishing.eq_edge hRounds
  refine ⟨hFinite, ?_, ?_⟩
  · rw [hResult, abs_neg, abs_of_pos hHalfSide]
  · have hRelative : (2 : ℚ) ^ (-53 : ℤ) = 1 / 2 ^ 53 := by norm_num
    rw [abs_sub_comm, hResult, sub_neg_eq_add, sub_add_cancel, abs_of_neg hVanishing.2, hRelative]
    linarith

/-- Within the grid a coordinate is localized to the middle of the column or row that is
found for it. -/
theorem localizes_position {coordinate : Float} {middle : ℚ} (hFinite : coordinate.isFinite)
    (hLower : -2 ^ 31 * zoom.sideLength ≤ value coordinate)
    (hUpper : value coordinate < 2 ^ 31 * zoom.sideLength)
    (hMiddle : ((floorInt32 (coordinate / zoom.side)).toInt + 1 / 2) * zoom.sideLength = middle)
    (hComputed : Computed (value coordinate - middle) near) :
    zoom.Localizes near (value coordinate - middle) := by
  rw [toInt_position_of_range zoom hFinite hLower hUpper] at hMiddle
  by_cases hVanishing : zoom.Vanishing (value coordinate)
  · obtain rfl : zoom.sideLength / 2 = middle := by
      rw [← hMiddle, if_pos hVanishing]
      push_cast
      ring
    exact localizes_of_vanishing hVanishing hComputed
  · rw [if_neg hVanishing] at hMiddle
    have hFloor := Int.floor_eq_iff.mp (rfl : ⌊value coordinate / zoom.sideLength⌋ = _)
    rw [le_div_iff₀ zoom.sideLength_pos, div_lt_iff₀ zoom.sideLength_pos] at hFloor
    exact localizes_of_abs_le hComputed (abs_le.mpr ⟨by linarith, by linarith⟩)

end Localization

section Pivot

/-- A local point, the point of the world that it stands for and the origin it is relative to. -/
structure Zoom.LocalizesPoint (zoom : Zoom) (near point origin : Point) : Prop where
  finite_origin : origin.isFinite
  x : zoom.Localizes near.x (value point.x - value origin.x)
  y : zoom.Localizes near.y (value point.y - value origin.y)

variable {zoom : Zoom}

/-- A point within the grid, seen from the centre of the tile that is found for it. Both
coordinates are localized, each on its own. -/
theorem localizes_toLocal {point : Point} (hOnGrid : point.OnGrid zoom) :
    zoom.LocalizesPoint ((Tile.locate point zoom).toLocal.apply point) point
      (Tile.locate point zoom).bounds.center := by
  obtain ⟨hFinite, hLowerX, hUpperX, hLowerY, hUpperY⟩ := hOnGrid
  obtain ⟨hFiniteX, hFiniteY⟩ := Bool.and_eq_true_iff.mp hFinite
  generalize hTile : Tile.locate point zoom = tile
  obtain ⟨_, _, _, _, hCenterX, hCenterY⟩ := tile.exactBounds
  obtain ⟨hComputedX, hComputedY⟩ : Computed _ (tile.toLocal.apply point).x ∧
      Computed _ (tile.toLocal.apply point).y :=
    computed_translation hFinite (denotes_value hCenterX.finite).neg
      (denotes_value hCenterY.finite).neg
  rw [← sub_eq_add_neg] at hComputedX hComputedY
  subst hTile
  exact ⟨Bool.and_eq_true_iff.mpr ⟨hCenterX.finite, hCenterY.finite⟩,
    localizes_position hFiniteX hLowerX hUpperX hCenterX.value_eq.symm hComputedX,
    localizes_position hFiniteY hLowerY hUpperY hCenterY.value_eq.symm hComputedY⟩

variable {excerpt : Excerpt Mark Line} {atlas : Atlas} {position : Nat} {mark : Mark}
  {sprite : Sprite}

/-- In the tile of its pivot, a visible mark is held within half a tile of the centre, and at
most half a unit in the last place of that distance away from where it belongs. That is so up
to the outermost edges of a level, also for the coordinates that vanish, whose tile does not
contain them. Only a bad position or a missing sprite of the excerpt prevents the drawing. -/
theorem drawn_pivot_localized (hListed : position ∈ excerpt.markPositions)
    (hMark : excerpt.marks[position]? = some mark) (hVisible : mark.visible)
    (hSprite : atlas.find? mark.symbol = some sprite) (hOnGrid : mark.pivot.OnGrid zoom) :
    ∃ tile, Tile.containing mark.pivot zoom = .ok tile ∧
      ((∃ drawing, excerpt.drawing tile atlas = .ok drawing) ↔ excerpt.Drawable atlas) ∧
      ∀ drawing, excerpt.drawing tile atlas = .ok drawing →
        (∃ quad ∈ drawing.quads, quad.position = position) ∧
        ∀ quad ∈ drawing.quads, quad.position = position →
          zoom.LocalizesPoint quad.pivot mark.pivot drawing.origin := by
  refine ⟨_, Tile.containing_of_finite hOnGrid.finite zoom, ?_, ?_⟩
  · constructor
    · rintro ⟨drawing, hDrawing⟩
      exact Excerpt.drawable_of_drawing_eq_ok hDrawing
    · intro hDrawable
      exact ⟨_, hDrawable.drawing_eq _⟩
  · intro drawing hDrawing
    obtain ⟨_, rfl⟩ := Excerpt.drawing_eq_ok_iff.mp hDrawing
    have hItsQuad (quad : Quad) :
        quad ∈ (excerpt.picture (Tile.locate mark.pivot zoom) atlas).quads ∧
            quad.position = position ↔
          mark.quad sprite (Tile.locate mark.pivot zoom).toLocal position = quad :=
      Excerpt.mem_quads_picture_at_iff hListed hMark hVisible hSprite
    refine ⟨⟨_, (hItsQuad _).mpr rfl⟩, ?_⟩
    intro quad hQuad hPosition
    obtain rfl := (hItsQuad quad).mp ⟨hQuad, hPosition⟩
    exact localizes_toLocal hOnGrid

/-- A coordinate that vanishes, and one just below an edge. The tile does not contain the
point, and the quad is localized all the same. -/
theorem drawn_pivot_localized_astray :
    let mark : Mark := { pivot := ⟨Float.ofBits 0x8000000000000001, 719.9999999⟩, symbol := "pin" }
    let excerpt : Excerpt Mark Line := ⟨⟨1⟩, #[mark], [0], #[], []⟩
    let sprite : Sprite := ⟨⟨0, 0, 1, 1⟩, ⟨16, 16⟩⟩
    let tile : Tile := ⟨.coarsest, 0, 1⟩
    mark.pivot.OnGrid .coarsest ∧ mark.pivot ∉ tile.bounds ∧
      ∃ drawing, excerpt.drawing tile ((∅ : Atlas).insert "pin" sprite) = .ok drawing ∧
        ∃ quad ∈ drawing.quads,
          Zoom.coarsest.LocalizesPoint quad.pivot mark.pivot drawing.origin := by
  intro mark excerpt sprite tile
  have hOnGrid : mark.pivot.OnGrid .coarsest :=
    ⟨by decide +kernel, by decide +kernel, by decide +kernel, by decide +kernel,
      by decide +kernel⟩
  have hSprite : ((∅ : Atlas).insert "pin" sprite).find? mark.symbol = some sprite :=
    Std.ExtTreeMap.getElem?_insert_self
  have hDrawable : excerpt.Drawable ((∅ : Atlas).insert "pin" sprite) := by
    constructor
    · intro position hPosition
      obtain rfl : position = 0 := List.mem_singleton.mp hPosition
      exact ⟨mark, rfl, fun _ => ⟨sprite, hSprite⟩⟩
    · intro position hPosition
      exact absurd hPosition List.not_mem_nil
  have hContaining : Tile.containing mark.pivot .coarsest = .ok tile := by decide +kernel
  obtain ⟨found, hFound, hDrawn, hLocalized⟩ :=
    drawn_pivot_localized (List.mem_singleton_self 0) (rfl : excerpt.marks[0]? = some mark) rfl
      hSprite hOnGrid
  obtain rfl : tile = found := Except.ok.inj (hContaining.symm.trans hFound)
  obtain ⟨drawing, hDrawing⟩ := hDrawn.mpr hDrawable
  obtain ⟨⟨quad, hQuad, hPosition⟩, hNear⟩ := hLocalized drawing hDrawing
  exact ⟨hOnGrid, by decide +kernel, drawing, hDrawing, quad, hQuad, hNear quad hQuad hPosition⟩

end Pivot

end MapOverlay
