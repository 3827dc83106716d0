import MapOverlay.Fault
import MapOverlay.Number.Floor
import MapOverlay.Plane
import MapOverlay.Tile.Basic

/-! Where tiles lie in the world. The world square is 360 units wide, the grid of
the coarsest level has that side, and every further level halves it. -/
namespace MapOverlay

/-- The side of a tile. The numerator has few significant bits and the denominator
is a power of two, so the quotient is exact at every level. -/
def Zoom.side (zoom : Zoom) : Float :=
  360 / Float.ofNat (Nat.pow 2 (zoom.level - 1))

namespace Tile

/-- The square of one grid that a point falls in. Coordinates beyond the 32-bit range
of columns and rows are counted to the outermost ones. Only for finite points does
the answer have a meaning. -/
def locate (point : Point) (zoom : Zoom) : Tile where
  zoom
  column := floorInt32 (point.x / zoom.side)
  row := floorInt32 (point.y / zoom.side)

/-- The tile of one zoom level that shows a point. -/
def containing (point : Point) (zoom : Zoom) : Except Fault Tile :=
  if point.isFinite then .ok (locate point zoom) else .error .nonFiniteCoordinate

theorem containing_of_finite {point : Point} (hFinite : point.isFinite) (zoom : Zoom) :
    containing point zoom = .ok (locate point zoom) := by
  simp [containing, hFinite]

theorem containing_of_not_finite {point : Point} (hFinite : point.isFinite = false)
    (zoom : Zoom) : containing point zoom = .error .nonFiniteCoordinate := by
  simp [containing, hFinite]

/-- The square that a tile covers. The upper corner is computed from the lower one. -/
def bounds (tile : Tile) : Rect :=
  let side := tile.zoom.side
  let x0 := Float.ofInt tile.column.toInt * side
  let y0 := Float.ofInt tile.row.toInt * side
  { x0, y0, x1 := x0 + side, y1 := y0 + side }

end Tile

end MapOverlay
