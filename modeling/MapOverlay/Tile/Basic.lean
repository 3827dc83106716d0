import MapOverlay.Zoom

/-! Names of tiles. A tile is a square of the grid of its zoom level, counted from
the origin of the world, so columns and rows may be negative. -/
namespace MapOverlay

structure Tile where
  zoom : Zoom
  column : Int32
  row : Int32
deriving DecidableEq

namespace Tile

/-- Coarser tiles come first, then lower columns, then lower rows. -/
instance : Ord Tile where
  compare := compareLex (compareOn zoom) (compareLex (compareOn column) (compareOn row))

instance : Std.TransOrd Tile :=
  inferInstanceAs (Std.TransCmp
    (compareLex (compareOn zoom) (compareLex (compareOn column) (compareOn row))))

instance : Std.LawfulEqOrd Tile where
  eq_of_compare {first second} h := by
    have hOrder : compareLex (compareOn zoom) (compareLex (compareOn column) (compareOn row))
        first second = .eq := h
    simp only [compareLex_eq_eq, compareOn, Std.LawfulEqOrd.compare_eq_iff_eq] at hOrder
    cases first
    cases second
    simp_all

instance : ToString Tile where
  toString tile := s!"{tile.zoom.level}/{tile.column}/{tile.row}"

end Tile

end MapOverlay
