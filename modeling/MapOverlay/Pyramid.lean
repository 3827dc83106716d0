import MapOverlay.Zoom

/-! The stack of tile grids that a map is drawn with. All grids of a pyramid begin
at the coarsest level, so one number describes it. -/
namespace MapOverlay

structure Pyramid where
  /-- The last level that is part of the pyramid. -/
  finest : Zoom := Zoom.finest
deriving DecidableEq, Inhabited

namespace Pyramid

/-- The levels of a pyramid, from the coarsest. -/
def levels (pyramid : Pyramid) : List Zoom :=
  pyramid.finest.upTo

/-- A pyramid in diagnostic output. -/
def describe (pyramid : Pyramid) : String :=
  s!"MercatorScheme \x7b upper_zoom: ZoomLevel({pyramid.finest.level}) \x7d"

end Pyramid

end MapOverlay
