import MapOverlay.Number.DepthOrder
import MapOverlay.Plane

/-! Lines run through points of the world and are stroked once or several times. -/
namespace MapOverlay

/-- Something that is placed in the world by a sequence of points. -/
class Traced (Item : Type) where
  vertices : Item → List Point

/-- A list of points is traced by its members. -/
instance : Traced (List Point) where
  vertices := id

/-- Components of a colour, each from `0` to `255`. -/
structure Color where
  red : UInt8
  green : UInt8
  blue : UInt8
  alpha : UInt8
deriving DecidableEq

/-- One pass of the pen along a line. -/
structure Stroke where
  color : Color
  /-- Width in pixels. -/
  width : Float32
  /-- Drawing order, lower first. -/
  depth : Depth

structure Line where
  points : List Point
  /-- The passes over the line, in the order in which they were declared. -/
  strokes : List Stroke

instance : Traced Line where
  vertices := Line.points

end MapOverlay
