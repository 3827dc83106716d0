/-! World and pixel coordinates are pairs of binary64 numbers. Every operation here
is evaluated in the written order, with one rounding for each arithmetic sign, so
infinities and NaN travel through them as the arithmetic of the format says. -/
namespace MapOverlay

/-- A position in the world square or relative to a tile centre. -/
structure Point where
  x : Float
  y : Float
deriving DecidableEq

namespace Point

/-- Neither coordinate is infinite or NaN. -/
def isFinite (point : Point) : Bool :=
  point.x.isFinite && point.y.isFinite

end Point

/-- A displacement, kept apart from the positions it moves. -/
structure Displacement where
  dx : Float
  dy : Float
deriving DecidableEq

/-- The extent of a sprite in pixels. Nothing requires it to be positive. -/
structure Size where
  width : Float
  height : Float
deriving DecidableEq

/-- A rectangle by its two corners. The corners are stored as given and need not
be ordered. -/
structure Rect where
  x0 : Float
  y0 : Float
  x1 : Float
  y1 : Float
deriving DecidableEq

namespace Rect

/-- Lower edges belong to a rectangle and upper edges do not, so the rectangles of
a grid overlap nowhere. A NaN on either side makes the test fail. -/
def contains (rect : Rect) (point : Point) : Bool :=
  point.x ≥ rect.x0 && point.x < rect.x1 && point.y ≥ rect.y0 && point.y < rect.y1

instance : Membership Point Rect where
  mem rect point := rect.contains point = true

instance (point : Point) (rect : Rect) : Decidable (point ∈ rect) :=
  inferInstanceAs (Decidable (rect.contains point = true))

/-- Half of the sum of the corners. The sum is rounded before it is halved. -/
def center (rect : Rect) : Point where
  x := 0.5 * (rect.x0 + rect.x1)
  y := 0.5 * (rect.y0 + rect.y1)

/-- Moves both corners by the same displacement. -/
def shift (rect : Rect) (move : Displacement) : Rect where
  x0 := rect.x0 + move.dx
  y0 := rect.y0 + move.dy
  x1 := rect.x1 + move.dx
  y1 := rect.y1 + move.dy

/-- The lesser of two numbers. A NaN yields to the other number, and of two equal
numbers the second is kept, which tells the zeros apart. -/
def lesser (first second : Float) : Float :=
  if second.isNaN || first < second then first else second

/-- The greater of two numbers, with the same rule for NaN and for equal numbers. -/
def greater (first second : Float) : Float :=
  if second.isNaN || second < first then first else second

/-- The rectangle between a corner and the corner that lies `size` away from it,
with each pair of edges put in order. -/
def ofCorner (corner : Point) (size : Size) : Rect :=
  let farX := corner.x + size.width
  let farY := corner.y + size.height
  { x0 := lesser corner.x farX, y0 := lesser corner.y farY
    x1 := greater corner.x farX, y1 := greater corner.y farY }

end Rect

/-- The map that sends `(x, y)` to `(xx·x + xy·y + dx, yx·x + yy·y + dy)`. -/
structure Affine where
  xx : Float
  xy : Float
  yx : Float
  yy : Float
  dx : Float
  dy : Float
deriving DecidableEq

namespace Affine

/-- Moves every point by one displacement. -/
def translation (move : Displacement) : Affine :=
  { xx := 1, xy := 0, yx := 0, yy := 1, dx := move.dx, dy := move.dy }

/-- Products are summed from left to right. The zero coefficients of a translation
take part, so an infinite coordinate turns the other one into NaN. -/
def apply (map : Affine) (point : Point) : Point where
  x := map.xx * point.x + map.xy * point.y + map.dx
  y := map.yx * point.x + map.yy * point.y + map.dy

end Affine

end MapOverlay
