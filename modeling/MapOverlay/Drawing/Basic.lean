import MapOverlay.Annotation.Anchor
import MapOverlay.Annotation.Group
import MapOverlay.Annotation.Line
import MapOverlay.Fault
import MapOverlay.Number.DepthOrder
import MapOverlay.Plane
import MapOverlay.Tile.Basic

/-! What a group draws in one tile: sprites as rectangles and lines as strips. World
coordinates are large where tiles are small, so positions are stored relative to the
centre of the tile. -/
namespace MapOverlay

/-- One mark, ready to be drawn. -/
structure Quad where
  /-- The mark's position in its collection. -/
  position : Nat
  /-- Where the mark is held, relative to the tile centre. -/
  pivot : Point
  /-- The rectangle of the sprite around the pivot, in pixels. -/
  bounds : Rect
  uv : Rect
  depth : Depth

/-- One stroke of one line, ready to be drawn. -/
structure Strip where
  /-- The line's position in its collection. -/
  position : Nat
  /-- The vertices, relative to the tile centre. -/
  points : List Point
  color : Color
  width : Float32
  depth : Depth

/-- Everything that one group draws in one tile. -/
structure Drawing where
  tile : Tile
  /-- The tile centre, which leads back from local positions to the world. -/
  origin : Point
  quads : List Quad
  strips : List Strip

/-- Why an excerpt cannot be drawn. -/
inductive DrawError where
  | fault (reason : Fault)
  /-- A visible mark names a sprite that the atlas does not have. -/
  | missingSymbol (group : Group) (symbol : String)
deriving DecidableEq

def DrawError.message : DrawError → String
  | .fault reason => reason.message
  | .missingSymbol group symbol => s!"{group} uses symbol `{symbol}` which is not in the atlas"

/-- The rectangle of a sprite around its pivot. An anchored side lies on the pivot,
and an axis without an anchored side is centred there. Where opposite sides are both
anchored, the left and the top one win. -/
def Anchor.frame (anchor : Anchor) (size : Size) (offset : Displacement) : Rect :=
  let x :=
    if anchor.contains Anchor.left then 0
    else if anchor.contains Anchor.right then -size.width
    else -0.5 * size.width
  let y :=
    if anchor.contains Anchor.top then 0
    else if anchor.contains Anchor.bottom then -size.height
    else -0.5 * size.height
  (Rect.ofCorner ⟨x, y⟩ size).shift offset

end MapOverlay
