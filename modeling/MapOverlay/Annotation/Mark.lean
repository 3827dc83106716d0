import MapOverlay.Annotation.Anchor
import MapOverlay.Number.DepthOrder
import MapOverlay.Plane

/-! Marks hold a sprite at one point of the world. -/
namespace MapOverlay

/-- Something that is placed in the world by a single point. -/
class Pinned (Item : Type) where
  pivot : Item → Point

/-- A point pins itself. -/
instance : Pinned Point where
  pivot := id

structure Mark where
  /-- The point of the world that the sprite is held at. -/
  pivot : Point
  /-- The name of the sprite. -/
  symbol : String
  /-- Moves the sprite on the screen, in pixels. -/
  offset : Displacement := ⟨0, 0⟩
  /-- The sides of the sprite that lie on the pivot. -/
  anchor : Anchor := Anchor.center
  /-- Drawing order, lower first. -/
  depth : Depth := 0
  /-- Hidden marks keep their position in the group and draw nothing. -/
  visible : Bool := true

instance : Pinned Mark where
  pivot := Mark.pivot

end MapOverlay
