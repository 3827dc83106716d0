import MapOverlay.Plane
import Std.Data.ExtTreeMap

/-! The sprites that marks are drawn with, by name. -/
namespace MapOverlay

/-- A named picture within the texture that holds all of them. -/
structure Sprite where
  /-- The part of the texture, with its corners in the order in which they were given. -/
  uv : Rect
  /-- The extent on the screen, in pixels. -/
  size : Size
deriving DecidableEq

structure Atlas where
  sprites : Std.ExtTreeMap String Sprite

namespace Atlas

instance : EmptyCollection Atlas where
  emptyCollection := ⟨∅⟩

/-- A second sprite of the same name replaces the first. -/
def insert (atlas : Atlas) (name : String) (sprite : Sprite) : Atlas where
  sprites := atlas.sprites.insert name sprite

def find? (atlas : Atlas) (name : String) : Option Sprite :=
  atlas.sprites[name]?

/-- The number of names. -/
def size (atlas : Atlas) : Nat :=
  atlas.sprites.size

def isEmpty (atlas : Atlas) : Bool :=
  atlas.size == 0

end Atlas

end MapOverlay
