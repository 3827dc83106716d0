import MapOverlay.Annotation.Mark
import MapOverlay.Drawing.Atlas
import MapOverlay.Drawing.Basic
import MapOverlay.Excerpt
import MapOverlay.Number.DepthOrder
import MapOverlay.Tile.Grid

/-! Turning an excerpt into a drawing. -/
namespace MapOverlay

/-- The map from the world to coordinates relative to the centre of a tile. -/
def Tile.toLocal (tile : Tile) : Affine :=
  let origin := tile.bounds.center
  Affine.translation ⟨-origin.x, -origin.y⟩

/-- The quad of a mark that has a sprite. -/
def Mark.quad (mark : Mark) (sprite : Sprite) (toLocal : Affine) (position : Nat) : Quad where
  position
  pivot := toLocal.apply mark.pivot
  bounds := mark.anchor.frame sprite.size mark.offset
  uv := sprite.uv
  depth := mark.depth

/-- The strips of a line, one for each stroke. A line of fewer than two points has no
extent and draws nothing. -/
def Line.strips (line : Line) (toLocal : Affine) (position : Nat) : List Strip :=
  if line.points.length < 2 then []
  else
    let points := line.points.map toLocal.apply
    line.strokes.map fun stroke =>
      { position, points, color := stroke.color, width := stroke.width, depth := stroke.depth }

namespace Excerpt

/-- The quad for one selected mark position, or nothing where the mark is hidden. A
hidden mark may name a sprite that does not exist. -/
def quadAt? (excerpt : Excerpt Mark Line) (atlas : Atlas) (toLocal : Affine) (position : Nat) :
    Except DrawError (Option Quad) := do
  let mark ← (excerpt.markAt position).mapError .fault
  if mark.visible then
    match atlas.find? mark.symbol with
    | some sprite => return some (mark.quad sprite toLocal position)
    | none => throw (.missingSymbol excerpt.group mark.symbol)
  else
    return none

/-- The strips for one selected line position. -/
def stripsAt (excerpt : Excerpt Mark Line) (toLocal : Affine) (position : Nat) :
    Except DrawError (List Strip) := do
  let line ← (excerpt.lineAt position).mapError .fault
  return line.strips toLocal position

/-- Draws a group in a tile. Marks are examined in the order of their positions, each
for its range and then for its sprite, and lines after all marks, so the first fault
in that order is the answer. Quads and strips are sorted by depth, and those of equal
depth stay in the order of examination. -/
def drawing (excerpt : Excerpt Mark Line) (tile : Tile) (atlas : Atlas) :
    Except DrawError Drawing := do
  let toLocal := tile.toLocal
  let quads ← excerpt.markPositions.mapM (excerpt.quadAt? atlas toLocal)
  let strips ← excerpt.linePositions.mapM (excerpt.stripsAt toLocal)
  return {
    tile
    origin := tile.bounds.center
    quads := (quads.filterMap id).mergeSort fun first second => notDeeper first.depth second.depth
    strips := strips.flatten.mergeSort fun first second => notDeeper first.depth second.depth }

end Excerpt

end MapOverlay
