import MapOverlay.Annotation.Group
import MapOverlay.Fault

/-! The part of a group that one tile shows, in the form in which it is handed out
for drawing: the whole collections, and the positions to draw from them. -/
namespace MapOverlay

structure Excerpt (M L : Type) where
  group : Group
  marks : Array M
  /-- The marks to draw, in drawing order among equals. Positions may repeat. -/
  markPositions : List Nat
  lines : Array L
  linePositions : List Nat

namespace Excerpt

variable {M L : Type}

/-- The mark at a position, which has to be one of the collection's. -/
def markAt (excerpt : Excerpt M L) (position : Nat) : Except Fault M :=
  match excerpt.marks[position]? with
  | some mark => .ok mark
  | none => .error (.markOutOfRange position)

/-- The line at a position, which has to be one of the collection's. -/
def lineAt (excerpt : Excerpt M L) (position : Nat) : Except Fault L :=
  match excerpt.lines[position]? with
  | some line => .ok line
  | none => .error (.lineOutOfRange position)

/-- The marks to draw with their positions. The first bad position is the fault. -/
def selectedMarks (excerpt : Excerpt M L) : Except Fault (List (Nat × M)) :=
  excerpt.markPositions.mapM fun position => do
    return (position, ← excerpt.markAt position)

/-- The lines to draw with their positions. The first bad position is the fault. -/
def selectedLines (excerpt : Excerpt M L) : Except Fault (List (Nat × L)) :=
  excerpt.linePositions.mapM fun position => do
    return (position, ← excerpt.lineAt position)

end Excerpt

end MapOverlay
