import MapOverlay.Overlay.Basic

/-! Changes of an overlay as values, so that they can be queued. -/
namespace MapOverlay

/-- One change, which concerns exactly one group. -/
inductive Edit (M L : Type) where
  | clear (group : Group)
  | setMarks (group : Group) (marks : Array M)
  | setLines (group : Group) (lines : Array L)
  | setShown (group : Group) (shown : Bool)

/-- The group that a change concerns. -/
def Edit.group {M L : Type} : Edit M L → Group
  | .clear group => group
  | .setMarks group _ => group
  | .setLines group _ => group
  | .setShown group _ => group

namespace Overlay

variable {M L : Type} [Pinned M] [Traced L]

/-- Carries out one change. -/
def apply (overlay : Overlay M L) : Edit M L → Except Fault (Overlay M L)
  | .clear group => .ok (overlay.clear group)
  | .setMarks group marks => overlay.setMarks group marks
  | .setLines group lines => overlay.setLines group lines
  | .setShown group shown => .ok (overlay.setShown group shown)

/-- Carries out a queue of changes from its head. A fault ends it. -/
def applyAll (overlay : Overlay M L) (edits : List (Edit M L)) : Except Fault (Overlay M L) :=
  edits.foldlM apply overlay

end Overlay

end MapOverlay
