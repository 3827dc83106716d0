import MapOverlay.Index.Census
import MapOverlay.Overlay.Basic

/-! An overlay in diagnostic output. Collections are counted and not written out. -/
namespace MapOverlay.Overlay

variable {M L : Type}

/-- The number of groups with marks and with lines, the shown groups, and the census of
the index. -/
def describe (overlay : Overlay M L) : String :=
  let shown := ", ".intercalate (overlay.shownGroups.map Group.describe)
  s!"MarkGenerator \x7b scheme: {overlay.pyramid.describe}, " ++
    s!"mark_groups: {overlay.markSets.size}, line_groups: {overlay.lineSets.size}, " ++
    s!"visible: \x7b{shown}\x7d, index: {overlay.index.describe}, .. \x7d"

end MapOverlay.Overlay
