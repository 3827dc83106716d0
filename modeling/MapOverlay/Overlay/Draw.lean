import MapOverlay.Excerpt
import MapOverlay.Overlay.Basic

/-! Drawing a tile of an overlay. How a payload is built and where it goes are left to
the caller, together with the effects of both. -/
namespace MapOverlay.Overlay

variable {M L : Type}

/-- What a tile shows, by ascending group. Hidden groups are left out, and so are
groups with nothing in the tile. -/
def excerpts (overlay : Overlay M L) (tile : Tile) : List (Excerpt M L) :=
  ((overlay.index.groupsIn tile).filter fun (group, _) => overlay.isShown group).map
    fun (group, share) =>
      { group
        marks := overlay.marks group
        markPositions := share.marks
        lines := overlay.lines group
        linePositions := share.lines }

/-- Builds and delivers what a tile shows. Each payload is delivered before the next
one is built, so where building fails, the groups before the failure are delivered and
those after it are not even built. The overlay itself does not change. -/
def draw {m : Type → Type} [Monad m] {Payload : Type} (overlay : Overlay M L) (tile : Tile)
    (build : Tile → Excerpt M L → m Payload) (deliver : Group → Payload → m Unit) : m Unit :=
  (overlay.excerpts tile).forM fun excerpt => do
    let payload ← build tile excerpt
    deliver excerpt.group payload

end MapOverlay.Overlay
