import MapOverlay.Proofs.Overlay.LastWriter
import MapOverlay.Proofs.Overlay.Walk

/-! Fewer levels. An overlay over a pyramid that ends at a coarser level is the one over
the finer pyramid with the tiles of the missing levels left out, and nothing else differs
between the two. -/
namespace MapOverlay

variable {M L Resources Payload Failure Builder Sink : Type}

namespace SparseTable

variable {Key Value : Type} [Ord Key] [Std.TransOrd Key] [EmptyCollection Value]

/-- Leaves out the keys that a test does not accept. -/
def keep [Std.LawfulEqOrd Key] (table : SparseTable Key Value) (test : Key → Bool) :
    SparseTable Key Value where
  cells := table.cells.filter fun key _ => test key
  cells_ne_empty key := by
    rw [Std.ExtTreeMap.getElem?_filter']
    intro hKept
    exact table.cells_ne_empty key (Option.eq_some_of_filter_eq_some hKept)

theorem read_keep [Std.LawfulEqOrd Key] (table : SparseTable Key Value) (test : Key → Bool)
    (key : Key) : (table.keep test).read key = if test key then table.read key else ∅ := by
  rw [read, keep, Std.ExtTreeMap.getElem?_filter', read]
  cases hTest : test key <;> cases table.cells[key]? <;> rfl

end SparseTable

namespace PlacementIndex

/-- The index without the tiles that lie beyond a level. -/
def upTo (index : PlacementIndex) (last : Zoom) : PlacementIndex where
  rows := index.rows.keep fun tile => tile.zoom.level ≤ last.level

/-- The tiles up to the level keep their shares, and beyond it every share is empty. -/
theorem share_upTo (index : PlacementIndex) (last : Zoom) (tile : Tile) (group : Group) :
    (index.upTo last).share tile group =
      if tile.zoom.level ≤ last.level then index.share tile group else ∅ := by
  rw [share, upTo, SparseTable.read_keep]
  by_cases hLevel : tile.zoom.level ≤ last.level
  · rw [if_pos (decide_eq_true hLevel), if_pos hLevel, share]
  · rw [if_neg (by simpa using hLevel), if_neg hLevel, SparseTable.read_empty]

theorem groupsIn_upTo (index : PlacementIndex) (last : Zoom) (tile : Tile) :
    (index.upTo last).groupsIn tile =
      if tile.zoom.level ≤ last.level then index.groupsIn tile else [] := by
  rw [groupsIn, upTo, SparseTable.read_keep]
  by_cases hLevel : tile.zoom.level ≤ last.level
  · rw [if_pos (decide_eq_true hLevel), if_pos hLevel, groupsIn]
  · rw [if_neg (by simpa using hLevel), if_neg hLevel, SparseTable.toList_eq_nil_iff]

end PlacementIndex

namespace Pyramid

variable {Item : Type} {tile : Tile}

/-- A tile of both pyramids shows the same points in both, because showing depends on the level
of the tile and not on how far the levels go. -/
theorem positions_eq_of_le {coarse fine : Pyramid}
    (hCoarse : tile.zoom.level ≤ coarse.finest.level)
    (hFine : tile.zoom.level ≤ fine.finest.level) (points : Item → List Point)
    (items : Array Item) :
    coarse.positions tile points items = fine.positions tile points items := by
  simp only [positions, Shows, hCoarse, hFine]

/-- A tile beyond a pyramid shows nothing, whatever the items are. -/
theorem positions_eq_nil {pyramid : Pyramid} (hBeyond : ¬ tile.zoom.level ≤ pyramid.finest.level)
    (points : Item → List Point) (items : Array Item) :
    pyramid.positions tile points items = [] := by
  apply List.eq_nil_iff_forall_not_mem.mpr
  intro position hPosition
  obtain ⟨_, _, _, _, hLevel, _⟩ := pyramid.mem_positions.mp hPosition
  exact hBeyond hLevel

end Pyramid

namespace PlacementIndex

variable {coarse fine : Pyramid} {index low high : PlacementIndex} {group : Group}

/-- Replacing a collection in fewer levels is replacing it in all of them and leaving out the
others. Only the last levels of the two pyramids may differ, not the points of the items. -/
theorem upTo_of_replace {Item : Type} {kind : Share.Kind} {points : Item → List Point}
    {lowCover highCover : Item → Except Fault (List Tile)} {items : Array Item}
    (hLowPlaces : coarse.Places lowCover points) (hHighPlaces : fine.Places highCover points)
    (hLevel : coarse.finest.level ≤ fine.finest.level)
    (hLow : (index.upTo coarse.finest).replace kind group lowCover items = .ok low)
    (hHigh : index.replace kind group highCover items = .ok high) :
    low = high.upTo coarse.finest := by
  apply PlacementIndex.ext
  intro tile other
  rw [share_upTo, share_of_replace hLowPlaces hLow, share_of_replace hHighPlaces hHigh, share_upTo,
    share_upTo]
  by_cases hTile : tile.zoom.level ≤ coarse.finest.level
  · simp only [if_pos hTile, Pyramid.positions_eq_of_le hTile (hTile.trans hLevel) points items]
  · simp only [if_neg hTile, Pyramid.positions_eq_nil hTile points items,
      Share.withPositions_empty]
    exact ite_self _

theorem upTo_remove (index : PlacementIndex) (group : Group) (last : Zoom) :
    (index.upTo last).remove group = (index.remove group).upTo last := by
  apply PlacementIndex.ext
  intro tile other
  simp only [share_upTo, share_remove]
  split <;> simp

end PlacementIndex

namespace Overlay

/-- The lower overlay is the higher one without the levels beyond its own pyramid. This is the
relation that edits preserve. -/
structure Truncates (low high : Overlay M L) : Prop where
  level_le : low.pyramid.finest.level ≤ high.pyramid.finest.level
  markSets_eq : low.markSets = high.markSets
  lineSets_eq : low.lineSets = high.lineSets
  shown_eq : low.shown = high.shown
  index_eq : low.index = high.index.upTo low.pyramid.finest

theorem truncates_empty {coarse fine : Pyramid} (hLevel : coarse.finest.level ≤ fine.finest.level) :
    Truncates (empty coarse : Overlay M L) (empty fine) where
  level_le := hLevel
  markSets_eq := rfl
  lineSets_eq := rfl
  shown_eq := rfl
  index_eq := by
    apply PlacementIndex.ext
    intro tile group
    simp only [PlacementIndex.share_upTo, empty, PlacementIndex.share_empty, ite_self]

namespace Truncates

variable {low high : Overlay M L}

/-- Tiles of the lower pyramid show the same in both overlays, with the same positions, and
other tiles show nothing in the lower one. -/
theorem excerpts_eq (hTruncates : Truncates low high) (tile : Tile) :
    low.excerpts tile =
      if tile.zoom.level ≤ low.pyramid.finest.level then high.excerpts tile else [] := by
  have hGroups : low.index.groupsIn tile = _ :=
    hTruncates.index_eq ▸ high.index.groupsIn_upTo low.pyramid.finest tile
  unfold excerpts marks lines isShown
  rw [hGroups, hTruncates.markSets_eq, hTruncates.lineSets_eq, hTruncates.shown_eq]
  split <;> rfl

variable [Pinned M] [Traced L] {nextLow nextHigh : Overlay M L}

/-- The two overlays keep in step under every edit. Their collections take the same change, and
a replacement writes the same positions in every tile of the lower pyramid. -/
theorem apply (hTruncates : Truncates low high) {edit : Edit M L}
    (hLow : low.apply edit = .ok nextLow) (hHigh : high.apply edit = .ok nextHigh) :
    Truncates nextLow nextHigh := by
  cases edit with
  | clear group =>
      cases hLow
      cases hHigh
      refine { hTruncates with
        markSets_eq := ?_, lineSets_eq := ?_, shown_eq := ?_, index_eq := ?_ }
      · exact congrArg (·.erase group) hTruncates.markSets_eq
      · exact congrArg (·.erase group) hTruncates.lineSets_eq
      · exact congrArg (·.erase group) hTruncates.shown_eq
      · exact (congrArg (·.remove group) hTruncates.index_eq).trans
          (high.index.upTo_remove group low.pyramid.finest)
  | setMarks group marks =>
      obtain ⟨lowIndex, hLowIndex, rfl⟩ := setMarks_eq_ok_iff.mp hLow
      obtain ⟨highIndex, hHighIndex, rfl⟩ := setMarks_eq_ok_iff.mp hHigh
      rw [hTruncates.index_eq] at hLowIndex
      refine { hTruncates with markSets_eq := ?_, index_eq := ?_ }
      · exact congrArg (·.insert group marks) hTruncates.markSets_eq
      · exact PlacementIndex.upTo_of_replace (Pyramid.tilesAt_places _) (Pyramid.tilesAt_places _)
          hTruncates.level_le hLowIndex hHighIndex
  | setLines group lines =>
      obtain ⟨lowIndex, hLowIndex, rfl⟩ := setLines_eq_ok_iff.mp hLow
      obtain ⟨highIndex, hHighIndex, rfl⟩ := setLines_eq_ok_iff.mp hHigh
      rw [hTruncates.index_eq] at hLowIndex
      refine { hTruncates with lineSets_eq := ?_, index_eq := ?_ }
      · exact congrArg (·.insert group lines) hTruncates.lineSets_eq
      · exact PlacementIndex.upTo_of_replace (Pyramid.tilesAlong_places _)
          (Pyramid.tilesAlong_places _) hTruncates.level_le hLowIndex hHighIndex
  | setShown group shown =>
      cases hLow
      cases hHigh
      refine { hTruncates with shown_eq := ?_ }
      exact congrArg (fun groups => if shown then groups.insert group else groups.erase group)
        hTruncates.shown_eq

/-- The two overlays keep in step under a queue of edits, by induction on the queue. -/
theorem applyAll (hTruncates : Truncates low high) {edits : List (Edit M L)}
    (hLow : low.applyAll edits = .ok nextLow) (hHigh : high.applyAll edits = .ok nextHigh) :
    Truncates nextLow nextHigh := by
  induction edits generalizing low high with
  | nil =>
      cases hLow
      cases hHigh
      exact hTruncates
  | cons edit later ih =>
      obtain ⟨low, hFirstLow, hLow⟩ := Traversal.bind_eq_ok_iff.mp hLow
      obtain ⟨high, hFirstHigh, hHigh⟩ := Traversal.bind_eq_ok_iff.mp hHigh
      exact ih (hTruncates.apply hFirstLow hFirstHigh) hLow hHigh

end Truncates

/-- A queue of edits is carried out exactly if each of them can be, whatever the pyramid and
the overlay are. -/
theorem exists_applyAll_iff [Pinned M] [Traced L] (overlay : Overlay M L)
    (edits : List (Edit M L)) :
    (∃ final, overlay.applyAll edits = .ok final) ↔ ∀ edit ∈ edits, edit.Indexable := by
  refine ⟨?_, overlay.exists_applyAll⟩
  intro hCarried
  induction edits generalizing overlay with
  | nil => exact List.forall_mem_nil _
  | cons edit later ih =>
      obtain ⟨final, hFinal⟩ := hCarried
      obtain ⟨next, hNext, hLater⟩ := Traversal.bind_eq_ok_iff.mp hFinal
      have hFirst := (overlay.exists_apply_iff edit).mp ⟨next, hNext⟩
      exact List.forall_mem_cons.mpr ⟨hFirst, ih next ⟨final, hLater⟩⟩

/-- A pyramid with fewer levels restricts an overlay and does nothing else to it. A queue of
edits is carried out for both pyramids or for neither. It leaves the same collections and
shown groups, and the index over the coarser pyramid is the other one without the tiles of
the missing levels. A tile of the coarser pyramid is drawn alike from both: any renderer
goes through the same states and is asked for the same, and one that never fails is handed
the same excerpts even if its states differ. Tiles of the missing levels are never drawn
from the overlay over the coarser pyramid. -/
theorem applyAll_truncates [Pinned M] [Traced L] {coarse fine : Pyramid}
    (hLevel : coarse.finest.level ≤ fine.finest.level) (edits : List (Edit M L)) :
    ((∃ low : Overlay M L, (empty coarse).applyAll edits = .ok low) ↔
      ∀ edit ∈ edits, edit.Indexable) ∧
    ∀ low : Overlay M L, (empty coarse).applyAll edits = .ok low →
      ∃ high : Overlay M L, (empty fine).applyAll edits = .ok high ∧
        low.index = high.index.upTo coarse.finest ∧
        low.markSets = high.markSets ∧ low.lineSets = high.lineSets ∧ low.shown = high.shown ∧
        ∀ {Resources Payload Failure Builder Sink : Type}
          (renderer : Renderer M L Resources Payload Failure Builder Sink) (resources : Resources)
          (tile : Tile) (stage : Stage M L Resources Payload Failure Builder Sink),
          (tile.zoom.level ≤ coarse.finest.level →
            renderer.drawOn low resources tile stage = renderer.drawOn high resources tile stage ∧
            (renderer.NeverFails → ∀ other,
              renderer.handedIn low resources tile stage =
                renderer.handedIn high resources tile other)) ∧
          (coarse.finest.level < tile.zoom.level →
            renderer.drawOn low resources tile stage = (.ok (), stage)) := by
  refine ⟨exists_applyAll_iff _ _, ?_⟩
  intro low hLow
  have hIndexable := (exists_applyAll_iff _ _).mp ⟨low, hLow⟩
  obtain ⟨high, hHigh⟩ := (empty fine : Overlay M L).exists_applyAll hIndexable
  have hTruncates := (truncates_empty hLevel).applyAll hLow hHigh
  have hPyramid : low.pyramid = coarse := pyramid_of_applyAll hLow
  refine ⟨high, hHigh, hPyramid ▸ hTruncates.index_eq, hTruncates.markSets_eq,
    hTruncates.lineSets_eq, hTruncates.shown_eq, ?_⟩
  intro Resources Payload Failure Builder Sink renderer resources tile stage
  have hExcerpts := hTruncates.excerpts_eq tile
  rw [hPyramid] at hExcerpts
  constructor
  · intro hTile
    rw [if_pos hTile] at hExcerpts
    refine ⟨?_, ?_⟩
    · rw [renderer.drawOn_eq, renderer.drawOn_eq, hExcerpts]
    · intro hNever other
      rw [renderer.handedIn_eq hNever, renderer.handedIn_eq hNever, hExcerpts]
  · intro hBeyond
    rw [if_neg (Nat.not_le.mpr hBeyond)] at hExcerpts
    exact renderer.drawOn_of_excerpts_eq_nil hExcerpts resources stage

/-- A group is moved and another one comes and goes. -/
def shortQueue : List (Edit Point (List Point)) :=
  [.setMarks ⟨1⟩ #[⟨10, 10⟩, ⟨-10, 10⟩], .setLines ⟨2⟩ #[[⟨10, 10⟩, ⟨400, 10⟩]],
    .setShown ⟨1⟩ true, .setMarks ⟨1⟩ #[⟨-10, 10⟩], .clear ⟨2⟩]

/-- The coarser overlay is left with one tile, and the other with one for each of its
levels. -/
theorem applyAll_shortQueue :
    ({ finest := Zoom.coarsest } : Pyramid).finest.level ≤ ({} : Pyramid).finest.level ∧
    ∃ low high : Overlay Point (List Point),
      (empty { finest := Zoom.coarsest }).applyAll shortQueue = .ok low ∧
      (empty {}).applyAll shortQueue = .ok high ∧
      low.index = high.index.upTo Zoom.coarsest ∧ low.index.size = 1 ∧ high.index.size = 17 := by
  have hLevel : ({ finest := Zoom.coarsest } : Pyramid).finest.level ≤
      ({} : Pyramid).finest.level := by decide
  have hIndexable : ∀ edit ∈ shortQueue, edit.Indexable := by
    simp only [shortQueue, List.forall_mem_cons]
    refine ⟨?_, ?_, trivial, ?_, trivial, List.forall_mem_nil _⟩
    all_goals constructor <;> decide
  obtain ⟨hCarried, hTruncated⟩ := applyAll_truncates hLevel shortQueue
  obtain ⟨low, hLow⟩ := hCarried.mpr hIndexable
  obtain ⟨high, hHigh, hIndex, _⟩ := hTruncated low hLow
  have hLowSize : ((empty { finest := Zoom.coarsest }).applyAll shortQueue).toOption.map
      (·.index.size) = some 1 := by decide +kernel
  have hHighSize : ((empty {}).applyAll shortQueue).toOption.map (·.index.size) = some 17 := by
    decide +kernel
  rw [hLow] at hLowSize
  rw [hHigh] at hHighSize
  exact ⟨hLevel, low, high, hLow, hHigh, hIndex, Option.some.inj hLowSize,
    Option.some.inj hHighSize⟩

end Overlay

end MapOverlay
