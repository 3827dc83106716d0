import Mathlib.Data.List.FinRange
import Mathlib.Data.List.Sort
import MapOverlay.Index.Replace
import MapOverlay.Proofs.Traversal

/-! Where the items of a collection are placed, said for one tile at a time and without
an index: the positions of the items that have a point in the tile. Replacing a
collection in an index gives a group exactly these positions and changes nothing else. -/
namespace MapOverlay

/-- The point falls in this tile of the tile's own grid. -/
def Tile.Holds (tile : Tile) (point : Point) : Prop :=
  Tile.containing point tile.zoom = .ok tile

/-- A tile holds the finite points that its own grid places in it. -/
theorem Tile.holds_iff {tile : Tile} {point : Point} :
    tile.Holds point ↔ point.isFinite ∧ Tile.locate point tile.zoom = tile := by
  cases hFinite : point.isFinite with
  | true => simp [Holds, containing_of_finite hFinite]
  | false => simp [Holds, containing_of_not_finite hFinite]

/-- A lookup on one level answers with the tile of the level that holds the point, and with no
other. -/
theorem Tile.containing_eq_ok_iff {tile : Tile} {point : Point} {zoom : Zoom} :
    Tile.containing point zoom = .ok tile ↔ tile.zoom = zoom ∧ tile.Holds point := by
  constructor
  · intro hContaining
    have hZoom : tile.zoom = zoom := by
      rw [containing] at hContaining
      split at hContaining
      · exact (Except.ok.inj hContaining) ▸ rfl
      · cases hContaining
    subst hZoom
    exact ⟨rfl, hContaining⟩
  · intro hTile
    obtain ⟨hZoom, hHolds⟩ := hTile
    subst hZoom
    exact hHolds

instance (tile : Tile) (point : Point) : Decidable (tile.Holds point) :=
  decidable_of_iff _ Tile.holds_iff.symm

/-- The tile belongs to the pyramid and holds the point. -/
def Pyramid.Shows (pyramid : Pyramid) (tile : Tile) (point : Point) : Prop :=
  tile.zoom.level ≤ pyramid.finest.level ∧ tile.Holds point

instance (pyramid : Pyramid) (tile : Tile) (point : Point) :
    Decidable (pyramid.Shows tile point) :=
  inferInstanceAs (Decidable (_ ∧ _))

namespace Pyramid

variable {Item : Type} (pyramid : Pyramid)

/-- The positions of the items that a tile shows a point of, ascending. -/
def positions (tile : Tile) (points : Item → List Point) (items : Array Item) : List Nat :=
  items.toList.findIdxs fun item => (points item).any fun point => pyramid.Shows tile point

theorem pairwise_positions (tile : Tile) (points : Item → List Point) (items : Array Item) :
    (pyramid.positions tile points items).Pairwise (· < ·) :=
  List.pairwise_findIdxs

/-- A position is listed if there is an item at it of which the tile shows a point. Several
points in the tile list it once. -/
theorem mem_positions {tile : Tile} {points : Item → List Point} {items : Array Item}
    {position : Nat} :
    position ∈ pyramid.positions tile points items ↔
      ∃ item, items[position]? = some item ∧ ∃ point ∈ points item, pyramid.Shows tile point := by
  rw [positions, List.mem_findIdxs_iff_exists_getElem_pos]
  constructor
  · rintro ⟨hPosition, hShows⟩
    obtain ⟨point, hPoint, hShown⟩ := List.any_eq_true.mp hShows
    exact ⟨_, Array.getElem?_eq_getElem hPosition, point, hPoint, of_decide_eq_true hShown⟩
  · rintro ⟨item, hItem, point, hPoint, hShows⟩
    obtain ⟨hPosition, rfl⟩ := Array.getElem?_eq_some_iff.mp hItem
    exact ⟨hPosition, List.any_eq_true.mpr ⟨point, hPoint, decide_eq_true hShows⟩⟩

theorem mem_positions_of_item {tile : Tile} {points : Item → List Point} {items : Array Item}
    {position : Nat} {item : Item} (hItem : items[position]? = some item) :
    position ∈ pyramid.positions tile points items ↔
      ∃ point ∈ points item, pyramid.Shows tile point := by
  rw [mem_positions, hItem]
  simp only [Option.some_inj, exists_eq_left']

theorem nodup_positions (tile : Tile) (points : Item → List Point) (items : Array Item) :
    (pyramid.positions tile points items).Nodup :=
  (pyramid.pairwise_positions tile points items).imp Nat.ne_of_lt

/-- The positions of the marks that a tile shows, ascending. -/
def markPositions {M : Type} [Pinned M] (tile : Tile) (marks : Array M) : List Nat :=
  pyramid.positions tile (fun mark => [Pinned.pivot mark]) marks

/-- The positions of the lines with a vertex in a tile, ascending. A line counts once. -/
def linePositions {L : Type} [Traced L] (tile : Tile) (lines : Array L) : List Nat :=
  pyramid.positions tile Traced.vertices lines

theorem mem_markPositions {M : Type} [Pinned M] {tile : Tile} {marks : Array M}
    {position : Nat} :
    position ∈ pyramid.markPositions tile marks ↔
      ∃ mark, marks[position]? = some mark ∧ pyramid.Shows tile (Pinned.pivot mark) := by
  simp [markPositions, mem_positions]

/-- The lines of a tile are those with a vertex in it. A line that merely crosses the tile is
not among them. -/
theorem mem_linePositions {L : Type} [Traced L] {tile : Tile} {lines : Array L}
    {position : Nat} :
    position ∈ pyramid.linePositions tile lines ↔
      ∃ line, lines[position]? = some line ∧
        ∃ vertex ∈ Traced.vertices line, pyramid.Shows tile vertex :=
  mem_positions pyramid

/-- How a lookup of tiles answers for items that are placed by points: each tile that
shows one of the points comes once, and no point without a tile goes unnoticed. -/
structure Places (cover : Item → Except Fault (List Tile)) (points : Item → List Point) :
    Prop where
  ok_of_finite : ∀ item, (∀ point ∈ points item, point.isFinite) →
    ∃ tiles, cover item = .ok tiles ∧ tiles.Nodup ∧
      ∀ tile, tile ∈ tiles ↔ ∃ point ∈ points item, pyramid.Shows tile point
  error_of_not_finite : ∀ item, (∃ point ∈ points item, point.isFinite = false) →
    cover item = .error .nonFiniteCoordinate

/-- Locating a finite point level by level finds the tiles of the pyramid that show it. -/
theorem mem_map_locate {point : Point} (hFinite : point.isFinite) {tile : Tile} :
    tile ∈ pyramid.levels.map (Tile.locate point) ↔ pyramid.Shows tile point := by
  rw [Shows, Tile.holds_iff, List.mem_map]
  constructor
  · rintro ⟨zoom, hZoom, rfl⟩
    exact ⟨Zoom.mem_upTo.mp hZoom, hFinite, rfl⟩
  · rintro ⟨hLevel, _, hLocate⟩
    exact ⟨tile.zoom, Zoom.mem_upTo.mpr hLevel, hLocate⟩

theorem nodup_levels : pyramid.levels.Nodup := by
  rw [levels, Zoom.upTo, List.nodup_ofFn]
  intro first second hEqual
  have hLevel := congrArg Zoom.level hEqual
  simp only at hLevel
  omega

/-- Tiles of different levels differ, so the tiles of a point do. There is one for each
level. -/
theorem nodup_map_locate (point : Point) :
    (pyramid.levels.map (Tile.locate point)).Nodup :=
  pyramid.nodup_levels.map fun _ _ hEqual => congrArg Tile.zoom hEqual

/-- Marks are placed by their pivot, with one tile for each level. -/
theorem tilesAt_places {M : Type} [Pinned M] :
    pyramid.Places (fun mark : M => pyramid.tilesAt (Pinned.pivot mark))
      (fun mark => [Pinned.pivot mark]) where
  ok_of_finite mark hFinite := by
    have hPivot := hFinite _ (List.mem_singleton_self _)
    refine ⟨_, pyramid.tilesAt_of_finite hPivot, pyramid.nodup_map_locate _, ?_⟩
    intro tile
    simpa using pyramid.mem_map_locate hPivot
  error_of_not_finite mark hPoint := by
    obtain ⟨point, hMem, hFinite⟩ := hPoint
    rw [List.mem_singleton] at hMem
    subst hMem
    exact pyramid.tilesAt_of_not_finite hFinite

/-- One vertex without a tile is enough for a path to have none, wherever on the path it is. -/
theorem tilesAlong_of_not_finite {vertices : List Point}
    (hVertex : ∃ vertex ∈ vertices, vertex.isFinite = false) :
    pyramid.tilesAlong vertices = .error .nonFiniteCoordinate := by
  obtain ⟨vertex, hMem, hFinite⟩ := hVertex
  have hVisited : vertices.mapM pyramid.tilesAt = .error .nonFiniteCoordinate := by
    apply Traversal.mapM_eq_error_of_mem hMem (pyramid.tilesAt_of_not_finite hFinite)
    intro other _ cause hCause
    cases hOther : other.isFinite with
    | true =>
        rw [pyramid.tilesAt_of_finite hOther] at hCause
        cases hCause
    | false =>
        rw [pyramid.tilesAt_of_not_finite hOther] at hCause
        exact (Except.error.inj hCause).symm
  rw [tilesAlong, hVisited]
  rfl

/-- Lines are placed by their vertices. A tile that holds several of them comes once. -/
theorem tilesAlong_places {L : Type} [Traced L] :
    pyramid.Places (fun line : L => pyramid.tilesAlong (Traced.vertices line))
      Traced.vertices where
  ok_of_finite line hFinite := by
    refine ⟨_, pyramid.tilesAlong_of_finite hFinite, ?_, ?_⟩
    · exact Std.ExtTreeSet.distinct_toList.imp Std.ReflCmp.ne_of_cmp_ne_eq
    · intro tile
      rw [Std.ExtTreeSet.mem_toList, Std.ExtTreeSet.mem_ofList, List.contains_iff_mem,
        List.mem_flatMap]
      constructor
      · rintro ⟨vertex, hMem, hTile⟩
        exact ⟨vertex, hMem, (pyramid.mem_map_locate (hFinite vertex hMem)).mp hTile⟩
      · rintro ⟨vertex, hMem, hShows⟩
        exact ⟨vertex, hMem, (pyramid.mem_map_locate (hFinite vertex hMem)).mpr hShows⟩
  error_of_not_finite line := pyramid.tilesAlong_of_not_finite

end Pyramid

end MapOverlay
