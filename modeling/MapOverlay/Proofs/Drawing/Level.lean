import MapOverlay.Proofs.Drawing.Painter
import MapOverlay.Proofs.Overlay.Reachable

/-! Drawing a whole level, tile by tile. Each visible mark is drawn once, in the tile
that holds it, and each line once in every tile that holds one of its vertices. -/
namespace MapOverlay

/-- The tiles of one level that show anything, ascending. -/
def PlacementIndex.tilesOn (index : PlacementIndex) (zoom : Zoom) : List Tile :=
  index.tiles.filter fun tile => tile.zoom = zoom

/-- What `pick` takes from the drawings that were delivered for a group. -/
def collect {Result : Type} (delivered : List (Group × Drawing)) (group : Group)
    (pick : Drawing → List Result) : List Result :=
  delivered.flatMap fun entry => if entry.1 = group then pick entry.2 else []

/-- The quads of one mark, each with the tile that it was drawn in. -/
def quadsOf (delivered : List (Group × Drawing)) (group : Group) (position : Nat) :
    List (Tile × Quad) :=
  collect delivered group fun drawing =>
    (drawing.quads.filter fun quad => quad.position = position).map fun quad =>
      (drawing.tile, quad)

/-- The strips of one line in one tile. -/
def stripsOf (delivered : List (Group × Drawing)) (group : Group) (position : Nat)
    (tile : Tile) : List Strip :=
  collect delivered group fun drawing =>
    if drawing.tile = tile then drawing.strips.filter fun strip => strip.position = position
    else []

/-- A line has no strips anywhere if no strip that was delivered for its group names it. Strips
of other groups may stand at the same position. -/
theorem stripsOf_eq_nil {delivered : List (Group × Drawing)} {group : Group} {position : Nat}
    (hNone : ∀ entry ∈ delivered, entry.1 = group → ∀ strip ∈ entry.2.strips,
      strip.position ≠ position) (tile : Tile) : stripsOf delivered group position tile = [] := by
  rw [stripsOf, collect, List.flatMap_eq_nil_iff]
  intro entry hEntry
  split
  · rename_i hGroup
    split
    · rw [List.filter_eq_nil_iff]
      intro strip hStrip
      simpa using hNone entry hEntry hGroup strip hStrip
    · rfl
  · rfl

namespace Overlay

/-- The atlas has a sprite for everything that is there to be seen. -/
def CoveredBy (overlay : Overlay Mark Line) (atlas : Atlas) : Prop :=
  ∀ group, overlay.isShown group → ∀ mark ∈ overlay.marks group, mark.visible →
    ∃ sprite, atlas.find? mark.symbol = some sprite

/-- What drawing some tiles delivers where everything can be drawn. -/
def deliveries (overlay : Overlay Mark Line) (atlas : Atlas) (tiles : List Tile) :
    List (Group × Drawing) :=
  tiles.flatMap fun tile => (overlay.excerpts tile).map (Renderer.delivery atlas tile)

variable {overlay : Overlay Mark Line} {atlas : Atlas}

/-- Indexed positions are in range, so only a missing sprite could be in the way, and the atlas
has them all. -/
theorem Indexed.drawable (hIndexed : overlay.Indexed) (hCovered : overlay.CoveredBy atlas)
    {tile : Tile} {excerpt : Excerpt Mark Line} (hExcerpt : excerpt ∈ overlay.excerpts tile) :
    excerpt.Drawable atlas := by
  rw [hIndexed.excerpts_eq, List.mem_map] at hExcerpt
  obtain ⟨group, hGroup, rfl⟩ := hExcerpt
  have hShown := overlay.mem_shownGroups.mp (List.mem_of_mem_filter hGroup)
  constructor
  · intro position hPosition
    obtain ⟨mark, hMark, _⟩ := (Pyramid.mem_markPositions _).mp hPosition
    exact ⟨mark, hMark, hCovered group hShown mark (Array.mem_of_getElem? hMark)⟩
  · intro position hPosition
    obtain ⟨line, hLine, _⟩ := (Pyramid.mem_linePositions _).mp hPosition
    exact ⟨line, hLine⟩

/-- Where a group has nothing, nothing is delivered for it, and nothing could be picked from a
drawing of it either. So picking goes through all tiles alike. -/
theorem Indexed.collect_deliveries {Result : Type} (hIndexed : overlay.Indexed) {group : Group}
    (hShown : overlay.isShown group) (tiles : List Tile) {pick : Drawing → List Result}
    (hBlank : ∀ drawing, drawing.quads = [] → drawing.strips = [] → pick drawing = []) :
    collect (overlay.deliveries atlas tiles) group pick =
      tiles.flatMap fun tile => pick ((overlay.scene.excerpt tile group).picture tile atlas) := by
  rw [collect, deliveries, List.flatMap_assoc]
  apply List.flatMap_congr
  intro tile _
  rw [hIndexed.excerpts_eq, List.map_map, List.flatMap_map]
  by_cases hShare : overlay.scene.share tile group = ∅
  · rw [hBlank, List.flatMap_eq_nil_iff]
    · intro other hOther
      rw [overlay.mem_filter_shownGroups] at hOther
      apply if_neg
      rintro rfl
      exact hOther.2 hShare
    · have hMarks : (overlay.scene.share tile group).marks = [] := by rw [hShare]; rfl
      simp [Excerpt.picture, Scene.excerpt, hMarks]
    · have hLines : (overlay.scene.share tile group).lines = [] := by rw [hShare]; rfl
      simp [Excerpt.picture, Scene.excerpt, hLines]
  · rw [Traversal.flatMap_eq_of_only (overlay.nodup_shownGroups.filter _)
      (overlay.mem_filter_shownGroups.mpr ⟨hShown, hShare⟩)]
    · exact if_pos rfl
    · intro other _ hNe
      exact if_neg hNe

section Tile

variable {tile : Tile} (hLevel : tile.zoom.level ≤ overlay.pyramid.finest.level) {group : Group}
  {position : Nat}
include hLevel

/-- In a tile of a level that the overlay has, a mark is listed exactly if the tile holds its
pivot. -/
theorem mem_markPositions_excerpt {mark : Mark}
    (hMark : (overlay.marks group)[position]? = some mark) :
    position ∈ (overlay.scene.excerpt tile group).markPositions ↔ tile.Holds mark.pivot := by
  have hListed : position ∈ (overlay.scene.excerpt tile group).markPositions ↔
      ∃ point ∈ [mark.pivot], overlay.pyramid.Shows tile point :=
    overlay.pyramid.mem_positions_of_item hMark
  simp [hListed, Pyramid.Shows, hLevel]

theorem mem_linePositions_excerpt {line : Line}
    (hLine : (overlay.lines group)[position]? = some line) :
    position ∈ (overlay.scene.excerpt tile group).linePositions ↔
      ∃ vertex ∈ line.points, tile.Holds vertex := by
  have hListed : position ∈ (overlay.scene.excerpt tile group).linePositions ↔
      ∃ vertex ∈ line.points, overlay.pyramid.Shows tile vertex :=
    overlay.pyramid.mem_positions_of_item hLine
  simp [hListed, Pyramid.Shows, hLevel]

/-- One tile has a quad of a visible mark exactly if it holds the mark, and then just one. -/
theorem quads_picture {mark : Mark} (hMark : (overlay.marks group)[position]? = some mark)
    (hVisible : mark.visible) {sprite : Sprite} (hSprite : atlas.find? mark.symbol = some sprite) :
    ((overlay.scene.excerpt tile group).picture tile atlas).quads.filter
        (fun quad => quad.position = position) =
      if tile.Holds mark.pivot then [mark.quad sprite tile.toLocal position] else [] := by
  have hFound : (overlay.scene.excerpt tile group).quadFor? atlas tile.toLocal position =
      some (mark.quad sprite tile.toLocal position) :=
    Excerpt.quadFor?_eq_some_iff.mpr ⟨mark, sprite, hMark, hVisible, hSprite, rfl⟩
  rw [Excerpt.quads_at (Pyramid.nodup_positions _ _ _ _), hFound, Option.toList_some]
  simp only [mem_markPositions_excerpt hLevel hMark]

/-- One tile has the strips of a line exactly if it holds a vertex of the line. Depths may
bring them into another order. -/
theorem strips_picture {line : Line} (hLine : (overlay.lines group)[position]? = some line) :
    (((overlay.scene.excerpt tile group).picture tile atlas).strips.filter
        fun strip => strip.position = position).Perm
      (if ∃ vertex ∈ line.points, tile.Holds vertex then line.strips tile.toLocal position
      else []) := by
  have hHeld : (overlay.scene.excerpt tile group).lines[position]? = some line := hLine
  have hFound : (overlay.scene.excerpt tile group).stripsFor tile.toLocal position =
      line.strips tile.toLocal position := Excerpt.stripsFor_of_line hHeld
  simp only [← mem_linePositions_excerpt hLevel hLine, ← hFound]
  exact Excerpt.strips_at (Pyramid.nodup_positions _ _ _ _) tile position

end Tile

section Level

variable {zoom : Zoom} {tiles : List Tile} (hIndexed : overlay.Indexed)
  (hTiles : tiles.Perm (overlay.index.tilesOn zoom))
include hIndexed hTiles

/-- The tiles that are drawn are those of the level in which some group has something. -/
theorem mem_level {tile : Tile} :
    tile ∈ tiles ↔ tile.zoom = zoom ∧ ∃ group, overlay.scene.share tile group ≠ ∅ := by
  rw [hTiles.mem_iff, PlacementIndex.tilesOn, List.mem_filter, PlacementIndex.mem_tiles,
    decide_eq_true_iff, and_comm]
  simp only [hIndexed tile]

omit hIndexed in
theorem nodup_level : tiles.Nodup := by
  rw [hTiles.nodup_iff]
  exact overlay.index.nodup_tiles.filter _

variable (hZoom : zoom.level ≤ overlay.pyramid.finest.level)
include hZoom

/-- A visible mark has one quad, in the tile of the level that holds it. Of all tiles of the
level only this one contributes. -/
theorem quadsOf_deliveries (hCovered : overlay.CoveredBy atlas) {group : Group}
    (hShown : overlay.isShown group) {position : Nat} {mark : Mark}
    (hMark : (overlay.marks group)[position]? = some mark) (hVisible : mark.visible)
    (hFinite : mark.pivot.isFinite) :
    ∃ sprite tile, atlas.find? mark.symbol = some sprite ∧
      Tile.containing mark.pivot zoom = .ok tile ∧
      quadsOf (overlay.deliveries atlas tiles) group position =
        [(tile, mark.quad sprite tile.toLocal position)] := by
  obtain ⟨sprite, hSprite⟩ :=
    hCovered group hShown mark (Array.mem_of_getElem? hMark) hVisible
  have hQuads (tile : Tile) (hTile : tile.zoom = zoom) :
      ((overlay.scene.excerpt tile group).picture tile atlas).quads.filter
          (fun quad => quad.position = position) =
        if Tile.locate mark.pivot zoom = tile then [mark.quad sprite tile.toLocal position]
        else [] := by
    subst hTile
    rw [quads_picture hZoom hMark hVisible hSprite]
    simp only [Tile.holds_iff, hFinite, true_and]
  have hHolds : (Tile.locate mark.pivot zoom).Holds mark.pivot :=
    Tile.holds_iff.mpr ⟨hFinite, rfl⟩
  have hHeld : Tile.locate mark.pivot zoom ∈ tiles := by
    refine (mem_level hIndexed hTiles).mpr ⟨rfl, group, (Share.ne_empty_iff _).mpr (Or.inl ?_)⟩
    exact ⟨position, (mem_markPositions_excerpt hZoom hMark).mpr hHolds⟩
  refine ⟨sprite, _, hSprite, Tile.containing_of_finite hFinite zoom, ?_⟩
  rw [quadsOf, hIndexed.collect_deliveries hShown,
    Traversal.flatMap_eq_of_only (nodup_level hTiles) hHeld]
  · rw [hQuads _ rfl, if_pos rfl]
    rfl
  · intro tile hTile hNe
    rw [hQuads tile ((mem_level hIndexed hTiles).mp hTile).1, if_neg (Ne.symm hNe), List.map_nil]
  · intro drawing hNone _
    rw [hNone]
    rfl

/-- A line has its strips in the tiles of the level that hold a vertex of it, in each of
them once, and nowhere else. -/
theorem stripsOf_deliveries {group : Group} (hShown : overlay.isShown group) {position : Nat}
    {line : Line} (hLine : (overlay.lines group)[position]? = some line) (tile : Tile) :
    (stripsOf (overlay.deliveries atlas tiles) group position tile).Perm
      (if tile.zoom = zoom ∧ ∃ vertex ∈ line.points, tile.Holds vertex then
        line.strips tile.toLocal position
      else []) := by
  rw [stripsOf, hIndexed.collect_deliveries hShown]
  · by_cases hTile : tile ∈ tiles
    · have hLevel := ((mem_level hIndexed hTiles).mp hTile).1
      rw [Traversal.flatMap_eq_of_only (nodup_level hTiles) hTile]
      · simp only [hLevel, true_and]
        rw [Excerpt.tile_picture, if_pos rfl]
        exact strips_picture (hLevel ▸ hZoom) hLine
      · intro other _ hNe
        exact if_neg hNe
    · rw [if_neg, List.perm_nil, List.flatMap_eq_nil_iff]
      · intro other hOther
        apply if_neg
        rintro rfl
        exact hTile hOther
      · intro hTouched
        obtain ⟨hLevel, hVertex⟩ := hTouched
        apply hTile
        refine (mem_level hIndexed hTiles).mpr
          ⟨hLevel, group, (Share.ne_empty_iff _).mpr (Or.inr ?_)⟩
        exact ⟨position, (mem_linePositions_excerpt (hLevel ▸ hZoom) hLine).mpr hVertex⟩
  · intro drawing _ hNone
    rw [hNone]
    exact ite_self _

end Level

/-- Every drawing is of a shown group, and everything in it of an item that shows. Hidden marks
and lines without extent have left nothing in it. -/
theorem Indexed.drawn_of_mem_deliveries (hIndexed : overlay.Indexed) {tiles : List Tile}
    {group : Group} {drawing : Drawing}
    (hDelivered : (group, drawing) ∈ overlay.deliveries atlas tiles) :
    overlay.isShown group ∧ drawing.tile ∈ tiles ∧
      (∀ quad ∈ drawing.quads, ∃ mark,
        (overlay.marks group)[quad.position]? = some mark ∧ mark.visible) ∧
      ∀ strip ∈ drawing.strips, ∃ line,
        (overlay.lines group)[strip.position]? = some line ∧ 2 ≤ line.points.length := by
  obtain ⟨tile, hTile, hEntry⟩ := List.mem_flatMap.mp hDelivered
  rw [hIndexed.excerpts_eq, List.map_map, List.mem_map] at hEntry
  obtain ⟨owner, hOwner, hDelivery⟩ := hEntry
  obtain ⟨rfl, rfl⟩ := Prod.mk.inj hDelivery
  refine ⟨(overlay.mem_filter_shownGroups.mp hOwner).1, hTile, ?_, ?_⟩
  · intro quad hQuad
    obtain ⟨position, _, hFound⟩ := Excerpt.mem_quads_picture.mp hQuad
    obtain ⟨mark, _, hMark, hVisible, _⟩ := Excerpt.quadFor?_eq_some_iff.mp hFound
    rw [Excerpt.position_of_quadFor? hFound]
    exact ⟨mark, hMark, hVisible⟩
  · intro strip hStrip
    obtain ⟨position, _, hFound⟩ := Excerpt.mem_strips_picture.mp hStrip
    obtain ⟨line, _, hLine, hExtent, _, _⟩ := Excerpt.mem_stripsFor_iff.mp hFound
    rw [Excerpt.position_of_mem_stripsFor hFound]
    exact ⟨line, hLine, hExtent⟩

/-- No group is delivered twice for one tile, since a tile is drawn once and has one excerpt
for each group. -/
theorem Indexed.nodup_deliveries (hIndexed : overlay.Indexed) {tiles : List Tile}
    (hNodup : tiles.Nodup) :
    ((overlay.deliveries atlas tiles).map fun entry => (entry.1, entry.2.tile)).Nodup := by
  rw [deliveries, List.map_flatMap, List.nodup_flatMap]
  have hKeys (tile : Tile) :
      ((overlay.excerpts tile).map (Renderer.delivery atlas tile)).map
          (fun entry => (entry.1, entry.2.tile)) =
        (overlay.shownGroups.filter fun group =>
          !(overlay.scene.share tile group).isEmpty).map fun group => (group, tile) := by
    rw [hIndexed.excerpts_eq, List.map_map, List.map_map]
    rfl
  simp only [hKeys]
  constructor
  · intro tile _
    apply (overlay.nodup_shownGroups.filter _).map
    intro first second hEqual
    exact congrArg Prod.fst hEqual
  · apply hNodup.imp
    intro first second hNe key hFirst hSecond
    obtain ⟨_, _, rfl⟩ := List.mem_map.mp hFirst
    obtain ⟨_, _, hKey⟩ := List.mem_map.mp hSecond
    exact hNe (congrArg Prod.snd hKey).symm

end Overlay

namespace Renderer

open Overlay

/-- Drawing every tile of a level, in any order, loses nothing and doubles nothing. No
drawing fails. A visible mark of a shown group has exactly one quad, in the tile that
holds it. A line of at least two points has one strip for each stroke in every tile that
holds one of its vertices, and none elsewhere. There is nothing of hidden groups, hidden
marks and shorter lines, and a group is delivered at most once for a tile. -/
theorem paint_level {overlay : Overlay Mark Line} (hReachable : overlay.Reachable) {zoom : Zoom}
    (hZoom : zoom.level ≤ overlay.pyramid.finest.level) {atlas : Atlas}
    (hCovered : overlay.CoveredBy atlas) {tiles : List Tile}
    (hTiles : tiles.Perm (overlay.index.tilesOn zoom)) :
    let outcome := painter.run overlay ⟨(), [], []⟩ (tiles.map (.draw atlas))
    let delivered := outcome.stage.sink
    outcome.fault = none ∧
    outcome.stage.answers = tiles.map (fun _ => .ok ()) ∧
    (∀ group position mark, overlay.isShown group →
      (overlay.marks group)[position]? = some mark → mark.visible →
      ∃ sprite tile, atlas.find? mark.symbol = some sprite ∧
        Tile.containing mark.pivot zoom = .ok tile ∧
        quadsOf delivered group position = [(tile, mark.quad sprite tile.toLocal position)]) ∧
    (∀ group position line, overlay.isShown group →
      (overlay.lines group)[position]? = some line → 2 ≤ line.points.length → ∀ tile,
      ((∃ vertex ∈ line.points, Tile.containing vertex zoom = .ok tile) →
        (stripsOf delivered group position tile).Perm
          (line.strokes.map (line.strip tile.toLocal position))) ∧
      ((∀ vertex ∈ line.points, Tile.containing vertex zoom ≠ .ok tile) →
        stripsOf delivered group position tile = [])) ∧
    (∀ entry ∈ delivered, overlay.isShown entry.1 ∧ entry.2.tile.zoom = zoom ∧
      (∀ quad ∈ entry.2.quads, ∃ mark,
        (overlay.marks entry.1)[quad.position]? = some mark ∧ mark.visible) ∧
      ∀ strip ∈ entry.2.strips, ∃ line,
        (overlay.lines entry.1)[strip.position]? = some line ∧ 2 ≤ line.points.length) ∧
    (delivered.map fun entry => (entry.1, entry.2.tile)).Nodup := by
  intro outcome delivered
  have hIndexed := hReachable.indexed
  obtain ⟨hFault, _, hSink, hAnswers⟩ :=
    paint_tiles (fun tile _ excerpt hExcerpt => hIndexed.drawable hCovered hExcerpt)
      (⟨(), [], []⟩ : Canvas)
  have hDelivered : delivered = overlay.deliveries atlas tiles := hSink
  rw [hDelivered]
  refine ⟨hFault, hAnswers, ?_, ?_, ?_, ?_⟩
  · intro group position mark hShown hMark hVisible
    have hFinite := (hReachable.admitted group).1.2 mark (Array.mem_of_getElem? hMark)
    exact quadsOf_deliveries hIndexed hTiles hZoom hCovered hShown hMark hVisible hFinite
  · intro group position line hShown hLine hExtent tile
    have hStrips : (stripsOf (overlay.deliveries atlas tiles) group position tile).Perm _ :=
      stripsOf_deliveries hIndexed hTiles hZoom hShown hLine tile
    rw [line.strips_eq, if_pos hExtent] at hStrips
    simp only [Tile.containing_eq_ok_iff, not_and, ne_eq]
    constructor
    · intro hTouched
      obtain ⟨vertex, hVertex, hLevel, hHolds⟩ := hTouched
      rwa [if_pos ⟨hLevel, vertex, hVertex, hHolds⟩] at hStrips
    · intro hNone
      have hUntouched : ¬ (tile.zoom = zoom ∧ ∃ vertex ∈ line.points, tile.Holds vertex) := by
        intro hTouched
        obtain ⟨hLevel, vertex, hVertex, hHolds⟩ := hTouched
        exact hNone vertex hVertex hLevel hHolds
      rw [if_neg hUntouched] at hStrips
      exact hStrips.eq_nil
  · intro entry hEntry
    obtain ⟨hShown, hTile, hMarks, hLines⟩ := hIndexed.drawn_of_mem_deliveries hEntry
    exact ⟨hShown, ((mem_level hIndexed hTiles).mp hTile).1, hMarks, hLines⟩
  · exact hIndexed.nodup_deliveries (nodup_level hTiles)

/-- An atlas for the marks that are to be seen. -/
def pinAtlas : Atlas :=
  (∅ : Atlas).insert "pin" ⟨⟨0, 0, 1, 1⟩, ⟨16, 16⟩⟩

def pinnedMarks : Array Mark :=
  #[⟨⟨10, 10⟩, "pin", ⟨0, 0⟩, Anchor.center, 0, true⟩,
    ⟨⟨10, 10⟩, "unknown", ⟨0, 0⟩, Anchor.center, 0, false⟩]

def pinnedLines : Array Line :=
  #[⟨[⟨10, 10⟩, ⟨400, 10⟩, ⟨20, 20⟩], [⟨⟨0, 0, 0, 255⟩, 2, 1⟩]⟩,
    ⟨[⟨10, 10⟩], [⟨⟨0, 0, 0, 255⟩, 2, 1⟩]⟩]

/-- The shown group has a hidden mark on top of a visible one, a line that returns to the
tile it starts in, and a line without extent. The other group is not shown. -/
def pinnedEdits : List (Edit Mark Line) :=
  [.setMarks ⟨1⟩ pinnedMarks,
    .setLines ⟨1⟩ pinnedLines,
    .setShown ⟨1⟩ true,
    .setMarks ⟨2⟩ #[⟨⟨-10, 10⟩, "unknown", ⟨0, 0⟩, Anchor.center, 0, true⟩]]

/-- The visible mark has one quad, and the hidden one needs no sprite. The line that returns
has one strip in each of its two tiles, and the line without extent has none. -/
theorem paint_level_pinned :
    ∃ overlay : Overlay Mark Line, (Overlay.empty {}).applyAll pinnedEdits = .ok overlay ∧
      overlay.CoveredBy pinAtlas ∧
      let outcome := painter.run overlay ⟨(), [], []⟩
        ((overlay.index.tilesOn Zoom.coarsest).map (.draw pinAtlas))
      outcome.fault = none ∧ (quadsOf outcome.stage.sink ⟨1⟩ 0).length = 1 ∧
      (∀ tile, (stripsOf outcome.stage.sink ⟨1⟩ 0 tile).length =
        if tile = ⟨Zoom.coarsest, 0, 0⟩ ∨ tile = ⟨Zoom.coarsest, 1, 0⟩ then 1 else 0) ∧
      ∀ tile, stripsOf outcome.stage.sink ⟨1⟩ 1 tile = [] := by
  have hIndexable : ∀ edit ∈ pinnedEdits, edit.Indexable := by
    simp only [pinnedEdits, List.forall_mem_cons]
    refine ⟨?_, ?_, trivial, ?_, List.forall_mem_nil _⟩
    all_goals constructor <;> decide
  obtain ⟨overlay, hOverlay⟩ := exists_applyAll (Overlay.empty {}) hIndexable
  have hScene := scene_of_applyAll hOverlay
  have hPyramid : overlay.pyramid = {} := congrArg Scene.pyramid hScene
  have hShown : overlay.shown = (∅ : Std.ExtTreeSet Group).insert ⟨1⟩ :=
    congrArg Scene.shown hScene
  have hMarks : overlay.marks ⟨1⟩ = pinnedMarks := congrFun (congrArg Scene.marks hScene) ⟨1⟩
  have hLines : overlay.lines ⟨1⟩ = pinnedLines := congrFun (congrArg Scene.lines hScene) ⟨1⟩
  have hCovered : overlay.CoveredBy pinAtlas := by
    intro group hGroup mark hMark hVisible
    obtain rfl : (⟨1⟩ : Group) = group := by simpa [isShown, hShown] using hGroup
    rw [hMarks] at hMark
    simp only [pinnedMarks, List.mem_toArray, List.mem_cons, List.not_mem_nil, or_false] at hMark
    rcases hMark with rfl | rfl
    · exact ⟨_, rfl⟩
    · cases hVisible
  have hZoom : Zoom.coarsest.level ≤ overlay.pyramid.finest.level := by
    rw [hPyramid]
    decide
  obtain ⟨hFault, _, hQuads, hStrips, hDrawn, _⟩ :=
    paint_level ((Reachable.empty {}).applyAll hOverlay) hZoom hCovered (List.Perm.refl _)
  have hShownFirst : overlay.isShown ⟨1⟩ := by simp [isShown, hShown]
  refine ⟨overlay, hOverlay, hCovered, hFault, ?_, ?_, ?_⟩
  · obtain ⟨sprite, tile, _, _, hQuad⟩ := hQuads ⟨1⟩ 0 pinnedMarks[0] hShownFirst
      (by rw [hMarks]; rfl) rfl
    rw [hQuad]
    rfl
  · intro tile
    have hStart : Tile.containing ⟨10, 10⟩ Zoom.coarsest = .ok ⟨Zoom.coarsest, 0, 0⟩ := by decide
    have hFar : Tile.containing ⟨400, 10⟩ Zoom.coarsest = .ok ⟨Zoom.coarsest, 1, 0⟩ := by decide
    have hReturn : Tile.containing ⟨20, 20⟩ Zoom.coarsest = .ok ⟨Zoom.coarsest, 0, 0⟩ := by decide
    obtain ⟨hInside, hOutside⟩ := hStrips ⟨1⟩ 0 pinnedLines[0] hShownFirst
      (by rw [hLines]; rfl) (by decide) tile
    by_cases hTile : tile = ⟨Zoom.coarsest, 0, 0⟩ ∨ tile = ⟨Zoom.coarsest, 1, 0⟩
    · rw [if_pos hTile]
      refine (hInside ?_).length_eq
      rcases hTile with rfl | rfl
      · exact ⟨⟨10, 10⟩, List.mem_cons_self, hStart⟩
      · exact ⟨⟨400, 10⟩, List.mem_cons_of_mem _ List.mem_cons_self, hFar⟩
    · rw [if_neg hTile, hOutside, List.length_nil]
      intro vertex hVertex hHeld
      have hCorner : vertex = ⟨10, 10⟩ ∨ vertex = ⟨400, 10⟩ ∨ vertex = ⟨20, 20⟩ := by
        simpa [pinnedLines] using hVertex
      rcases hCorner with rfl | rfl | rfl
      · exact hTile (Or.inl (Except.ok.inj (hHeld.symm.trans hStart)))
      · exact hTile (Or.inr (Except.ok.inj (hHeld.symm.trans hFar)))
      · exact hTile (Or.inl (Except.ok.inj (hHeld.symm.trans hReturn)))
  · apply stripsOf_eq_nil
    intro entry hEntry hGroup strip hStrip hPosition
    obtain ⟨line, hLine, hExtent⟩ := (hDrawn entry hEntry).2.2.2 strip hStrip
    rw [hGroup, hLines, hPosition] at hLine
    cases hLine
    revert hExtent
    decide

end Renderer

end MapOverlay
