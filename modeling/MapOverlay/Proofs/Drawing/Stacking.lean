import MapOverlay.Proofs.Drawing.Ending
import MapOverlay.Proofs.Number.DepthOrder
import MapOverlay.Proofs.Overlay.Reachable

/-! The order within a drawing. Quads and strips are sorted by depth, and what has the same
depth stays as it was listed: by its place in the position lists and then by its stroke. The
positions of an overlay ascend, so there the order is a strict one. -/
namespace MapOverlay

section Sorting

variable {Item : Type} {depth : Item → Depth} {listed sorted : List Item}

/-- A list in the order of depth, with items of one depth in the order in which they are
listed. -/
structure Stacked (depth : Item → Depth) (listed sorted : List Item) : Prop where
  perm : sorted.Perm listed
  ascending : sorted.Pairwise fun first second =>
    depthRank (depth first) ≤ depthRank (depth second)
  stable : ∀ level,
    sorted.filter (fun item => depth item = level) = listed.filter fun item => depth item = level

/-- A stable sort stacks. What has one depth is sorted already, and a stable sort keeps any
sorted sublist. -/
theorem stacked_mergeSort (depth : Item → Depth) (listed : List Item) :
    Stacked depth listed
      (listed.mergeSort fun first second => notDeeper (depth first) (depth second)) := by
  have hTrans (first second third : Item) :=
    notDeeper_trans (depth first) (depth second) (depth third)
  have hTotal (first second : Item) := notDeeper_total (depth first) (depth second)
  have hPerm := List.mergeSort_perm listed fun first second =>
    notDeeper (depth first) (depth second)
  refine ⟨hPerm, ?_, ?_⟩
  · exact (List.pairwise_mergeSort hTrans hTotal listed).imp of_decide_eq_true
  · intro level
    have hLevel : (listed.filter fun item => depth item = level).Pairwise
        fun first second => notDeeper (depth first) (depth second) := by
      apply List.pairwise_of_forall_mem_list
      intro first hFirst second hSecond
      have hFirst := of_decide_eq_true (List.mem_filter.mp hFirst).2
      have hSecond := of_decide_eq_true (List.mem_filter.mp hSecond).2
      rw [hFirst, hSecond]
      exact decide_eq_true le_rfl
    have hKept := (List.sublist_mergeSort hTrans hTotal hLevel List.filter_sublist).filter
      fun item => depth item = level
    simp only [List.filter_filter, Bool.and_self] at hKept
    exact (hKept.eq_of_length (hPerm.filter _).length_eq.symm).symm

/-- Items of one depth are related as they were when they were listed, so any order of the list
breaks the ties between depths. -/
theorem Stacked.pairwise (hStacked : Stacked depth listed sorted) {tie : Item → Item → Prop}
    (hListed : listed.Pairwise tie) :
    sorted.Pairwise fun first second =>
      depthRank (depth first) < depthRank (depth second) ∨
        depth first = depth second ∧ tie first second := by
  rw [List.pairwise_iff_forall_sublist] at hListed ⊢
  intro first second hSorted
  have hRank := List.pairwise_iff_forall_sublist.mp hStacked.ascending hSorted
  rcases Int.lt_or_eq_of_le hRank with hLess | hEqual
  · exact Or.inl hLess
  · have hDepth := eq_of_depthRank_eq hEqual
    have hPair := hSorted.filter fun item => depth item = depth second
    rw [hStacked.stable] at hPair
    simp only [List.filter_cons, hDepth, decide_true, if_true, List.filter_nil] at hPair
    exact Or.inr ⟨hDepth, hListed (hPair.trans List.filter_sublist)⟩

/-- Lists that are equal at every depth have the same members, since every item has a depth. -/
theorem mem_iff_of_filter_eq {first second : List Item}
    (hLevels : ∀ level, first.filter (fun item => depth item = level) =
      second.filter fun item => depth item = level) (item : Item) :
    item ∈ first ↔ item ∈ second := by
  have hLevel := congrArg (item ∈ ·) (hLevels (depth item))
  simpa [List.mem_filter] using hLevel

/-- Lists in the order of depth are equal if they are equal at every depth. Each head is among
the other list and nowhere below its head, so both have one depth and are the first of it. -/
theorem eq_of_filter_eq {first second : List Item}
    (hFirst : first.Pairwise fun left right => depthRank (depth left) ≤ depthRank (depth right))
    (hSecond : second.Pairwise fun left right => depthRank (depth left) ≤ depthRank (depth right))
    (hLevels : ∀ level, first.filter (fun item => depth item = level) =
      second.filter fun item => depth item = level) : first = second := by
  have hMem := mem_iff_of_filter_eq hLevels
  induction first generalizing second with
  | nil =>
      refine (List.eq_nil_iff_forall_not_mem.mpr fun item hItem => ?_).symm
      exact List.not_mem_nil ((hMem item).mpr hItem)
  | cons head rest ih =>
      cases second with
      | nil => exact absurd ((hMem head).mp List.mem_cons_self) List.not_mem_nil
      | cons other others =>
          obtain ⟨hHead, hRest⟩ := List.pairwise_cons.mp hFirst
          obtain ⟨hOther, hOthers⟩ := List.pairwise_cons.mp hSecond
          have hUpper : depthRank (depth head) ≤ depthRank (depth other) := by
            rcases List.mem_cons.mp ((hMem other).mpr List.mem_cons_self) with rfl | hLater
            · exact le_rfl
            · exact hHead other hLater
          have hLower : depthRank (depth other) ≤ depthRank (depth head) := by
            rcases List.mem_cons.mp ((hMem head).mp List.mem_cons_self) with rfl | hLater
            · exact le_rfl
            · exact hOther head hLater
          have hDepth := eq_of_depthRank_eq (le_antisymm hUpper hLower)
          have hLevel := hLevels (depth other)
          simp only [List.filter_cons, hDepth, decide_true, if_true] at hLevel
          obtain rfl := (List.cons.inj hLevel).1
          congr 1
          have hRests : ∀ level, rest.filter (fun item => depth item = level) =
              others.filter fun item => depth item = level := by
            intro level
            have hBoth := hLevels level
            simp only [List.filter_cons] at hBoth
            split at hBoth
            · exact (List.cons.inj hBoth).2
            · exact hBoth
          exact ih hRest hOthers hRests (mem_iff_of_filter_eq hRests)

/-- There is one stable order by depth, so a list in that order is the sorted one. -/
theorem Stacked.eq_iff (hStacked : Stacked depth listed sorted) (other : List Item) :
    other = sorted ↔ Stacked depth listed other := by
  constructor
  · rintro rfl
    exact hStacked
  · intro hOther
    exact eq_of_filter_eq hOther.ascending hStacked.ascending fun level =>
      (hOther.stable level).trans (hStacked.stable level).symm

end Sorting

namespace Excerpt

section Layers

variable {excerpt : Excerpt Mark Line} {toLocal : Affine}

/-- The strip is the stroke of its line that stands at this place among the strokes. -/
def IsLayer (excerpt : Excerpt Mark Line) (toLocal : Affine) (entry : Strip × Nat) : Prop :=
  ∃ line stroke, excerpt.lines[entry.1.position]? = some line ∧
    line.strokes[entry.2]? = some stroke ∧ line.strip toLocal entry.1.position stroke = entry.1

/-- The strips of a position with the places of their strokes. -/
def layersFor (excerpt : Excerpt Mark Line) (toLocal : Affine) (position : Nat) :
    List (Strip × Nat) :=
  (excerpt.stripsFor toLocal position).zipIdx

theorem isLayer_of_mem_layersFor {position : Nat} {entry : Strip × Nat}
    (hEntry : entry ∈ excerpt.layersFor toLocal position) : excerpt.IsLayer toLocal entry := by
  have hStrip := List.mk_mem_zipIdx_iff_getElem?.mp hEntry
  have hPosition := position_of_mem_stripsFor (List.mem_of_getElem? hStrip)
  obtain ⟨line, _, hLine, hExtent, _, _⟩ := mem_stripsFor_iff.mp (List.mem_of_getElem? hStrip)
  simp only [stripsFor, hLine, if_pos hExtent, List.getElem?_map, Option.map_eq_some_iff] at hStrip
  obtain ⟨stroke, hStroke, hDrawn⟩ := hStrip
  exact ⟨line, stroke, hPosition ▸ hLine, hStroke, hPosition ▸ hDrawn⟩

/-- Where positions ascend, so do the quads that they stand for. Hidden marks leave gaps and do
not disturb the order. -/
theorem pairwise_quads {positions : List Nat} (hAscending : positions.Pairwise (· < ·))
    (atlas : Atlas) :
    (positions.filterMap (excerpt.quadFor? atlas toLocal)).Pairwise fun first second =>
      first.position < second.position := by
  refine hAscending.filterMap _ fun left right hLess first hFirst second hSecond => ?_
  rwa [position_of_quadFor? hFirst, position_of_quadFor? hSecond]

/-- Where positions ascend, so do the strips that they stand for, those of one position by
their strokes. -/
theorem pairwise_layers {positions : List Nat} (hAscending : positions.Pairwise (· < ·)) :
    (positions.flatMap (excerpt.layersFor toLocal)).Pairwise fun first second =>
      first.1.position < second.1.position ∨
        first.1.position = second.1.position ∧ first.2 < second.2 := by
  have hPosition {position : Nat} {entry : Strip × Nat}
      (hEntry : entry ∈ excerpt.layersFor toLocal position) : entry.1.position = position :=
    position_of_mem_stripsFor (List.fst_mem_of_mem_zipIdx hEntry)
  rw [List.pairwise_flatMap]
  constructor
  · intro position _
    have hLayers : (excerpt.layersFor toLocal position).Pairwise fun first second =>
        first.2 < second.2 := by
      rw [← List.pairwise_map, layersFor, List.zipIdx_map_snd]
      exact List.pairwise_lt_range'
    refine hLayers.imp_of_mem fun hFirst hSecond hLess => Or.inr ⟨?_, hLess⟩
    rw [hPosition hFirst, hPosition hSecond]
  · refine hAscending.imp fun hLess first hFirst second hSecond => Or.inl ?_
    rwa [hPosition hFirst, hPosition hSecond]

/-- The strips of a picture with the places of their strokes. Sorting goes by depth alone, so
it does the same to strips with and without places. -/
theorem exists_layered_picture (excerpt : Excerpt Mark Line) (tile : Tile) (atlas : Atlas) :
    ∃ layered, layered.map Prod.fst = (excerpt.picture tile atlas).strips ∧
      Stacked (fun entry => entry.1.depth)
        (excerpt.linePositions.flatMap (excerpt.layersFor tile.toLocal)) layered := by
  refine ⟨_, ?_, stacked_mergeSort _ _⟩
  have hStrips : (excerpt.linePositions.flatMap (excerpt.layersFor tile.toLocal)).map Prod.fst =
      excerpt.linePositions.flatMap (excerpt.stripsFor tile.toLocal) := by
    simp only [List.map_flatMap, layersFor, List.zipIdx_map_fst]
  rw [picture, ← hStrips]
  exact List.map_mergeSort fun _ _ _ _ => rfl

end Layers

end Excerpt

namespace Overlay

/-- The positions that an overlay lists for a tile ascend, as they are those that looking at
the items in turn would find. -/
theorem Indexed.ascending {M L : Type} [Pinned M] [Traced L] {overlay : Overlay M L}
    (hIndexed : overlay.Indexed) {tile : Tile} {excerpt : Excerpt M L}
    (hExcerpt : excerpt ∈ overlay.excerpts tile) :
    excerpt.markPositions.Pairwise (· < ·) ∧ excerpt.linePositions.Pairwise (· < ·) := by
  rw [hIndexed.excerpts_eq, List.mem_map] at hExcerpt
  obtain ⟨group, _, rfl⟩ := hExcerpt
  exact ⟨Pyramid.pairwise_positions _ _ _ _, Pyramid.pairwise_positions _ _ _ _⟩

end Overlay

namespace Excerpt

variable {excerpt : Excerpt Mark Line} {atlas : Atlas}

/-- A drawing holds, sorted by depth, the quads of the visible marks that are listed, one for
each time that they are, and the strips of the lines that are listed, one for each time and
stroke. Depths are ranked by the total order of their format, and what has the same depth stays
as it is listed. One translation leads to all local positions. In the drawing of an excerpt of
an overlay, depth and position place every quad strictly, and depth, position and stroke place
every strip. -/
theorem drawing_stacks_by_depth (hDrawable : excerpt.Drawable atlas) (tile : Tile) :
    Depth.TotallyRanked depthRank ∧
    ∃ drawing, excerpt.drawing tile atlas = .ok drawing ∧
      drawing.tile = tile ∧ drawing.origin = tile.bounds.center ∧
      let toLocal := Affine.translation ⟨-drawing.origin.x, -drawing.origin.y⟩
      (∀ quads, quads = drawing.quads ↔
        Stacked Quad.depth (excerpt.markPositions.filterMap (excerpt.quadFor? atlas toLocal))
          quads) ∧
      (∀ quad ∈ drawing.quads, ∃ mark, excerpt.marks[quad.position]? = some mark ∧
        mark.visible ∧ quad.pivot = toLocal.apply mark.pivot ∧ quad.depth = mark.depth) ∧
      (∀ strips, strips = drawing.strips ↔
        Stacked Strip.depth (excerpt.linePositions.flatMap (excerpt.stripsFor toLocal))
          strips) ∧
      (∀ strip ∈ drawing.strips, ∃ line, excerpt.lines[strip.position]? = some line ∧
        2 ≤ line.points.length ∧ strip.points = line.points.map toLocal.apply) ∧
      ∀ overlay : Overlay Mark Line, overlay.Reachable → excerpt ∈ overlay.excerpts tile →
        (drawing.quads.Pairwise fun first second =>
          depthRank first.depth < depthRank second.depth ∨
            first.depth = second.depth ∧ first.position < second.position) ∧
        ∃ layered : List (Strip × Nat), layered.map Prod.fst = drawing.strips ∧
          (∀ entry ∈ layered, excerpt.IsLayer toLocal entry) ∧
          layered.Pairwise fun first second =>
            depthRank first.1.depth < depthRank second.1.depth ∨
              first.1.depth = second.1.depth ∧
                (first.1.position < second.1.position ∨
                  first.1.position = second.1.position ∧ first.2 < second.2) := by
  refine ⟨depthRank_totallyRanked, _, hDrawable.drawing_eq tile, rfl, rfl, ?_⟩
  intro toLocal
  have hQuads : Stacked Quad.depth
      (excerpt.markPositions.filterMap (excerpt.quadFor? atlas toLocal))
      (excerpt.picture tile atlas).quads := stacked_mergeSort _ _
  have hStrips : Stacked Strip.depth (excerpt.linePositions.flatMap (excerpt.stripsFor toLocal))
      (excerpt.picture tile atlas).strips := stacked_mergeSort _ _
  refine ⟨hQuads.eq_iff, ?_, hStrips.eq_iff, ?_, ?_⟩
  · intro quad hQuad
    obtain ⟨position, _, hFound⟩ := mem_quads_picture.mp hQuad
    obtain ⟨mark, sprite, hMark, hVisible, _, rfl⟩ := quadFor?_eq_some_iff.mp hFound
    exact ⟨mark, hMark, hVisible, rfl, rfl⟩
  · intro strip hStrip
    obtain ⟨position, _, hFound⟩ := mem_strips_picture.mp hStrip
    obtain ⟨line, stroke, hLine, hExtent, _, rfl⟩ := mem_stripsFor_iff.mp hFound
    exact ⟨line, hLine, hExtent, rfl⟩
  · intro overlay hReachable hExcerpt
    obtain ⟨hMarks, hLines⟩ := hReachable.indexed.ascending hExcerpt
    obtain ⟨layered, hLayered, hStacked⟩ := excerpt.exists_layered_picture tile atlas
    refine ⟨hQuads.pairwise (pairwise_quads hMarks atlas), layered, hLayered, ?_,
      hStacked.pairwise (pairwise_layers hLines)⟩
    intro entry hEntry
    obtain ⟨position, _, hMember⟩ := List.mem_flatMap.mp (hStacked.perm.mem_iff.mp hEntry)
    exact isLayer_of_mem_layersFor hMember

/-- Marks of every kind of depth, one of them hidden. -/
def piledMarks : Array Mark :=
  #[{ pivot := ⟨10, 10⟩, symbol := "pin", depth := (0 / 0 : Float32) },
    { pivot := ⟨10, 10⟩, symbol := "pin" },
    { pivot := ⟨10, 10⟩, symbol := "ghost", visible := false },
    { pivot := ⟨10, 10⟩, symbol := "pin", depth := (-0.0 : Float32) },
    { pivot := ⟨10, 10⟩, symbol := "pin" }]

/-- A line without extent and a line of two strokes, the second one below the first. -/
def piledLines : Array Line :=
  #[⟨[⟨10, 10⟩], [⟨⟨0, 0, 0, 255⟩, 2, 1⟩]⟩,
    ⟨[⟨10, 10⟩, ⟨20, 20⟩], [⟨⟨0, 0, 0, 255⟩, 2, 1⟩, ⟨⟨255, 255, 255, 255⟩, 4, 0⟩]⟩]

def piled (markPositions linePositions : List Nat) : Excerpt Mark Line :=
  ⟨⟨1⟩, piledMarks, markPositions, piledLines, linePositions⟩

theorem drawable_piled {markPositions linePositions : List Nat}
    (hMarks : ∀ position ∈ markPositions, position < piledMarks.size)
    (hLines : ∀ position ∈ linePositions, position < piledLines.size) :
    (piled markPositions linePositions).Drawable pinOnly := by
  refine drawable_iff.mpr ⟨fun position hPosition => ?_, hLines⟩
  refine ⟨_, Array.getElem?_eq_getElem (hMarks position hPosition), fun hVisible => ?_⟩
  have hSymbol : ∀ mark ∈ piledMarks, mark.visible → mark.symbol = "pin" := by decide
  rw [hSymbol _ (Array.getElem_mem _) hVisible]
  exact ⟨_, Std.ExtTreeMap.getElem?_insert_self⟩

def piledEdits : List (Edit Mark Line) :=
  [.setMarks ⟨1⟩ piledMarks, .setLines ⟨1⟩ piledLines, .setShown ⟨1⟩ true]

theorem exists_overlay_piled :
    ∃ overlay : Overlay Mark Line,
      (Overlay.empty ⟨Zoom.coarsest⟩).applyAll piledEdits = .ok overlay ∧
      piled [0, 1, 2, 3, 4] [0, 1] ∈ overlay.excerpts ⟨Zoom.coarsest, 0, 0⟩ := by
  have hIndexable : ∀ edit ∈ piledEdits, edit.Indexable := by
    simp only [piledEdits, List.forall_mem_cons]
    refine ⟨?_, ?_, trivial, List.forall_mem_nil _⟩
    all_goals constructor <;> decide
  obtain ⟨overlay, hOverlay⟩ := Overlay.exists_applyAll (Overlay.empty ⟨Zoom.coarsest⟩) hIndexable
  have hScene := Overlay.scene_of_applyAll hOverlay
  have hIndexed := ((Overlay.Reachable.empty _).applyAll hOverlay).indexed
  have hShown : overlay.shown = (∅ : Std.ExtTreeSet Group).insert ⟨1⟩ :=
    congrArg Scene.shown hScene
  have hShare : overlay.scene.share ⟨Zoom.coarsest, 0, 0⟩ ⟨1⟩ = ⟨[0, 1, 2, 3, 4], [0, 1]⟩ := by
    rw [hScene]
    decide +kernel
  refine ⟨overlay, hOverlay, ?_⟩
  rw [hIndexed.excerpts_eq, List.mem_map]
  refine ⟨⟨1⟩, overlay.mem_filter_shownGroups.mpr ⟨by simp [Overlay.isShown, hShown], ?_⟩, ?_⟩
  · rw [hShare]
    nofun
  · rw [Scene.excerpt, hShare, hScene]
    rfl

theorem drawing_stacks_piled :
    let tile : Tile := ⟨Zoom.coarsest, 0, 0⟩
    (∃ drawing, (piled [4, 0, 2, 1, 4, 3] [1, 0, 1]).drawing tile pinOnly = .ok drawing ∧
      drawing.quads.length = 5 ∧
      (drawing.quads.filter fun quad => quad.depth = 0).map Quad.position = [4, 1, 4] ∧
      drawing.strips.length = 4) ∧
    ∃ overlay, (Overlay.empty ⟨Zoom.coarsest⟩).applyAll piledEdits = .ok overlay ∧
      ∃ excerpt ∈ overlay.excerpts tile, ∃ drawing, excerpt.drawing tile pinOnly = .ok drawing ∧
      drawing.quads.Pairwise fun first second =>
        depthRank first.depth < depthRank second.depth ∨
          first.depth = second.depth ∧ first.position < second.position := by
  intro tile
  constructor
  · obtain ⟨_, drawing, hDrawing, _, _, hQuads, _, hStrips, _⟩ :=
      drawing_stacks_by_depth
        (@drawable_piled [4, 0, 2, 1, 4, 3] [1, 0, 1] (by decide) (by decide)) tile
    have hQuads := (hQuads _).mp rfl
    have hStrips := (hStrips _).mp rfl
    refine ⟨drawing, hDrawing, ?_, ?_, ?_⟩
    · rw [hQuads.perm.length_eq]
      rfl
    · rw [hQuads.stable]
      rfl
    · rw [hStrips.perm.length_eq]
      rfl
  · obtain ⟨overlay, hOverlay, hExcerpt⟩ := exists_overlay_piled
    obtain ⟨_, drawing, hDrawing, _, _, _, _, _, _, hOrdered⟩ :=
      drawing_stacks_by_depth
        (@drawable_piled [0, 1, 2, 3, 4] [0, 1] (by decide) (by decide)) tile
    have hReachable := (Overlay.Reachable.empty _).applyAll hOverlay
    have hStrict := (hOrdered overlay hReachable hExcerpt).1
    exact ⟨overlay, hOverlay, _, hExcerpt, drawing, hDrawing, hStrict⟩

end Excerpt

end MapOverlay
