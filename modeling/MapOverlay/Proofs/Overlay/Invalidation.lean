import MapOverlay.Proofs.Overlay.LastWriter
import MapOverlay.Proofs.Overlay.Walk

/-! Which tiles have to be drawn again. An edit concerns one group, so it disturbs no tile
without anything of that group, and in no tile does it disturb another group. -/
namespace MapOverlay

variable {M L Resources Payload Failure Builder Sink : Type}

/-- The tiles of a group are those in which it has a mark or a line. The index lists no tile
for a group whose items have gone from it. -/
theorem PlacementIndex.mem_tilesOf (index : PlacementIndex) {tile : Tile} {group : Group} :
    tile ∈ index.tilesOf group ↔ index.share tile group ≠ ∅ := by
  rw [tilesOf, List.mem_filter, isSome_share?_iff, mem_tiles, and_iff_right_iff_imp]
  exact fun hShare => ⟨group, hShare⟩

namespace Overlay

theorem ordered_shownGroups (overlay : Overlay M L) :
    overlay.shownGroups.Pairwise fun left right => compare left right = .lt :=
  Std.ExtTreeSet.ordered_toList

/-- A group with nothing in a tile is not drawn there, so leaving the group out of the tile
leaves out nothing. -/
theorem group_ne_of_not_mem_tilesOf (overlay : Overlay M L) {tile : Tile} {group : Group}
    (hTile : tile ∉ overlay.index.tilesOf group) {excerpt : Excerpt M L}
    (hExcerpt : excerpt ∈ overlay.excerpts tile) : excerpt.group ≠ group := by
  rw [overlay.excerpts_eq, List.mem_map] at hExcerpt
  obtain ⟨drawn, hDrawn, rfl⟩ := hExcerpt
  have hShare := (overlay.mem_filter_shownGroups.mp hDrawn).2
  rintro rfl
  exact hTile (overlay.index.mem_tilesOf.mpr hShare)

/-- The shown groups that have something in a tile, without those that a test leaves out, are
drawn as their facets say. Overlays may differ as they like in the groups left out. -/
theorem filter_excerpts_eq (test : Group → Bool) {first second : Overlay M L} {tile : Tile}
    (hMarks : ∀ group, test group → first.markHolding group = second.markHolding group)
    (hLines : ∀ group, test group → first.lineHolding group = second.lineHolding group)
    (hShown : ∀ group, test group → first.isShown group = second.isShown group) :
    (first.excerpts tile).filter (fun excerpt => test excerpt.group) =
      (second.excerpts tile).filter fun excerpt => test excerpt.group := by
  have hShare : ∀ group, test group →
      first.index.share tile group = second.index.share tile group := by
    intro group hTest
    have hMarkPositions := congrFun (congrArg Holding.positions (hMarks group hTest)) tile
    have hLinePositions := congrFun (congrArg Holding.positions (hLines group hTest)) tile
    exact congrArg₂ Share.mk hMarkPositions hLinePositions
  have hMarkSets : ∀ group, test group → first.marks group = second.marks group := by
    intro group hTest
    exact congrArg (fun holding => holding.items.getD #[]) (hMarks group hTest)
  have hLineSets : ∀ group, test group → first.lines group = second.lines group := by
    intro group hTest
    exact congrArg (fun holding => holding.items.getD #[]) (hLines group hTest)
  have hGroups :
      (first.shownGroups.filter fun group => !(first.index.share tile group).isEmpty).filter test =
        (second.shownGroups.filter fun group =>
          !(second.index.share tile group).isEmpty).filter test := by
    apply Traversal.eq_of_ordered
    · exact (first.ordered_shownGroups.filter _).filter _
    · exact (second.ordered_shownGroups.filter _).filter _
    · intro group
      rw [List.mem_filter (p := test), List.mem_filter (p := test), mem_filter_shownGroups,
        mem_filter_shownGroups]
      refine and_congr_left fun hTest => ?_
      rw [hShown group hTest, hShare group hTest]
  rw [excerpts_eq, excerpts_eq, List.filter_map, List.filter_map]
  refine (congrArg (List.map _) hGroups).trans (List.map_congr_left ?_)
  intro group hGroup
  have hTest := (List.mem_filter.mp hGroup).2
  rw [hShare group hTest, hMarkSets group hTest, hLineSets group hTest]

variable [Pinned M] [Traced L]

/-- An edit leaves every facet of every other group as it was, its positions in the index
included. -/
theorem facets_of_apply_ne {overlay next : Overlay M L} {edit : Edit M L}
    (hNext : overlay.apply edit = .ok next) {other : Group} (hOther : other ≠ edit.group) :
    next.markHolding other = overlay.markHolding other ∧
      next.lineHolding other = overlay.lineHolding other ∧
      next.isShown other = overlay.isShown other := by
  have hSpared (facet : Facet) : edit.affects other facet = false := by
    rw [Bool.eq_false_iff]
    exact fun hAffects => hOther (Edit.group_of_affects hAffects).symm
  have hMarks : edit.markHolding? overlay.pyramid other = none := by
    rw [← Option.not_isSome_iff_eq_none, Edit.isSome_markHolding?, hSpared]
    exact Bool.false_ne_true
  have hLines : edit.lineHolding? overlay.pyramid other = none := by
    rw [← Option.not_isSome_iff_eq_none, Edit.isSome_lineHolding?, hSpared]
    exact Bool.false_ne_true
  have hShown : edit.shown? other = none := by
    rw [← Option.not_isSome_iff_eq_none, Edit.isSome_shown?, hSpared]
    exact Bool.false_ne_true
  rw [markHolding_of_apply hNext, lineHolding_of_apply hNext, isShown_of_apply hNext, hMarks,
    hLines, hShown]
  exact ⟨rfl, rfl, rfl⟩

/-- What the other groups draw in a tile does not depend on an edit, even where they share the
tile with the edited group. -/
theorem filter_excerpts_of_apply {overlay next : Overlay M L} {edit : Edit M L}
    (hNext : overlay.apply edit = .ok next) (tile : Tile) :
    (next.excerpts tile).filter (fun excerpt => excerpt.group ≠ edit.group) =
      (overlay.excerpts tile).filter fun excerpt => excerpt.group ≠ edit.group := by
  apply filter_excerpts_eq fun group => group ≠ edit.group
  all_goals
    intro group hGroup
    obtain ⟨hMarks, hLines, hShown⟩ := facets_of_apply_ne hNext (of_decide_eq_true hGroup)
    assumption

/-- A tile without the edited group, before and after, draws the same. Leaving the group out of
its excerpts changes nothing, and the other groups are not affected. -/
theorem excerpts_of_apply {overlay next : Overlay M L} {edit : Edit M L}
    (hNext : overlay.apply edit = .ok next) {tile : Tile}
    (hBefore : tile ∉ overlay.index.tilesOf edit.group)
    (hAfter : tile ∉ next.index.tilesOf edit.group) :
    next.excerpts tile = overlay.excerpts tile := by
  have hAll (state : Overlay M L) (hTile : tile ∉ state.index.tilesOf edit.group) :
      (state.excerpts tile).filter (fun excerpt => excerpt.group ≠ edit.group) =
        state.excerpts tile := by
    rw [List.filter_eq_self]
    intro excerpt hExcerpt
    exact decide_eq_true (state.group_ne_of_not_mem_tilesOf hTile hExcerpt)
  rw [← hAll next hAfter, ← hAll overlay hBefore, filter_excerpts_of_apply hNext]

end Overlay

namespace Renderer

variable [Pinned M] [Traced L] (renderer : Renderer M L Resources Payload Failure Builder Sink)

/-- The tiles of a group are all that an edit of the group can change. An edit with finite
points is carried out, and then a tile that shows nothing of the group, before and after,
hands a builder that never fails the same excerpts as before. In every other tile, too, the
excerpts of the other groups are the same. The renderer may be in any states. -/
theorem handedIn_of_apply (hNever : renderer.NeverFails) (overlay : Overlay M L)
    {edit : Edit M L} (hIndexable : edit.Indexable) :
    ∃ next, overlay.apply edit = .ok next ∧
      ∀ (resources : Resources) (tile : Tile)
        (stage later : Stage M L Resources Payload Failure Builder Sink),
        (tile ∉ overlay.index.tilesOf edit.group → tile ∉ next.index.tilesOf edit.group →
          renderer.handedIn next resources tile later =
            renderer.handedIn overlay resources tile stage) ∧
        (renderer.handedIn next resources tile later).filter
            (fun excerpt => excerpt.group ≠ edit.group) =
          (renderer.handedIn overlay resources tile stage).filter
            fun excerpt => excerpt.group ≠ edit.group := by
  obtain ⟨next, hNext⟩ := (overlay.exists_apply_iff edit).mpr hIndexable
  refine ⟨next, hNext, ?_⟩
  intro resources tile stage later
  rw [renderer.handedIn_eq hNever, renderer.handedIn_eq hNever]
  exact ⟨Overlay.excerpts_of_apply hNext, Overlay.filter_excerpts_of_apply hNext tile⟩

/-- Counts what it builds. -/
def counting : Renderer Point (List Point) Unit Nat Fault Nat Unit where
  build _ _ _ calls := (.ok calls, calls + 1)
  fault? := some
  deliver _ _ sink := sink

/-- Two groups share a tile, and one of them reaches into the next tile. -/
def neighbours : Overlay Point (List Point) :=
  (counting.run (Overlay.empty {} : Overlay Point (List Point)) ⟨0, (), []⟩
    [.setMarks ⟨1⟩ #[⟨10, 10⟩], .setShown ⟨1⟩ true,
      .setLines ⟨2⟩ #[[⟨10, 10⟩, ⟨400, 10⟩]], .setShown ⟨2⟩ true]).state

/-- The other group leaves the shared tile. -/
def moveAway : Edit Point (List Point) :=
  .setMarks ⟨1⟩ #[⟨-10, 10⟩]

/-- The next tile was never reached by the group that moves, so it is handed the same excerpts.
In the shared tile this holds of the group that stays. -/
theorem handedIn_neighbours :
    counting.NeverFails ∧ moveAway.Indexable ∧
    ∃ next, neighbours.apply moveAway = .ok next ∧
      (counting.handedIn next () ⟨Zoom.coarsest, 1, 0⟩ ⟨7, (), []⟩ =
        counting.handedIn neighbours () ⟨Zoom.coarsest, 1, 0⟩ ⟨0, (), []⟩) ∧
      (counting.handedIn next () ⟨Zoom.coarsest, 0, 0⟩ ⟨7, (), []⟩).filter
          (fun excerpt => excerpt.group ≠ ⟨1⟩) =
        (counting.handedIn neighbours () ⟨Zoom.coarsest, 0, 0⟩ ⟨0, (), []⟩).filter
          fun excerpt => excerpt.group ≠ ⟨1⟩ := by
  have hNever : counting.NeverFails := fun _ _ _ calls => ⟨calls, rfl⟩
  have hIndexable : moveAway.Indexable := by constructor <;> decide
  obtain ⟨next, hNext, hHanded⟩ := counting.handedIn_of_apply hNever neighbours hIndexable
  have hBefore : ⟨Zoom.coarsest, 1, 0⟩ ∉ neighbours.index.tilesOf ⟨1⟩ := by decide +kernel
  have hAfter : ⟨Zoom.coarsest, 1, 0⟩ ∉ next.index.tilesOf ⟨1⟩ := by
    have hMoved : (neighbours.apply moveAway).toOption.all
        (fun state => ⟨Zoom.coarsest, 1, 0⟩ ∉ state.index.tilesOf ⟨1⟩) := by decide +kernel
    rw [hNext] at hMoved
    exact of_decide_eq_true hMoved
  exact ⟨hNever, hIndexable, next, hNext, (hHanded () _ _ _).1 hBefore hAfter,
    (hHanded () _ _ _).2⟩

end Renderer

end MapOverlay
