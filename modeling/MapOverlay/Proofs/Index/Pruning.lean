import MapOverlay.Proofs.Index.History

/-! The passes behind an index. An index is free of empty shares at every moment. The passes of a
replacement are not: the first empties the old positions of a group, the next appends the new
ones level by level and tile by tile, and only the last sweeps out what was left empty. Here
they run one after the other, on rows that may hold empty shares meanwhile. Every history leads
them to the rows of its index, or to its fault. -/
namespace MapOverlay

open Std

/-- Puts a position behind those of its kind that are already there. -/
def Share.push (kind : Share.Kind) (position : Nat) (share : Share) : Share :=
  share.withPositions kind (share.positions kind ++ [position])

/-- Rows in which tiles without groups and groups without positions may stand. -/
structure UnprunedIndex where
  rows : ExtTreeMap Tile (ExtTreeMap Group Share)

namespace UnprunedIndex

instance : EmptyCollection UnprunedIndex where
  emptyCollection := ⟨∅⟩

/-- What a group has in a tile. Whether an empty share stands in the rows makes no difference. -/
def share (index : UnprunedIndex) (tile : Tile) (group : Group) : Share :=
  (index.rows[tile]?.getD ∅)[group]?.getD ∅

/-- Empties a group's positions of one kind wherever the group stands, and lets it stand there. -/
def withdraw (index : UnprunedIndex) (kind : Share.Kind) (group : Group) : UnprunedIndex where
  rows := index.rows.map fun _ row => row.modify group fun share => share.withPositions kind []

/-- Appends a position to what a group has in a tile. Neither the tile nor the group has to stand
in the rows before. -/
def push (index : UnprunedIndex) (kind : Share.Kind) (group : Group) (position : Nat)
    (tile : Tile) : UnprunedIndex where
  rows := index.rows.alter tile fun row =>
    some ((row.getD ∅).alter group fun share => some ((share.getD ∅).push kind position))

/-- Appends a position in each of the tiles, in their order. -/
def enter (index : UnprunedIndex) (kind : Share.Kind) (group : Group) (position : Nat)
    (tiles : List Tile) : UnprunedIndex :=
  tiles.foldl (fun index tile => index.push kind group position tile) index

/-- Takes a group out of the rows. -/
def erase (index : UnprunedIndex) (group : Group) : UnprunedIndex where
  rows := index.rows.map fun _ row => row.erase group

/-- The groups of a row that have positions. -/
def prunedRow (row : ExtTreeMap Group Share) : ExtTreeMap Group Share :=
  row.filter fun _ share => !share.isEmpty

/-- Sweeps out the groups without positions, and then the tiles that are left without groups. -/
def prune (index : UnprunedIndex) : UnprunedIndex where
  rows := index.rows.filterMap fun _ row =>
    if (prunedRow row).isEmpty then none else some (prunedRow row)

section Replacing

variable {Item : Type}

/-- Enters one item at its position, level by level from the coarsest. An item whose position
does not fit is refused before its tiles are looked up. -/
def enterItem (index : UnprunedIndex) (pyramid : Pyramid) (kind : Share.Kind) (group : Group)
    (tilesOn : Item → Zoom → Except Fault (List Tile)) (entry : Item × Nat) :
    Except Fault UnprunedIndex :=
  if entry.2 < PlacementIndex.positionLimit then
    pyramid.levels.foldlM (fun index zoom => do
      return index.enter kind group entry.2 (← tilesOn entry.1 zoom)) index
  else .error .collectionTooLarge

/-- The three passes of a replacement. `tilesOn` looks up the tiles of an item on one level, in
the order in which they are visited. -/
def replace (index : UnprunedIndex) (pyramid : Pyramid) (kind : Share.Kind) (group : Group)
    (tilesOn : Item → Zoom → Except Fault (List Tile)) (items : Array Item) :
    Except Fault UnprunedIndex := do
  let filled ← items.toList.zipIdx.foldlM
    (fun index entry => index.enterItem pyramid kind group tilesOn entry)
    (index.withdraw kind group)
  return filled.prune

end Replacing

/-- The tile that shows a mark on a level. -/
def markTiles {M : Type} [Pinned M] (mark : M) (zoom : Zoom) : Except Fault (List Tile) := do
  return [← Tile.containing (Pinned.pivot mark) zoom]

/-- The tiles that hold a vertex of a line on a level, ascending and each once. -/
def lineTiles {L : Type} [Traced L] (line : L) (zoom : Zoom) : Except Fault (List Tile) := do
  let touched ← (Traced.vertices line).mapM fun vertex => Tile.containing vertex zoom
  return (ExtTreeSet.ofList touched).toList

/-- Carries out one change in passes. -/
def change {M L : Type} [Pinned M] [Traced L] (index : UnprunedIndex) :
    IndexEdit M L → Except Fault UnprunedIndex
  | .replaceMarks group marks pyramid => index.replace pyramid .marks group markTiles marks
  | .replaceLines group lines pyramid => index.replace pyramid .lines group lineTiles lines
  | .remove group => .ok (index.erase group).prune
  | .clear => .ok ∅

/-- The rows after a history, from no rows at all. -/
def replay {M L : Type} [Pinned M] [Traced L] (history : List (IndexEdit M L)) :
    Except Fault UnprunedIndex :=
  history.foldlM change ∅

/-! ### What the rows read after each pass -/

variable (index : UnprunedIndex) (kind : Share.Kind) (group : Group)

/-- Withdrawing empties one list of one group in every tile. The other list of the group
stays. -/
theorem share_withdraw (tile : Tile) (other : Group) :
    (index.withdraw kind group).share tile other =
      if group = other then (index.share tile group).withPositions kind []
      else index.share tile other := by
  simp only [share, withdraw, ExtTreeMap.getElem?_map]
  cases hRow : index.rows[tile]? with
  | none => by_cases hGroup : group = other <;> simp [hGroup]
  | some row =>
      simp only [Option.map_some, Option.getD_some, ExtTreeMap.getElem?_modify,
        LawfulEqOrd.compare_eq_iff_eq]
      by_cases hGroup : group = other
      · cases hShare : row[group]? <;> simp [hGroup]
      · simp [hGroup]

theorem share_erase (tile : Tile) (other : Group) :
    (index.erase group).share tile other =
      if group = other then ∅ else index.share tile other := by
  simp only [share, erase, ExtTreeMap.getElem?_map]
  cases hRow : index.rows[tile]? with
  | none => by_cases hGroup : group = other <;> simp [hGroup]
  | some row =>
      simp only [Option.map_some, Option.getD_some, ExtTreeMap.getElem?_erase,
        LawfulEqOrd.compare_eq_iff_eq]
      by_cases hGroup : group = other <;> simp [hGroup]

theorem share_push (position : Nat) (tile other : Tile) (otherGroup : Group) :
    (index.push kind group position tile).share other otherGroup =
      if tile = other ∧ group = otherGroup then (index.share tile group).push kind position
      else index.share other otherGroup := by
  simp only [share, push, ExtTreeMap.getElem?_alter, LawfulEqOrd.compare_eq_iff_eq]
  by_cases hTile : tile = other
  · subst hTile
    simp only [if_true, true_and, Option.getD_some, ExtTreeMap.getElem?_alter,
      LawfulEqOrd.compare_eq_iff_eq]
    by_cases hGroup : group = otherGroup <;> simp [hGroup]
  · simp [hTile]

/-- A position is appended once for each time its tiles have this one, behind the positions
that are already there. -/
theorem share_enter (position : Nat) (tiles : List Tile) (tile : Tile) (other : Group) :
    (index.enter kind group position tiles).share tile other =
      if group = other then
        (index.share tile group).withPositions kind
          ((index.share tile group).positions kind ++ List.replicate (tiles.count tile) position)
      else index.share tile other := by
  induction tiles generalizing index with
  | nil => by_cases hGroup : group = other <;> simp [enter, hGroup, Share.withPositions_positions]
  | cons first rest ih =>
      rw [enter, List.foldl_cons, ← enter, ih, share_push, share_push]
      by_cases hGroup : group = other
      · subst hGroup
        by_cases hTile : first = tile
        · subst hTile
          simp [Share.push, Share.positions_withPositions, List.count_cons_self,
            List.replicate_succ]
        · simp [hTile, List.count_cons_of_ne]
      · simp [hGroup]

/-- Entering items from the first on leaves their positions ascending, as recording them from the
last one does. -/
theorem share_foldl_enter (coverage : List (List Tile)) (tile : Tile) (other : Group) :
    (coverage.zipIdx.foldl (fun index entry => index.enter kind group entry.2 entry.1) index).share
        tile other =
      if group = other then
        (index.share tile group).withPositions kind
          ((index.share tile group).positions kind ++ PlacementIndex.positionsIn tile coverage)
      else index.share tile other := by
  unfold PlacementIndex.positionsIn
  induction coverage.zipIdx generalizing index with
  | nil => by_cases hGroup : group = other <;> simp [hGroup, Share.withPositions_positions]
  | cons first rest ih =>
      rw [List.foldl_cons, ih, share_enter, share_enter, List.flatMap_cons]
      by_cases hGroup : group = other
      · simp [hGroup, Share.positions_withPositions]
      · simp [hGroup]

/-! ### Pruning -/

/-- What is left of a row is what it has besides empty shares. An empty share reads as no
share, before and after. -/
theorem getElem?_prunedRow (row : ExtTreeMap Group Share) (group : Group) :
    (prunedRow row)[group]? = SparseTable.nonempty? (row[group]?.getD ∅) := by
  rw [prunedRow, ExtTreeMap.getElem?_filter']
  cases hShare : row[group]? with
  | none => rfl
  | some share =>
      by_cases hEmpty : share = ∅
      · simp [SparseTable.nonempty?, hEmpty, (Share.isEmpty_iff ∅).mpr rfl]
      · have hKept : share.isEmpty = false :=
          Bool.eq_false_iff.mpr fun hShare => hEmpty ((Share.isEmpty_iff share).mp hShare)
        simp [SparseTable.nonempty?, hEmpty, hKept]

theorem prunedRow_empty : prunedRow ∅ = ∅ :=
  rfl

/-- Pruning leaves of a row what is not empty in it, and leaves no row of which nothing would
be left. -/
theorem getElem?_prune (tile : Tile) :
    index.prune.rows[tile]? =
      if (prunedRow (index.rows[tile]?.getD ∅)).isEmpty then none
      else some (prunedRow (index.rows[tile]?.getD ∅)) := by
  rw [prune, ExtTreeMap.getElem?_filterMap']
  cases index.rows[tile]? with
  | none => simp [prunedRow_empty]
  | some row => simp

/-- Pruned rows are determined by what they read, so it does not matter which empty shares stood
in them before. -/
theorem prune_eq_of_share_eq {first second : UnprunedIndex}
    (hShare : ∀ tile group, first.share tile group = second.share tile group) :
    first.prune = second.prune := by
  have hRow (tile : Tile) :
      prunedRow (first.rows[tile]?.getD ∅) = prunedRow (second.rows[tile]?.getD ∅) := by
    apply ExtTreeMap.ext_getElem?
    intro group
    rw [getElem?_prunedRow, getElem?_prunedRow]
    exact congrArg SparseTable.nonempty? (hShare tile group)
  have hRows : first.prune.rows = second.prune.rows := by
    apply ExtTreeMap.ext_getElem?
    intro tile
    rw [getElem?_prune, getElem?_prune, hRow]
  cases hFirst : first.prune
  cases hSecond : second.prune
  simp_all

end UnprunedIndex

namespace PlacementIndex

/-- The rows of an index. -/
def unpruned (index : PlacementIndex) : UnprunedIndex where
  rows := index.rows.cells.map fun _ row => row.cells

theorem share_unpruned (index : PlacementIndex) (tile : Tile) (group : Group) :
    index.unpruned.share tile group = index.share tile group := by
  simp only [UnprunedIndex.share, unpruned, share, SparseTable.read, ExtTreeMap.getElem?_map]
  cases index.rows.cells[tile]? <;> rfl

/-- The rows of an index say all that it holds, so indexes with equal rows are equal. -/
theorem eq_of_unpruned_eq {first second : PlacementIndex}
    (hRows : first.unpruned = second.unpruned) : first = second := by
  apply PlacementIndex.ext
  intro tile group
  rw [← share_unpruned, hRows, share_unpruned]

/-- There is nothing to sweep out of the rows of an index, because neither an empty share nor
an empty row can be stored in one. -/
theorem prune_unpruned (index : PlacementIndex) : index.unpruned.prune = index.unpruned := by
  have hRow (row : SparseTable Group Share) : UnprunedIndex.prunedRow row.cells = row.cells := by
    apply ExtTreeMap.ext_getElem?
    intro group
    rw [UnprunedIndex.getElem?_prunedRow, SparseTable.nonempty?]
    have hStored := row.cells_ne_empty group
    cases hShare : row.cells[group]? <;> grind
  have hRows : index.unpruned.prune.rows = index.unpruned.rows := by
    apply ExtTreeMap.ext_getElem?
    intro tile
    rw [UnprunedIndex.getElem?_prune, unpruned, ExtTreeMap.getElem?_map]
    have hStored := index.rows.cells_ne_empty tile
    cases hCell : index.rows.cells[tile]? with
    | none => simp [UnprunedIndex.prunedRow_empty]
    | some row =>
        have hSome : ¬ row.cells.isEmpty := by
          intro hNone
          have hList : row.toList = [] :=
            ExtTreeMap.toList_eq_nil_iff.mpr (ExtTreeMap.isEmpty_iff.mp hNone)
          rw [hCell, row.toList_eq_nil_iff.mp hList] at hStored
          exact hStored rfl
        simp [hRow, hSome]
  cases hPruned : index.unpruned.prune
  simp_all

/-- Rows that read as an index does are its rows once they are pruned. This is how every pass
is brought back to an index. -/
theorem prune_eq_unpruned {rows : UnprunedIndex} {index : PlacementIndex}
    (hShare : ∀ tile group, rows.share tile group = index.share tile group) :
    rows.prune = index.unpruned := by
  rw [← prune_unpruned]
  apply UnprunedIndex.prune_eq_of_share_eq
  intro tile group
  rw [hShare, share_unpruned]

end PlacementIndex

/-! ### Lookups level by level -/

namespace Pyramid

variable {Item : Type} (pyramid : Pyramid)

/-- The tiles of all levels, for a lookup that answers for one level. -/
def tilesByLevel (tilesOn : Zoom → Except Fault (List Tile)) : Except Fault (List Tile) := do
  return (← pyramid.levels.mapM tilesOn).flatten

/-- A lookup that finds the tiles of one level finds those of the pyramid, level by level. No tile
comes twice, since each belongs to one level. -/
theorem tilesByLevel_places {tilesOn : Item → Zoom → Except Fault (List Tile)}
    {points : Item → List Point}
    (hOk : ∀ item zoom, (∀ point ∈ points item, point.isFinite) →
      ∃ tiles, tilesOn item zoom = .ok tiles ∧ tiles.Nodup ∧
        ∀ tile, tile ∈ tiles ↔ ∃ point ∈ points item, Tile.containing point zoom = .ok tile)
    (hError : ∀ item zoom, (∃ point ∈ points item, point.isFinite = false) →
      tilesOn item zoom = .error .nonFiniteCoordinate) :
    pyramid.Places (fun item => pyramid.tilesByLevel (tilesOn item)) points where
  ok_of_finite item hFinite := by
    choose tiles hTiles hNodup hMem using fun zoom => hOk item zoom hFinite
    have hWalk : pyramid.levels.mapM (tilesOn item) = .ok (pyramid.levels.map tiles) := by
      rw [Traversal.mapM_eq_ok_iff, List.map_map]
      exact List.map_congr_left fun zoom _ => hTiles zoom
    have hApart {first second : Zoom} (hNe : first ≠ second) :
        List.Disjoint (tiles first) (tiles second) := by
      intro tile hFirst hSecond
      obtain ⟨_, _, hFound⟩ := (hMem first tile).mp hFirst
      obtain ⟨_, _, hOther⟩ := (hMem second tile).mp hSecond
      exact hNe ((Tile.containing_eq_ok_iff.mp hFound).1.symm.trans
        (Tile.containing_eq_ok_iff.mp hOther).1)
    refine ⟨pyramid.levels.flatMap tiles, ?_, ?_, ?_⟩
    · rw [tilesByLevel, hWalk, List.flatMap_def]
      rfl
    · rw [List.nodup_flatMap]
      exact ⟨fun zoom _ => hNodup zoom, pyramid.nodup_levels.imp hApart⟩
    · intro tile
      simp only [List.mem_flatMap, hMem, Tile.containing_eq_ok_iff, levels, Zoom.mem_upTo, Shows]
      constructor
      · rintro ⟨zoom, hLevel, point, hPoint, rfl, hHolds⟩
        exact ⟨point, hPoint, hLevel, hHolds⟩
      · rintro ⟨point, hPoint, hLevel, hHolds⟩
        exact ⟨tile.zoom, hLevel, point, hPoint, rfl, hHolds⟩
  error_of_not_finite item hPoint := by
    have hLevels : Zoom.coarsest ∈ pyramid.levels := Zoom.mem_upTo.mpr pyramid.finest.one_le
    obtain ⟨first, rest, hSplit⟩ := List.exists_cons_of_ne_nil (List.ne_nil_of_mem hLevels)
    rw [tilesByLevel, hSplit, List.mapM_cons, hError item first hPoint]
    rfl

/-- Looking up the tile of a mark level by level places marks by their pivot. -/
theorem markTiles_places {M : Type} [Pinned M] :
    pyramid.Places (fun mark : M => pyramid.tilesByLevel (UnprunedIndex.markTiles mark))
      (fun mark => [Pinned.pivot mark]) := by
  apply pyramid.tilesByLevel_places
  · intro mark zoom hFinite
    have hPivot := Tile.containing_of_finite (hFinite _ (List.mem_singleton_self _)) zoom
    refine ⟨[Tile.locate (Pinned.pivot mark) zoom], ?_, List.nodup_singleton _, ?_⟩
    · rw [UnprunedIndex.markTiles, hPivot]
      rfl
    · intro tile
      simp [hPivot, eq_comm]
  · intro mark zoom hPoint
    obtain ⟨point, hMem, hFinite⟩ := hPoint
    rw [List.mem_singleton] at hMem
    subst hMem
    rw [UnprunedIndex.markTiles, Tile.containing_of_not_finite hFinite]
    rfl

/-- Looking up the tiles of a line level by level places lines by their vertices. The tiles
come in another order than from one lookup for all levels, and the same ones come. -/
theorem lineTiles_places {L : Type} [Traced L] :
    pyramid.Places (fun line : L => pyramid.tilesByLevel (UnprunedIndex.lineTiles line))
      Traced.vertices := by
  apply pyramid.tilesByLevel_places
  · intro line zoom hFinite
    have hTouched : (Traced.vertices line).mapM (fun vertex => Tile.containing vertex zoom) =
        .ok ((Traced.vertices line).map fun vertex => Tile.locate vertex zoom) := by
      rw [Traversal.mapM_eq_ok_iff, List.map_map]
      exact List.map_congr_left fun vertex hMem =>
        Tile.containing_of_finite (hFinite vertex hMem) zoom
    refine ⟨_, by rw [UnprunedIndex.lineTiles, hTouched]; rfl, ?_, ?_⟩
    · exact ExtTreeSet.distinct_toList.imp ReflCmp.ne_of_cmp_ne_eq
    · intro tile
      rw [ExtTreeSet.mem_toList, ExtTreeSet.mem_ofList, List.contains_iff_mem, List.mem_map]
      constructor
      · rintro ⟨vertex, hMem, rfl⟩
        exact ⟨vertex, hMem, Tile.containing_of_finite (hFinite vertex hMem) zoom⟩
      · rintro ⟨vertex, hMem, hTile⟩
        rw [Tile.containing_of_finite (hFinite vertex hMem)] at hTile
        exact ⟨vertex, hMem, Except.ok.inj hTile⟩
  · intro line zoom hPoint
    have hFails : (Traced.vertices line).mapM (fun vertex => Tile.containing vertex zoom) =
        .error .nonFiniteCoordinate := by
      obtain ⟨vertex, hMem, hFinite⟩ := hPoint
      apply Traversal.mapM_eq_error_of_mem hMem (Tile.containing_of_not_finite hFinite zoom)
      intro other _ cause hCause
      rw [Tile.containing] at hCause
      split at hCause
      · cases hCause
      · exact (Except.error.inj hCause).symm
    rw [UnprunedIndex.lineTiles, hFails]
    rfl

end Pyramid

/-! ### The passes against the changes of an index -/

namespace UnprunedIndex

section Replacing

variable {Item : Type} (pyramid : Pyramid) (kind : Share.Kind) (group : Group)
  (tilesOn : Item → Zoom → Except Fault (List Tile))

/-- Entering an item is looking up its tiles and then appending its position in each of them.
Both refuse the same positions and points. -/
theorem enterItem_eq (index : UnprunedIndex) (entry : Item × Nat) :
    index.enterItem pyramid kind group tilesOn entry = do
      return index.enter kind group entry.2
        (← PlacementIndex.coverAt (fun item => pyramid.tilesByLevel (tilesOn item)) entry) := by
  rw [enterItem, PlacementIndex.coverAt]
  split
  · rw [Traversal.foldlM_act, Pyramid.tilesByLevel, bind_assoc]
    simp only [pure_bind, enter, List.foldl_flatten]
    rfl
  · rfl

/-- Entering each item as it is looked up is entering all of them after a survey. A collection
that is refused changes nothing in either way. -/
theorem foldlM_enterItem (items : List Item) (start : Nat) (index : UnprunedIndex) :
    ((items.zipIdx start).foldlM
        (fun index entry => index.enterItem pyramid kind group tilesOn entry) index) = do
      let coverage ← (items.zipIdx start).mapM
        (PlacementIndex.coverAt fun item => pyramid.tilesByLevel (tilesOn item))
      return (coverage.zipIdx start).foldl
        (fun index entry => index.enter kind group entry.2 entry.1) index := by
  induction items generalizing start index with
  | nil => rfl
  | cons first rest ih =>
      rw [List.zipIdx_cons, List.foldlM_cons, List.mapM_cons, enterItem_eq]
      simp only [bind_assoc, pure_bind, ih, List.zipIdx_cons, List.foldl_cons]

/-- The passes of a replacement lead from the rows of an index to those of the replaced index, and
fail as the replacement does. Only which tiles an item has matters, not the order in which they
are looked up. -/
theorem replace_unpruned {pyramid : Pyramid} {cover : Item → Except Fault (List Tile)}
    {tilesOn : Item → Zoom → Except Fault (List Tile)} {points : Item → List Point}
    (hPlaces : pyramid.Places cover points)
    (hLevels : pyramid.Places (fun item => pyramid.tilesByLevel (tilesOn item)) points)
    (index : PlacementIndex) (items : Array Item) :
    index.unpruned.replace pyramid kind group tilesOn items = do
      return (← index.replace kind group cover items).unpruned := by
  rw [replace, foldlM_enterItem, PlacementIndex.replace, bind_assoc, bind_assoc]
  cases hSurvey : PlacementIndex.survey cover items with
  | error fault =>
      have hFails := (PlacementIndex.survey_eq_error_congr hPlaces hLevels).mp hSurvey
      rw [PlacementIndex.survey] at hFails
      rw [hFails]
      rfl
  | ok coverage =>
      obtain ⟨levels, hLookup⟩ := (PlacementIndex.exists_survey_iff hLevels).mpr
        (PlacementIndex.indexable_of_survey hPlaces hSurvey)
      have hPruned : ((levels.zipIdx.foldl
          (fun index entry => index.enter kind group entry.2 entry.1)
          (index.unpruned.withdraw kind group)).prune) =
            ((index.withdraw kind group).record group (Share.cons kind) coverage).unpruned := by
        apply PlacementIndex.prune_eq_unpruned
        intro tile other
        rw [share_foldl_enter, share_withdraw, share_withdraw, PlacementIndex.share_unpruned,
          PlacementIndex.share_replaced,
          PlacementIndex.positionsIn_of_survey hPlaces hSurvey,
          PlacementIndex.positionsIn_of_survey hLevels hLookup]
        by_cases hGroup : group = other
        · simp [hGroup, Share.positions_withPositions]
        · simp [hGroup, PlacementIndex.share_unpruned]
      rw [PlacementIndex.survey] at hLookup
      rw [hLookup]
      exact congrArg Except.ok hPruned

end Replacing

variable {M L : Type} [Pinned M] [Traced L]

/-- One change in passes, from the rows of an index, leads to the rows of the changed index or
to the same fault. -/
theorem change_unpruned (index : PlacementIndex) (edit : IndexEdit M L) :
    index.unpruned.change edit = do return (← index.change edit).unpruned := by
  cases edit with
  | replaceMarks group marks pyramid =>
      exact replace_unpruned .marks group pyramid.tilesAt_places pyramid.markTiles_places index
        marks
  | replaceLines group lines pyramid =>
      exact replace_unpruned .lines group pyramid.tilesAlong_places pyramid.lineTiles_places index
        lines
  | remove group =>
      have hPruned : (index.unpruned.erase group).prune = (index.remove group).unpruned := by
        apply PlacementIndex.prune_eq_unpruned
        intro tile other
        rw [share_erase, PlacementIndex.share_unpruned, PlacementIndex.share_remove]
      exact congrArg Except.ok hPruned
  | clear => rfl

/-- Carried out in passes, a history leads to the rows of the index that it leads to, or to the
same fault. The rows are pruned after every change, so each change begins with those of an
index. -/
theorem replay_eq_unpruned (history : List (IndexEdit M L)) :
    replay history = do return (← PlacementIndex.replay history).unpruned := by
  induction history using List.reverseRecOn with
  | nil => rfl
  | append_singleton history edit ih =>
      have hLast : replay (history ++ [edit]) = (do (← replay history).change edit) := by
        rw [replay, List.foldlM_append]
        simp [replay]
      rw [hLast, ih, PlacementIndex.replay_concat, bind_assoc, bind_assoc]
      congr 1
      funext index
      rw [pure_bind, change_unpruned]

end UnprunedIndex

end MapOverlay
