import Mathlib.Algebra.BigOperators.Group.Finset.Piecewise
import Mathlib.Algebra.GroupWithZero.Nat
import Mathlib.Algebra.Order.BigOperators.Group.Finset
import Mathlib.Data.FinEnum
import Mathlib.Data.Finite.Prod
import Mathlib.Data.Fintype.BigOperators
import MapOverlay.Index.Census
import MapOverlay.Proofs.Index.History

/-! What the census of an index counts. Stored positions can be counted share by share or
item by item. Counted by item, they depend on the surviving collections alone: a mark has one
tile for each level of its pyramid, a line the different tiles of its vertices. -/
namespace MapOverlay

instance : Finite Zoom :=
  Finite.of_injective (fun zoom => (⟨zoom.level, Nat.lt_succ_of_le zoom.le_seventeen⟩ : Fin 18))
    fun _ _ hEqual => Zoom.ext_level (Fin.val_eq_of_eq hEqual)

instance : Finite Tile :=
  Finite.of_surjective
    (fun place : Zoom × Int32 × Int32 => (⟨place.1, place.2.1, place.2.2⟩ : Tile))
    fun tile => ⟨(tile.zoom, tile.column, tile.row), rfl⟩

instance : Finite Group :=
  Finite.of_surjective Group.mk fun group => ⟨group.number, rfl⟩

/-- There are too many tiles to list them, so sums over all of them are never computed. Outside
the counting here no list of tiles is assumed. -/
noncomputable local instance : Fintype Tile :=
  Fintype.ofFinite Tile

noncomputable local instance : Fintype Group :=
  Fintype.ofFinite Group

/-- Members of a list without repetition, counted one by one. This turns lengths of lists into
sums, in which tiles and groups can change places. -/
theorem length_eq_sum {Item : Type} [Fintype Item] [DecidableEq Item] {items : List Item}
    (hNodup : items.Nodup) {listed : Item → Prop} [DecidablePred listed]
    (hMem : ∀ item, item ∈ items ↔ listed item) :
    items.length = ∑ item, if listed item then 1 else 0 := by
  rw [← List.toFinset_card_of_nodup hNodup, ← Finset.card_filter]
  congr 1
  ext item
  simp [hMem]

namespace SparseTable

section Empty

variable {Key Value : Type} [Ord Key] [Std.TransOrd Key] [EmptyCollection Value]

theorem length_toList (table : SparseTable Key Value) : table.toList.length = table.size :=
  Std.ExtTreeMap.length_toList

theorem length_keys (table : SparseTable Key Value) : table.keys.length = table.size :=
  Std.ExtTreeMap.length_keys

theorem size_empty : (∅ : SparseTable Key Value).size = 0 :=
  Std.ExtTreeMap.size_empty

end Empty

variable {Key Value : Type} [Ord Key] [Std.TransOrd Key] [Std.LawfulEqOrd Key] [DecidableEq Key]
  [Fintype Key] [EmptyCollection Value]

/-- A weight that the empty value does not have can be summed over all keys, because the keys
that are not stored add nothing. -/
theorem sum_map_toList (table : SparseTable Key Value) (weight : Value → Nat)
    (hEmpty : weight ∅ = 0) :
    (table.toList.map fun entry => weight entry.2).sum = ∑ key, weight (table.read key) := by
  have hStored : table.toList.map (fun entry => weight entry.2) =
      table.keys.map fun key => weight (table.read key) := by
    rw [keys, ← Std.ExtTreeMap.map_fst_toList_eq_keys, List.map_map]
    apply List.map_congr_left
    rintro ⟨key, value⟩ hEntry
    obtain ⟨rfl, _⟩ := table.mem_toList.mp hEntry
    rfl
  rw [hStored, ← List.sum_toFinset _ table.nodup_keys]
  apply Finset.sum_subset (Finset.subset_univ _)
  intro key _ hKey
  rw [List.mem_toFinset, mem_keys, not_not] at hKey
  rw [hKey, hEmpty]

theorem size_eq_sum [DecidableEq Value] (table : SparseTable Key Value) :
    table.size = ∑ key, if table.read key ≠ ∅ then 1 else 0 := by
  rw [← length_keys]
  exact length_eq_sum table.nodup_keys fun key => table.mem_keys

end SparseTable

namespace PlacementIndex

variable (index : PlacementIndex)

/-- What all shares list, counted by tile and group. Shares that are not stored list nothing,
so the sum runs over all tiles and groups. -/
theorem length_flatMap_shares (pick : Share → List Nat) (hPick : pick ∅ = []) :
    (index.shares.flatMap pick).length =
      ∑ tile, ∑ group, (pick (index.share tile group)).length := by
  have hRow (row : SparseTable Group Share) :
      ((row.toList.map fun entry => entry.2).flatMap pick).length =
        ∑ group, (pick (row.read group)).length := by
    rw [List.length_flatMap, List.map_map]
    exact row.sum_map_toList (fun share => (pick share).length) (by rw [hPick]; rfl)
  rw [shares, List.flatMap_assoc, List.length_flatMap]
  simp only [hRow]
  exact index.rows.sum_map_toList (fun row => ∑ group, (pick (row.read group)).length)
    (by simp [hPick])

theorem length_shares_by_tile : index.shares.length = ∑ tile, (index.groupsIn tile).length := by
  rw [shares, List.length_flatMap]
  simp only [List.length_map]
  exact index.rows.sum_map_toList (fun row => row.toList.length)
    (by rw [SparseTable.length_toList, SparseTable.size_empty])

theorem length_groupsIn (tile : Tile) :
    (index.groupsIn tile).length = ∑ group, if index.share tile group ≠ ∅ then 1 else 0 := by
  rw [groupsIn, SparseTable.length_toList]
  exact SparseTable.size_eq_sum _

theorem length_tilesOf (group : Group) :
    (index.tilesOf group).length = ∑ tile, if index.share tile group ≠ ∅ then 1 else 0 := by
  apply length_eq_sum (index.nodup_tiles.filter _)
  intro tile
  rw [List.mem_filter, isSome_share?_iff, mem_tiles]
  exact ⟨And.right, fun hShare => ⟨⟨group, hShare⟩, hShare⟩⟩

/-- Shares counted by group are the tiles of each group. The sums over tiles and over groups
count the same pairs and change places. -/
theorem length_shares_by_group : index.shares.length = ∑ group, (index.tilesOf group).length := by
  simp only [length_shares_by_tile, length_groupsIn, length_tilesOf]
  exact Finset.sum_comm

/-- No tile is held without groups, so each tile has at least one share. -/
theorem size_le_length_shares : index.size ≤ index.shares.length := by
  rw [length_shares_by_tile, size, SparseTable.size_eq_sum]
  apply Finset.sum_le_sum
  intro tile _
  split
  · rename_i hRow
    rw [Nat.one_le_iff_ne_zero, groupsIn, ne_eq, List.length_eq_zero_iff,
      SparseTable.toList_eq_nil_iff]
    exact hRow
  · exact Nat.zero_le _

/-- No group is held without positions, so each share has at least one of either kind. -/
theorem length_shares_le :
    index.census.shares ≤ index.census.markPositions + index.census.linePositions := by
  simp only [census, length_shares_by_tile, length_groupsIn]
  rw [index.length_flatMap_shares Share.marks rfl, index.length_flatMap_shares Share.lines rfl]
  simp only [← Finset.sum_add_distrib]
  refine Finset.sum_le_sum fun tile _ => Finset.sum_le_sum fun group _ => ?_
  split
  · rename_i hShare
    rw [Share.ne_empty_iff] at hShare
    rcases hShare with ⟨position, hMember⟩ | ⟨position, hMember⟩
    · exact Nat.le_add_right_of_le (List.length_pos_of_mem hMember)
    · exact Nat.le_add_left_of_le (List.length_pos_of_mem hMember)
  · exact Nat.zero_le _

/-- An index without tiles is one without positions, as neither stands without the other. -/
theorem isEmpty_iff_census :
    index.isEmpty ↔ index.census.markPositions = 0 ∧ index.census.linePositions = 0 := by
  rw [isEmpty, beq_iff_eq]
  constructor
  · intro hSize
    have hShare (tile : Tile) (group : Group) : index.share tile group = ∅ := by
      by_contra hShare
      have hTiles : index.tiles = [] :=
        List.length_eq_zero_iff.mp (index.rows.length_keys.trans hSize)
      exact List.not_mem_nil (hTiles ▸ index.mem_tiles.mpr ⟨group, hShare⟩)
    simp only [census, index.length_flatMap_shares Share.marks rfl,
      index.length_flatMap_shares Share.lines rfl, hShare]
    simp
  · rintro ⟨hMarks, hLines⟩
    have hShares := index.length_shares_le
    rw [hMarks, hLines] at hShares
    exact Nat.eq_zero_of_le_zero (index.size_le_length_shares.trans hShares)

end PlacementIndex

/-- The tiles of one level that points fall in. Points in one tile count it once. -/
def Zoom.tilesOf (zoom : Zoom) (points : List Point) : Finset Tile :=
  (points.filterMap fun point => (Tile.containing point zoom).toOption).toFinset

theorem Zoom.mem_tilesOf {zoom : Zoom} {points : List Point} {tile : Tile} :
    tile ∈ zoom.tilesOf points ↔ ∃ point ∈ points, Tile.containing point zoom = .ok tile := by
  have hAnswer (answer : Except Fault Tile) : answer.toOption = some tile ↔ answer = .ok tile := by
    cases answer <;> simp [Except.toOption]
  simp only [tilesOf, List.mem_toFinset, List.mem_filterMap, hAnswer]

/-- A finite point falls in one tile of a level. -/
theorem Zoom.card_tilesOf_singleton {point : Point} (hFinite : point.isFinite) (zoom : Zoom) :
    (zoom.tilesOf [point]).card = 1 := by
  rw [tilesOf, List.filterMap_cons, Tile.containing_of_finite hFinite]
  rfl

namespace Pyramid

variable (pyramid : Pyramid)

/-- The tiles of all levels that show one of the points. -/
noncomputable def tilesShowing (points : List Point) : Finset Tile :=
  Finset.univ.filter fun tile => ∃ point ∈ points, pyramid.Shows tile point

/-- A tile shows one of the points if it belongs to the pyramid and holds that point, whatever
its level is. -/
theorem mem_tilesShowing {points : List Point} {tile : Tile} :
    tile ∈ pyramid.tilesShowing points ↔ ∃ point ∈ points, pyramid.Shows tile point := by
  simp only [tilesShowing, Finset.mem_filter, Finset.mem_univ, true_and]

/-- Every finite point has a tile at every level, and a pyramid has a level, so only no points
have no tiles. -/
theorem tilesShowing_eq_empty_iff {points : List Point}
    (hFinite : ∀ point ∈ points, point.isFinite) :
    pyramid.tilesShowing points = ∅ ↔ points = [] := by
  constructor
  · intro hEmpty
    rw [List.eq_nil_iff_forall_not_mem]
    intro point hPoint
    have hTile : Tile.locate point pyramid.finest ∈ pyramid.levels.map (Tile.locate point) :=
      List.mem_map_of_mem (Zoom.mem_upTo.mpr le_rfl)
    have hShows := (pyramid.mem_map_locate (hFinite point hPoint)).mp hTile
    exact Finset.notMem_empty _ (hEmpty ▸ pyramid.mem_tilesShowing.mpr ⟨point, hPoint, hShows⟩)
  · rintro rfl
    simp [Finset.eq_empty_iff_forall_notMem, mem_tilesShowing]

/-- Levels share no tiles, so tiles can be counted level by level. Several points in one tile
count it once. -/
theorem card_tilesShowing (points : List Point) :
    (pyramid.tilesShowing points).card =
      (pyramid.levels.map fun zoom => (zoom.tilesOf points).card).sum := by
  rw [← List.sum_toFinset _ pyramid.nodup_levels]
  have hLevels : (pyramid.tilesShowing points : Set Tile).MapsTo Tile.zoom
      pyramid.levels.toFinset := by
    intro tile hTile
    rw [Finset.mem_coe, mem_tilesShowing] at hTile
    obtain ⟨_, _, hLevel, _⟩ := hTile
    rw [Finset.mem_coe, List.mem_toFinset]
    exact Zoom.mem_upTo.mpr hLevel
  rw [Finset.card_eq_sum_card_fiberwise hLevels]
  apply Finset.sum_congr rfl
  intro zoom hZoom
  rw [List.mem_toFinset] at hZoom
  have hLevel : zoom.level ≤ pyramid.finest.level := Zoom.mem_upTo.mp hZoom
  refine congrArg Finset.card (Finset.ext fun tile => ?_)
  simp only [Finset.mem_filter, mem_tilesShowing, Zoom.mem_tilesOf, Tile.containing_eq_ok_iff,
    Shows]
  constructor
  · rintro ⟨⟨point, hPoint, _, hHolds⟩, rfl⟩
    exact ⟨point, hPoint, rfl, hHolds⟩
  · rintro ⟨point, hPoint, rfl, hHolds⟩
    exact ⟨⟨point, hPoint, hLevel, hHolds⟩, rfl⟩

/-- Positions, counted by tile or by item. A tile shows an item exactly if it is among the
tiles of the item, so both ways count the same pairs. -/
theorem sum_length_positions {Item : Type} (points : Item → List Point) (items : Array Item) :
    ∑ tile, (pyramid.positions tile points items).length =
      (items.toList.map fun item => (pyramid.tilesShowing (points item)).card).sum := by
  simp only [positions, List.length_findIdxs]
  induction items.toList with
  | nil => simp
  | cons first rest ih =>
      simp only [List.countP_cons, Finset.sum_add_distrib, ih, List.map_cons, List.sum_cons,
        tilesShowing, Finset.card_filter, List.any_eq_true, decide_eq_true_eq]
      exact Nat.add_comm _ _

end Pyramid

variable {M L : Type} [Pinned M] [Traced L]

/-- The number of tiles of all surviving marks. -/
def markLoad : Option (Array M × Pyramid) → Nat
  | some (marks, pyramid) => marks.size * pyramid.finest.level
  | none => 0

/-- The number of tiles of all surviving lines, different ones counted once for a line. -/
def lineLoad : Option (Array L × Pyramid) → Nat
  | some (lines, pyramid) => (lines.toList.map fun line =>
      (pyramid.levels.map fun zoom => (zoom.tilesOf (Traced.vertices line)).card).sum).sum
  | none => 0

omit [Traced L] in
/-- A surviving mark has one position for each level of its pyramid, since it falls in one tile
of each. -/
theorem sum_length_survivingMarks {placed : Option (Array M × Pyramid)}
    (hFinite : ∀ marks pyramid, placed = some (marks, pyramid) → MarksIndexable marks) :
    ∑ tile, (surviving (fun mark => [Pinned.pivot mark]) tile placed).length = markLoad placed := by
  cases placed with
  | none => simp [surviving, markLoad]
  | some placed =>
      obtain ⟨marks, pyramid⟩ := placed
      obtain ⟨_, hMarks⟩ := hFinite marks pyramid rfl
      have hTiles : marks.toList.map (fun mark =>
          (pyramid.tilesShowing [Pinned.pivot mark]).card) =
          marks.toList.map fun _ => pyramid.finest.level := by
        apply List.map_congr_left
        intro mark hMark
        simp only [Pyramid.card_tilesShowing,
          Zoom.card_tilesOf_singleton (hMarks mark (Array.mem_toList_iff.mp hMark))]
        simp [Pyramid.levels]
      simp only [surviving, markLoad, pyramid.sum_length_positions, hTiles]
      simp

omit [Pinned M] in
/-- A surviving line has one position for each tile of a vertex of it. -/
theorem sum_length_survivingLines (placed : Option (Array L × Pyramid)) :
    ∑ tile, (surviving Traced.vertices tile placed).length = lineLoad placed := by
  cases placed with
  | none => simp [surviving, lineLoad]
  | some placed =>
      obtain ⟨lines, pyramid⟩ := placed
      simp only [surviving, lineLoad, pyramid.sum_length_positions, Pyramid.card_tilesShowing]

omit [Pinned M] in
/-- Marks are counted at every level, so a count of zero means that there are none. -/
theorem markLoad_eq_zero_iff {placed : Option (Array M × Pyramid)} :
    markLoad placed = 0 ↔ ∀ marks pyramid, placed = some (marks, pyramid) → marks = #[] := by
  cases placed with
  | none => simp [markLoad]
  | some placed =>
      obtain ⟨marks, pyramid⟩ := placed
      have hLevel : pyramid.finest.level ≠ 0 := Nat.one_le_iff_ne_zero.mp pyramid.finest.one_le
      have hLoad : markLoad (some (marks, pyramid)) = 0 ↔ marks = #[] := by
        rw [markLoad, Nat.mul_eq_zero, or_iff_left hLevel, Array.size_eq_zero_iff]
      simpa using hLoad

omit [Pinned M] in
/-- Lines are counted where they have a vertex, so a count of zero means that none of them has
any. -/
theorem lineLoad_eq_zero_iff {placed : Option (Array L × Pyramid)}
    (hFinite : ∀ lines pyramid, placed = some (lines, pyramid) → LinesIndexable lines) :
    lineLoad placed = 0 ↔ ∀ lines pyramid, placed = some (lines, pyramid) →
      ∀ line ∈ lines, Traced.vertices line = [] := by
  cases placed with
  | none => simp [lineLoad]
  | some placed =>
      obtain ⟨lines, pyramid⟩ := placed
      obtain ⟨_, hLines⟩ := hFinite lines pyramid rfl
      have hLoad : lineLoad (some (lines, pyramid)) = 0 ↔
          ∀ line ∈ lines, Traced.vertices line = [] := by
        simp only [lineLoad, ← Pyramid.card_tilesShowing, List.sum_eq_zero_iff, List.forall_mem_map,
          Array.mem_toList_iff, Finset.card_eq_zero]
        exact forall₂_congr fun line hLine => pyramid.tilesShowing_eq_empty_iff (hLines line hLine)
      simpa using hLoad

/-- What the four numbers of a census add up to. -/
structure PlacementIndex.Conserved (index : PlacementIndex) (history : List (IndexEdit M L)) :
    Prop where
  markPositions_eq : index.census.markPositions = ∑ group, markLoad (lastMarks history group)
  linePositions_eq : index.census.linePositions = ∑ group, lineLoad (lastLines history group)
  tiles_eq : index.census.tiles = index.size
  tiles_le : index.census.tiles ≤ index.census.shares
  shares_by_tile : index.census.shares = ∑ tile, (index.groupsIn tile).length
  shares_by_group : index.census.shares = ∑ group, (index.tilesOf group).length
  shares_le : index.census.shares ≤ index.census.markPositions + index.census.linePositions
  isEmpty_iff : index.isEmpty ↔
    (∀ group marks pyramid, lastMarks history group = some (marks, pyramid) → marks = #[]) ∧
      ∀ group lines pyramid, lastLines history group = some (lines, pyramid) →
        ∀ line ∈ lines, Traced.vertices line = []

namespace PlacementIndex

/-- The census obeys a conservation law. After any history that can be carried out, every
surviving mark is counted once for each level of its pyramid and every surviving line once for
each of the different tiles of its vertices, level by level, and nothing else is counted. Shares
can be counted by tile or by group. There are at least as many as tiles and at most as many as
stored positions, and the index is empty exactly if nothing with a point survives. -/
theorem census_conserved (history : List (IndexEdit M L)) :
    ((∃ index, replay history = .ok index) ↔ ∀ edit ∈ history, edit.Indexable) ∧
      ∀ index, replay history = .ok index → index.Conserved history := by
  refine ⟨exists_replay_iff, fun index hReplay => ?_⟩
  have hIndexable := exists_replay_iff.mp ⟨index, hReplay⟩
  have hMarks : index.census.markPositions = ∑ group, markLoad (lastMarks history group) :=
    calc
      index.census.markPositions = ∑ tile, ∑ group, (index.share tile group).marks.length :=
        index.length_flatMap_shares Share.marks rfl
      _ = ∑ group, ∑ tile, (index.share tile group).marks.length := Finset.sum_comm
      _ = ∑ group, markLoad (lastMarks history group) := by
        simp only [share_of_replay hReplay]
        exact Finset.sum_congr rfl fun group _ =>
          sum_length_survivingMarks fun _ _ hLast => hIndexable _ (mem_of_lastMarks hLast)
  have hLines : index.census.linePositions = ∑ group, lineLoad (lastLines history group) :=
    calc
      index.census.linePositions = ∑ tile, ∑ group, (index.share tile group).lines.length :=
        index.length_flatMap_shares Share.lines rfl
      _ = ∑ group, ∑ tile, (index.share tile group).lines.length := Finset.sum_comm
      _ = ∑ group, lineLoad (lastLines history group) := by
        simp only [share_of_replay hReplay]
        exact Finset.sum_congr rfl fun group _ => sum_length_survivingLines _
  have hEmpty : index.isEmpty ↔
      (∀ group, markLoad (lastMarks history group) = 0) ∧
        ∀ group, lineLoad (lastLines history group) = 0 := by
    rw [isEmpty_iff_census, hMarks, hLines]
    simp only [Finset.sum_eq_zero_iff, Finset.mem_univ, true_imp_iff]
  refine ⟨hMarks, hLines, rfl, index.size_le_length_shares, index.length_shares_by_tile,
    index.length_shares_by_group, index.length_shares_le, hEmpty.trans ?_⟩
  exact and_congr (forall_congr' fun group => markLoad_eq_zero_iff)
    (forall_congr' fun group =>
      lineLoad_eq_zero_iff fun _ _ hLast => hIndexable _ (mem_of_lastLines hLast))

/-- The removed group and the replaced marks are not counted. Two marks remain at one level,
and a line of three vertices with two tiles at each of two levels. -/
theorem census_conserved_mixedHistory :
    ∃ index, replay mixedHistory = .ok index ∧ index.census.markPositions = 2 ∧
      index.census.linePositions = 4 ∧ ¬ index.isEmpty := by
  have hIndexable : ∀ edit ∈ mixedHistory, edit.Indexable := by
    simp only [mixedHistory, List.forall_mem_cons]
    refine ⟨?_, ?_, ?_, ?_, trivial, List.forall_mem_nil _⟩
    all_goals constructor <;> decide
  obtain ⟨index, hReplay⟩ := (census_conserved mixedHistory).1.mpr hIndexable
  have hConserved := (census_conserved mixedHistory).2 index hReplay
  have hOthers (group : Group) (hGroup : group ≠ ⟨1⟩) :
      lastMarks mixedHistory group = none ∧ lastLines mixedHistory group = none := by
    by_cases hRemoved : (⟨2⟩ : Group) = group <;>
      simp [lastMarks, lastLines, mixedHistory, List.findSome?_cons, IndexEdit.marksOf?,
        IndexEdit.linesOf?, hGroup.symm, hRemoved]
  have hMarks : index.census.markPositions = 2 := by
    rw [hConserved.markPositions_eq, Fintype.sum_eq_single (⟨1⟩ : Group)]
    · rfl
    · intro group hGroup
      rw [(hOthers group hGroup).1]
      rfl
  have hLines : index.census.linePositions = 4 := by
    rw [hConserved.linePositions_eq, Fintype.sum_eq_single (⟨1⟩ : Group)]
    · decide +kernel
    · intro group hGroup
      rw [(hOthers group hGroup).2]
      rfl
  refine ⟨index, hReplay, hMarks, hLines, fun hEmpty => ?_⟩
  have hNone := congrArg Array.size ((hConserved.isEmpty_iff.mp hEmpty).1 ⟨1⟩ _ _ rfl)
  exact absurd hNone (by decide)

end PlacementIndex

end MapOverlay
