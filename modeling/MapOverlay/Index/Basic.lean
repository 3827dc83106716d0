import MapOverlay.Annotation.Group
import MapOverlay.Index.Share
import MapOverlay.SparseTable
import MapOverlay.Tile.Basic

/-! The index from tiles to the annotations that they show. Neither a tile without
groups nor a group without positions is ever stored, which makes equality of indexes
the same as agreement on every share. -/
namespace MapOverlay

/-- The share that every group has in every tile. -/
structure PlacementIndex where
  rows : SparseTable Tile (SparseTable Group Share)
deriving DecidableEq

namespace PlacementIndex

instance : EmptyCollection PlacementIndex where
  emptyCollection := ⟨∅⟩

instance : Inhabited PlacementIndex where
  default := ∅

/-- What a group has in a tile, which is empty for almost every pair. -/
def share (index : PlacementIndex) (tile : Tile) (group : Group) : Share :=
  (index.rows.read tile).read group

/-- The share of a group in a tile that shows something of it. -/
def share? (index : PlacementIndex) (tile : Tile) (group : Group) : Option Share :=
  (index.rows.read tile).find? group

/-- The groups that a tile shows something of, ascending, with their shares. -/
def groupsIn (index : PlacementIndex) (tile : Tile) : List (Group × Share) :=
  (index.rows.read tile).toList

/-- The tiles that show anything, ascending. -/
def tiles (index : PlacementIndex) : List Tile :=
  index.rows.keys

/-- The tiles that show something of one group, ascending. Tiles drawn before a
change of the group have to be drawn again if they are in this list before or after. -/
def tilesOf (index : PlacementIndex) (group : Group) : List Tile :=
  index.tiles.filter fun tile => (index.share? tile group).isSome

/-- The number of tiles that show anything. -/
def size (index : PlacementIndex) : Nat :=
  index.rows.size

/-- Whether no tile shows anything. -/
def isEmpty (index : PlacementIndex) : Bool :=
  index.size == 0

/-- An index is determined by what it has for each tile and group. Nothing can be stored that a
share does not show. -/
@[ext] theorem ext {first second : PlacementIndex}
    (hShare : ∀ tile group, first.share tile group = second.share tile group) :
    first = second := by
  cases first
  cases second
  congr 1
  exact SparseTable.ext fun tile => SparseTable.ext fun group => hShare tile group

theorem share?_eq_some_iff (index : PlacementIndex) {tile : Tile} {group : Group}
    {share : Share} :
    index.share? tile group = some share ↔ index.share tile group = share ∧ share ≠ ∅ :=
  SparseTable.find?_eq_some_iff _

theorem isSome_share?_iff (index : PlacementIndex) {tile : Tile} {group : Group} :
    (index.share? tile group).isSome ↔ index.share tile group ≠ ∅ := by
  simp [Option.isSome_iff_exists, share?_eq_some_iff]

/-- The groups of a tile are listed with their shares, and only those that have something. -/
theorem mem_groupsIn (index : PlacementIndex) {tile : Tile} {group : Group} {share : Share} :
    (group, share) ∈ index.groupsIn tile ↔ index.share tile group = share ∧ share ≠ ∅ :=
  SparseTable.mem_toList _

/-- A tile is held exactly as long as some group has a share of it. This is what keeps drawn
tiles and indexed tiles the same. -/
theorem mem_tiles (index : PlacementIndex) {tile : Tile} :
    tile ∈ index.tiles ↔ ∃ group, index.share tile group ≠ ∅ := by
  rw [tiles, SparseTable.mem_keys]
  constructor
  · intro hRow
    apply Classical.byContradiction
    intro hNone
    apply hRow
    apply SparseTable.ext
    intro group
    rw [SparseTable.read_empty]
    exact Decidable.not_not.mp fun hShare => hNone ⟨group, hShare⟩
  · intro hSome hRow
    obtain ⟨group, hShare⟩ := hSome
    apply hShare
    rw [share, hRow, SparseTable.read_empty]

theorem nodup_tiles (index : PlacementIndex) : index.tiles.Nodup :=
  index.rows.nodup_keys

theorem groupsIn_ne_nil_iff (index : PlacementIndex) {tile : Tile} :
    index.groupsIn tile ≠ [] ↔ tile ∈ index.tiles := by
  rw [groupsIn, ne_eq, SparseTable.toList_eq_nil_iff, tiles, SparseTable.mem_keys]

/-- Changes what one group has in one tile. -/
def updateShare (index : PlacementIndex) (tile : Tile) (group : Group)
    (change : Share → Share) : PlacementIndex where
  rows := index.rows.update tile fun row => row.update group change

/-- A change in one tile is seen by one group in that tile only. -/
theorem share_updateShare (index : PlacementIndex) (tile : Tile) (group : Group)
    (change : Share → Share) (otherTile : Tile) (otherGroup : Group) :
    (index.updateShare tile group change).share otherTile otherGroup =
      if tile = otherTile ∧ group = otherGroup then change (index.share tile group)
      else index.share otherTile otherGroup := by
  simp only [share, updateShare, SparseTable.read_update]
  by_cases hTile : tile = otherTile
  · subst hTile
    simp only [ite_true, true_and, SparseTable.read_update]
  · simp [hTile]

/-- Changes what one group has, in every tile that shows something of it. -/
def mapShares (index : PlacementIndex) (group : Group) (change : Share → Share) :
    PlacementIndex where
  rows := index.rows.mapStored fun row => row.update group change

/-- A change that keeps the empty share acts on all tiles at once and on no other
group. -/
theorem share_mapShares (index : PlacementIndex) (group : Group) {change : Share → Share}
    (hEmpty : change ∅ = ∅) (tile : Tile) (otherGroup : Group) :
    (index.mapShares group change).share tile otherGroup =
      if group = otherGroup then change (index.share tile group)
      else index.share tile otherGroup := by
  have hRow : (∅ : SparseTable Group Share).update group change = ∅ := by
    apply SparseTable.ext
    intro other
    simp [SparseTable.read_update, hEmpty]
  simp only [share, mapShares]
  rw [SparseTable.read_mapStored _ hRow, SparseTable.read_update]

/-- Takes a group's positions of one kind out of every tile. -/
def withdraw (index : PlacementIndex) (kind : Share.Kind) (group : Group) : PlacementIndex :=
  index.mapShares group fun share => share.withPositions kind []

/-- Takes a group out of every tile. -/
def remove (index : PlacementIndex) (group : Group) : PlacementIndex :=
  index.mapShares group fun _ => ∅

end PlacementIndex

end MapOverlay
