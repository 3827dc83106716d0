import MapOverlay.Annotation.Line
import MapOverlay.Annotation.Mark
import MapOverlay.Index.Basic
import MapOverlay.Index.Coverage

/-! Replacing what the index holds for a group. The tiles of the new collection are
determined before anything is withdrawn, so a fault leaves no half-made index. -/
namespace MapOverlay.PlacementIndex

/-- Records one item of a group in tiles that show it. `cons` puts a position in front
of those of its kind. -/
def recordItem (index : PlacementIndex) (group : Group) (cons : Nat → Share → Share)
    (tiles : List Tile) (position : Nat) : PlacementIndex :=
  tiles.foldr (fun tile index => index.updateShare tile group (cons position)) index

/-- Records a group's items in the tiles that show them. The list has the tiles of
each item at its position. Items are recorded from the last one, each in front of the
positions that are already there, and therefore positions ascend within a share. -/
def record (index : PlacementIndex) (group : Group) (cons : Nat → Share → Share)
    (coverage : List (List Tile)) : PlacementIndex :=
  coverage.zipIdx.foldr
    (fun item index => index.recordItem group cons item.1 item.2) index

/-- The positions of the items that a tile shows, ascending. An item appears once for
each time its tiles have this one. -/
def positionsIn (tile : Tile) (coverage : List (List Tile)) : List Nat :=
  coverage.zipIdx.flatMap fun item => List.replicate (item.1.count tile) item.2

/-- An item is put in front once for each time its tiles have this one. Other groups do not
change. -/
theorem share_recordItem (index : PlacementIndex) (group : Group) (cons : Nat → Share → Share)
    (tiles : List Tile) (position : Nat) (tile : Tile) (other : Group) :
    (index.recordItem group cons tiles position).share tile other =
      if group = other then
        (List.replicate (tiles.count tile) position).foldr cons (index.share tile group)
      else index.share tile other := by
  induction tiles with
  | nil => by_cases hGroup : group = other <;> simp [recordItem, hGroup]
  | cons first rest ih =>
      simp only [recordItem] at ih
      rw [recordItem, List.foldr_cons, share_updateShare, ih]
      by_cases hGroup : group = other
      · subst hGroup
        by_cases hTile : first = tile
        · subst hTile
          simp_all [List.count_cons_self, List.replicate_succ]
        · simp_all [List.count_cons_of_ne]
      · simp [hGroup]

/-- Recording adds the positions of a share in their order and leaves other groups
alone. -/
theorem share_record (index : PlacementIndex) (group : Group) (cons : Nat → Share → Share)
    (coverage : List (List Tile)) (tile : Tile) (other : Group) :
    (index.record group cons coverage).share tile other =
      if group = other then (positionsIn tile coverage).foldr cons (index.share tile group)
      else index.share tile other := by
  unfold record positionsIn
  induction coverage.zipIdx with
  | nil => by_cases hGroup : group = other <;> simp [hGroup]
  | cons first rest ih =>
      rw [List.foldr_cons, share_recordItem, List.flatMap_cons, List.foldr_append]
      by_cases hGroup : group = other
      · subst hGroup
        simp only [ite_true] at ih ⊢
        rw [ih]
      · simpa [hGroup] using ih

/-- The number of positions that an index can tell apart. They are held in 32 bits. -/
def positionLimit : Nat :=
  0x100000000

/-- The tiles of an item that stands at a position. An item whose position does not fit
is refused before its tiles are looked up. -/
def coverAt {Item : Type} (cover : Item → Except Fault (List Tile)) (entry : Item × Nat) :
    Except Fault (List Tile) :=
  if entry.2 < positionLimit then cover entry.1 else .error .collectionTooLarge

theorem coverAt_of_lt {Item : Type} {cover : Item → Except Fault (List Tile)}
    {entry : Item × Nat} (hPosition : entry.2 < positionLimit) :
    coverAt cover entry = cover entry.1 :=
  if_pos hPosition

theorem coverAt_of_le {Item : Type} {cover : Item → Except Fault (List Tile)}
    {entry : Item × Nat} (hPosition : positionLimit ≤ entry.2) :
    coverAt cover entry = .error .collectionTooLarge :=
  if_neg (Nat.not_lt.mpr hPosition)

/-- The tiles of every item of a collection, in its order. -/
def survey {Item : Type} (cover : Item → Except Fault (List Tile)) (items : Array Item) :
    Except Fault (List (List Tile)) :=
  items.toList.zipIdx.mapM (coverAt cover)

/-- Holds the given items for a group in place of its earlier ones of their kind. `cover` looks
up the tiles of an item. -/
def replace {Item : Type} (index : PlacementIndex) (kind : Share.Kind) (group : Group)
    (cover : Item → Except Fault (List Tile)) (items : Array Item) :
    Except Fault PlacementIndex := do
  let coverage ← survey cover items
  return (index.withdraw kind group).record group (Share.cons kind) coverage

/-- Holds the given marks for a group in place of its earlier ones. -/
def replaceMarks {M : Type} [Pinned M] (index : PlacementIndex) (pyramid : Pyramid)
    (group : Group) (marks : Array M) : Except Fault PlacementIndex :=
  index.replace .marks group (fun mark => pyramid.tilesAt (Pinned.pivot mark)) marks

/-- Holds the given lines for a group in place of its earlier ones. -/
def replaceLines {L : Type} [Traced L] (index : PlacementIndex) (pyramid : Pyramid)
    (group : Group) (lines : Array L) : Except Fault PlacementIndex :=
  index.replace .lines group (fun line => pyramid.tilesAlong (Traced.vertices line)) lines

end MapOverlay.PlacementIndex
