import MapOverlay.Proofs.Index.Placement

/-! What a replacement does to an index, share by share. It succeeds exactly on
collections whose points are finite and whose positions fit, and it changes one list
of one group: the other list of that group and all other groups keep their shares. -/
namespace MapOverlay

open PlacementIndex (positionLimit coverAt coverAt_of_lt coverAt_of_le survey positionsIn)

variable {Item M L : Type} [Pinned M] [Traced L]

/-- Collections that an index can take in, for items that are placed by points. Every point is
finite and every item has a position that fits. -/
def Indexable (points : Item → List Point) (items : Array Item) : Prop :=
  items.size ≤ positionLimit ∧ ∀ item ∈ items, ∀ point ∈ points item, point.isFinite

/-- Marks that an index can take in. -/
def MarksIndexable (marks : Array M) : Prop :=
  marks.size ≤ positionLimit ∧ ∀ mark ∈ marks, (Pinned.pivot mark).isFinite

/-- Lines that an index can take in. -/
def LinesIndexable (lines : Array L) : Prop :=
  lines.size ≤ positionLimit ∧ ∀ line ∈ lines, ∀ vertex ∈ Traced.vertices line, vertex.isFinite

omit [Traced L] in
/-- Marks are placed by their pivot, so only that has to be finite. -/
theorem marksIndexable_iff {marks : Array M} :
    MarksIndexable marks ↔ Indexable (fun mark => [Pinned.pivot mark]) marks := by
  simp [MarksIndexable, Indexable]

omit [Traced L] in
theorem marksIndexable_empty : MarksIndexable (#[] : Array M) := by
  simp [MarksIndexable]

omit [Pinned M] in
theorem linesIndexable_empty : LinesIndexable (#[] : Array L) := by
  simp [LinesIndexable]

namespace PlacementIndex

omit [Pinned M] [Traced L]

/-- The limit alone decides whether positions are refused, so a survey that succeeds is
a lookup of every item. -/
theorem survey_eq_ok_iff {cover : Item → Except Fault (List Tile)} {items : Array Item}
    {coverage : List (List Tile)} :
    survey cover items = .ok coverage ↔
      items.size ≤ positionLimit ∧ items.toList.map cover = coverage.map .ok := by
  have hFit (hSize : items.size ≤ positionLimit) :
      items.toList.zipIdx.map (coverAt cover) = items.toList.map cover := by
    calc
      _ = items.toList.zipIdx.map (cover ∘ Prod.fst) := by
        apply List.map_congr_left
        intro entry hEntry
        have hPosition := List.snd_lt_of_mem_zipIdx hEntry
        simp only [Array.length_toList, Nat.add_zero] at hPosition
        exact coverAt_of_lt (Nat.lt_of_lt_of_le hPosition hSize)
      _ = items.toList.map cover := by
        rw [← List.map_map, List.zipIdx_map_fst]
  rw [survey, Traversal.mapM_eq_ok_iff]
  constructor
  · intro hSurvey
    have hSize : items.size ≤ positionLimit := by
      by_contra hLarge
      rw [not_le] at hLarge
      have hEntry : (items[positionLimit], positionLimit) ∈ items.toList.zipIdx :=
        List.mk_mem_zipIdx_iff_getElem?.mpr (List.getElem?_eq_getElem hLarge)
      have hTiles := List.mem_map_of_mem (f := coverAt cover) hEntry
      rw [hSurvey, coverAt_of_le (Nat.le_refl _), List.mem_map] at hTiles
      obtain ⟨tiles, _, hOk⟩ := hTiles
      cases hOk
    exact ⟨hSize, (hFit hSize).symm.trans hSurvey⟩
  · intro hFits
    obtain ⟨hSize, hLookup⟩ := hFits
    exact (hFit hSize).trans hLookup

/-- Where no item lists a tile twice, the positions in a tile are those of the items
that list it. -/
theorem positionsIn_eq_findIdxs {tile : Tile} {coverage : List (List Tile)}
    (hNodup : ∀ tiles ∈ coverage, tiles.Nodup) :
    positionsIn tile coverage = coverage.findIdxs fun tiles => tile ∈ tiles := by
  rw [positionsIn, List.findIdxs_eq_filterMap_zipIdx, List.filterMap_eq_flatMap_toList]
  apply List.flatMap_congr
  intro entry hEntry
  rw [(hNodup entry.1 (List.fst_mem_of_mem_zipIdx hEntry)).count]
  by_cases hTile : tile ∈ entry.1
  · simp [hTile]
  · simp [hTile]

variable {pyramid : Pyramid} {cover : Item → Except Fault (List Tile)}
  {points : Item → List Point} {items : Array Item} {coverage : List (List Tile)}

/-- The tiles that a survey found for an item are those that a lookup of the item alone
finds. -/
theorem getElem?_of_survey (hSurvey : survey cover items = .ok coverage) (position : Nat) :
    items[position]?.map cover = coverage[position]?.map .ok := by
  have hLookup := congrArg (·[position]?) (survey_eq_ok_iff.mp hSurvey).2
  simpa using hLookup

/-- A collection that was surveyed can be taken in. A point that is not finite or a position
that does not fit would have ended the survey. -/
theorem indexable_of_survey (hPlaces : pyramid.Places cover points)
    (hSurvey : survey cover items = .ok coverage) : Indexable points items := by
  refine ⟨(survey_eq_ok_iff.mp hSurvey).1, ?_⟩
  intro item hItem point hPoint
  by_contra hInfinite
  rw [Bool.not_eq_true] at hInfinite
  have hFails := hPlaces.error_of_not_finite item ⟨point, hPoint, hInfinite⟩
  have hFound : cover item ∈ coverage.map .ok :=
    (survey_eq_ok_iff.mp hSurvey).2 ▸ List.mem_map_of_mem (Array.mem_toList_iff.mpr hItem)
  obtain ⟨tiles, _, hTiles⟩ := List.mem_map.mp hFound
  rw [hFails] at hTiles
  cases hTiles

/-- An item can be refused for its position or for a point of it, and its position comes first.
The tiles of its points have no part in that. -/
theorem coverAt_eq_error_iff (hPlaces : pyramid.Places cover points) {entry : Item × Nat}
    {fault : Fault} :
    coverAt cover entry = .error fault ↔
      (fault = .collectionTooLarge ∧ positionLimit ≤ entry.2) ∨
        (fault = .nonFiniteCoordinate ∧ entry.2 < positionLimit ∧
          ∃ point ∈ points entry.1, point.isFinite = false) := by
  rcases Nat.lt_or_ge entry.2 positionLimit with hLimit | hLimit
  · rw [coverAt_of_lt hLimit]
    by_cases hPoint : ∃ point ∈ points entry.1, point.isFinite = false
    · rw [hPlaces.error_of_not_finite _ hPoint, Except.error.injEq, eq_comm]
      simp only [hPoint, hLimit, Nat.not_le.mpr hLimit, and_false, false_or, and_true]
    · have hFinite : ∀ point ∈ points entry.1, point.isFinite := by
        intro point hMem
        by_contra hInfinite
        exact hPoint ⟨point, hMem, Bool.not_eq_true _ ▸ hInfinite⟩
      obtain ⟨tiles, hOk, _⟩ := hPlaces.ok_of_finite _ hFinite
      simp only [hOk, hPoint, Nat.not_le.mpr hLimit, reduceCtorEq, and_false, or_false]
  · rw [coverAt_of_le hLimit, Except.error.injEq, eq_comm]
    simp only [hLimit, Nat.not_lt.mpr hLimit, and_true, false_and, and_false, or_false]

/-- A survey has two ways to fail, and the collection shows which of them it was. Either it has
too many items, or one of them has a point that is not finite. -/
theorem fault_of_survey (hPlaces : pyramid.Places cover points) {fault : Fault}
    (hSurvey : survey cover items = .error fault) :
    (fault = .collectionTooLarge ∧ positionLimit < items.size) ∨
      (fault = .nonFiniteCoordinate ∧ ∃ item ∈ items, ∃ point ∈ points item,
        point.isFinite = false) := by
  obtain ⟨before, ⟨item, position⟩, after, hSplit, _, hFails⟩ :=
    Traversal.mapM_eq_error_iff.mp hSurvey
  have hEntry : (item, position) ∈ items.toList.zipIdx :=
    hSplit ▸ List.mem_append_right _ List.mem_cons_self
  rcases (coverAt_eq_error_iff hPlaces).mp hFails with ⟨hFault, hLimit⟩ | ⟨hFault, _, hPoint⟩
  · have hPosition := List.snd_lt_of_mem_zipIdx hEntry
    simp only [Array.length_toList, Nat.add_zero] at hPosition
    exact Or.inl ⟨hFault, Nat.lt_of_le_of_lt hLimit hPosition⟩
  · have hItem : item ∈ items := Array.mem_toList_iff.mp (List.fst_mem_of_mem_zipIdx hEntry)
    exact Or.inr ⟨hFault, item, hItem, hPoint⟩

/-- Lookups that place the items by the same points fail on the same collections and for the same
reason. -/
theorem survey_eq_error_congr {other : Item → Except Fault (List Tile)}
    (hPlaces : pyramid.Places cover points) (hOther : pyramid.Places other points)
    {fault : Fault} : survey cover items = .error fault ↔ survey other items = .error fault := by
  apply Traversal.mapM_eq_error_congr
  intro entry fault
  rw [coverAt_eq_error_iff hPlaces, coverAt_eq_error_iff hOther]

/-- A survey succeeds exactly for the collections that can be taken in. -/
theorem exists_survey_iff (hPlaces : pyramid.Places cover points) :
    (∃ coverage, survey cover items = .ok coverage) ↔ Indexable points items := by
  constructor
  · intro hSurvey
    obtain ⟨coverage, hSurvey⟩ := hSurvey
    exact indexable_of_survey hPlaces hSurvey
  · intro hIndexable
    obtain ⟨hSize, hFinite⟩ := hIndexable
    cases hSurvey : survey cover items with
    | ok coverage => exact ⟨coverage, rfl⟩
    | error fault =>
        rcases fault_of_survey hPlaces hSurvey with ⟨_, hLarge⟩ | ⟨_, item, hItem, point, hPoint, h⟩
        · omega
        · rw [hFinite item hItem point hPoint] at h
          cases h

/-- The tiles that a survey has at a position are those that show a point of the item
there, each once. -/
theorem item_of_survey (hPlaces : pyramid.Places cover points)
    (hSurvey : survey cover items = .ok coverage) {position : Nat} {tiles : List Tile}
    (hTiles : coverage[position]? = some tiles) :
    ∃ item, items[position]? = some item ∧ tiles.Nodup ∧
      ∀ tile, tile ∈ tiles ↔ ∃ point ∈ points item, pyramid.Shows tile point := by
  have hCover := getElem?_of_survey hSurvey position
  rw [hTiles, Option.map_some, Option.map_eq_some_iff] at hCover
  obtain ⟨item, hItem, hFound⟩ := hCover
  have hFinite := (indexable_of_survey hPlaces hSurvey).2 item (Array.mem_of_getElem? hItem)
  obtain ⟨found, hOk, hNodup, hMem⟩ := hPlaces.ok_of_finite item hFinite
  obtain rfl : found = tiles := Except.ok.inj (hOk.symm.trans hFound)
  exact ⟨item, hItem, hNodup, hMem⟩

theorem exists_tiles_of_survey (hSurvey : survey cover items = .ok coverage) {position : Nat}
    {item : Item} (hItem : items[position]? = some item) :
    ∃ tiles, coverage[position]? = some tiles := by
  have hCover := getElem?_of_survey hSurvey position
  rw [hItem, Option.map_some, eq_comm, Option.map_eq_some_iff] at hCover
  obtain ⟨tiles, hTiles, _⟩ := hCover
  exact ⟨tiles, hTiles⟩

/-- The positions that a survey leads to in a tile are those of the items that the tile shows a
point of. Both lists ascend, so it is enough that they have the same members. -/
theorem positionsIn_of_survey (hPlaces : pyramid.Places cover points)
    (hSurvey : survey cover items = .ok coverage) (tile : Tile) :
    positionsIn tile coverage = pyramid.positions tile points items := by
  have hNodup : ∀ tiles ∈ coverage, tiles.Nodup := by
    intro tiles hTiles
    obtain ⟨position, hPosition⟩ := List.mem_iff_getElem?.mp hTiles
    obtain ⟨_, _, hNodup, _⟩ := item_of_survey hPlaces hSurvey hPosition
    exact hNodup
  rw [positionsIn_eq_findIdxs hNodup]
  apply List.pairwise_findIdxs.eq_of_mem_iff (pyramid.pairwise_positions tile points items)
  intro position
  rw [pyramid.mem_positions, List.mem_findIdxs_iff_exists_getElem_pos]
  constructor
  · intro hListed
    obtain ⟨hPosition, hTile⟩ := hListed
    obtain ⟨item, hItem, _, hMem⟩ :=
      item_of_survey hPlaces hSurvey (List.getElem?_eq_getElem hPosition)
    exact ⟨item, hItem, (hMem tile).mp (of_decide_eq_true hTile)⟩
  · intro hShows
    obtain ⟨item, hItem, hShown⟩ := hShows
    obtain ⟨tiles, hTiles⟩ := exists_tiles_of_survey hSurvey hItem
    obtain ⟨other, hOther, _, hMem⟩ := item_of_survey hPlaces hSurvey hTiles
    obtain rfl : other = item := Option.some.inj (hOther.symm.trans hItem)
    obtain ⟨hPosition, rfl⟩ := List.getElem?_eq_some_iff.mp hTiles
    exact ⟨hPosition, decide_eq_true ((hMem tile).mpr hShown)⟩

section Kinds

variable (index : PlacementIndex) (group : Group)

/-- Withdrawing and recording exchange one list of one group, whatever stood in it, and touch
no other list. -/
theorem share_replaced (kind : Share.Kind) (coverage : List (List Tile)) (tile : Tile)
    (other : Group) :
    ((index.withdraw kind group).record group (Share.cons kind) coverage).share tile other =
      if group = other then (index.share tile group).withPositions kind (positionsIn tile coverage)
      else index.share tile other := by
  have hEmpty : (∅ : Share).withPositions kind [] = ∅ := Share.withPositions_empty kind
  rw [share_record, withdraw, share_mapShares _ _ hEmpty, share_mapShares _ _ hEmpty]
  by_cases hGroup : group = other
  · simp only [if_pos hGroup, if_true, Share.foldr_cons, Share.positions_withPositions,
      List.append_nil, Share.withPositions_withPositions]
  · simp only [if_neg hGroup]

/-- A replacement goes through exactly if the collection can be taken in. What the index holds
already has no part in that. -/
theorem exists_replace_iff (hPlaces : pyramid.Places cover points) (kind : Share.Kind) :
    (∃ next, index.replace kind group cover items = .ok next) ↔ Indexable points items :=
  Traversal.exists_bind_pure_eq_ok_iff.trans (exists_survey_iff hPlaces)

/-- A collection that fits is refused for a point of it or not at all. -/
theorem fault_of_replace {index : PlacementIndex} {group : Group} {kind : Share.Kind}
    {fault : Fault} (hPlaces : pyramid.Places cover points) (hSize : items.size ≤ positionLimit)
    (hFails : index.replace kind group cover items = .error fault) :
    fault = .nonFiniteCoordinate := by
  rcases fault_of_survey hPlaces (Traversal.bind_pure_eq_error_iff.mp hFails) with
    ⟨_, hLarge⟩ | ⟨hFault, _⟩
  · exact absurd hSize (Nat.not_le.mpr hLarge)
  · exact hFault

/-- After a replacement the group has the positions of its kind that the tiles show, and the
positions of the other kind and all other groups are as before. -/
theorem share_of_replace {index next : PlacementIndex} {group : Group} {kind : Share.Kind}
    (hPlaces : pyramid.Places cover points)
    (hNext : index.replace kind group cover items = .ok next) (tile : Tile) (other : Group) :
    next.share tile other =
      if group = other then
        (index.share tile group).withPositions kind (pyramid.positions tile points items)
      else index.share tile other := by
  obtain ⟨coverage, hSurvey, rfl⟩ := Traversal.bind_pure_eq_ok_iff.mp hNext
  rw [share_replaced, positionsIn_of_survey hPlaces hSurvey]

end Kinds

variable (index : PlacementIndex) (pyramid : Pyramid) (group : Group)

section Marks

variable [Pinned M] {marks : Array M}

theorem exists_replaceMarks_iff :
    (∃ next, index.replaceMarks pyramid group marks = .ok next) ↔ MarksIndexable marks :=
  (index.exists_replace_iff group pyramid.tilesAt_places .marks).trans marksIndexable_iff.symm

/-- Replaced marks are the positions that the tiles show, whatever the group had before, and
the lines of the group stay. -/
theorem share_of_replaceMarks {index next : PlacementIndex} {pyramid : Pyramid} {group : Group}
    (hNext : index.replaceMarks pyramid group marks = .ok next) (tile : Tile) (other : Group) :
    next.share tile other =
      if group = other then
        { index.share tile group with marks := pyramid.markPositions tile marks }
      else index.share tile other :=
  share_of_replace pyramid.tilesAt_places hNext tile other

end Marks

section Lines

variable [Traced L] {lines : Array L}

theorem exists_replaceLines_iff :
    (∃ next, index.replaceLines pyramid group lines = .ok next) ↔ LinesIndexable lines :=
  index.exists_replace_iff group pyramid.tilesAlong_places .lines

/-- Replaced lines are the positions that the tiles show, each once however many vertices of a
line a tile holds, and the marks of the group stay. -/
theorem share_of_replaceLines {index next : PlacementIndex} {pyramid : Pyramid} {group : Group}
    (hNext : index.replaceLines pyramid group lines = .ok next) (tile : Tile) (other : Group) :
    next.share tile other =
      if group = other then
        { index.share tile group with lines := pyramid.linePositions tile lines }
      else index.share tile other :=
  share_of_replace pyramid.tilesAlong_places hNext tile other

end Lines

theorem share_remove (tile : Tile) (other : Group) :
    (index.remove group).share tile other =
      if group = other then ∅ else index.share tile other := by
  rw [remove, share_mapShares _ _ rfl]

@[simp] theorem share_empty (tile : Tile) (group : Group) :
    (∅ : PlacementIndex).share tile group = ∅ := by
  have hRows : (∅ : PlacementIndex).rows = ∅ := rfl
  simp [share, hRows]

end PlacementIndex

end MapOverlay
