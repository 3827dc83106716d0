import MapOverlay.Drawing.Build
import MapOverlay.Proofs.Traversal

/-! What a single position does to a drawing, and drawings of excerpts that can be drawn.
Where no position is out of range and no sprite is missing, a drawing is the sorted
collection of what its positions stand for, one by one. -/
namespace MapOverlay

namespace Line

/-- One stroke of a line in a tile. -/
def strip (line : Line) (toLocal : Affine) (position : Nat) (stroke : Stroke) : Strip where
  position
  points := line.points.map toLocal.apply
  color := stroke.color
  width := stroke.width
  depth := stroke.depth

/-- A line with an extent has one strip for each stroke, in the order in which its strokes were
declared, and a line without extent has none. -/
theorem strips_eq (line : Line) (toLocal : Affine) (position : Nat) :
    line.strips toLocal position =
      if 2 ≤ line.points.length then line.strokes.map (line.strip toLocal position) else [] := by
  by_cases hExtent : 2 ≤ line.points.length
  · rw [strips, if_neg (Nat.not_lt.mpr hExtent), if_pos hExtent]
    rfl
  · rw [strips, if_pos (Nat.not_le.mp hExtent), if_neg hExtent]

end Line

namespace Excerpt

variable (excerpt : Excerpt Mark Line)

/-- Every position has an item, and every visible mark among them has its sprite. -/
structure Drawable (atlas : Atlas) : Prop where
  mark_of_position : ∀ position ∈ excerpt.markPositions, ∃ mark,
    excerpt.marks[position]? = some mark ∧
      (mark.visible → ∃ sprite, atlas.find? mark.symbol = some sprite)
  line_of_position : ∀ position ∈ excerpt.linePositions, ∃ line,
    excerpt.lines[position]? = some line

/-- The quad that a position stands for, nothing where there is none to be seen. -/
def quadFor? (atlas : Atlas) (toLocal : Affine) (position : Nat) : Option Quad :=
  match excerpt.marks[position]? with
  | some mark =>
      if mark.visible then
        (atlas.find? mark.symbol).map fun sprite => mark.quad sprite toLocal position
      else none
  | none => none

/-- The strips that a position stands for: one for each stroke of its line, as they were declared,
if the line has at least two points. -/
def stripsFor (toLocal : Affine) (position : Nat) : List Strip :=
  match excerpt.lines[position]? with
  | some line =>
      if 2 ≤ line.points.length then line.strokes.map (line.strip toLocal position) else []
  | none => []

variable {excerpt} {atlas : Atlas} {toLocal : Affine} {position : Nat}

/-- A position stands for a quad if there is a visible mark at it whose symbol the atlas has.
The quad is that of the mark and the sprite. -/
theorem quadFor?_eq_some_iff {quad : Quad} :
    excerpt.quadFor? atlas toLocal position = some quad ↔
      ∃ mark sprite, excerpt.marks[position]? = some mark ∧ mark.visible ∧
        atlas.find? mark.symbol = some sprite ∧ mark.quad sprite toLocal position = quad := by
  rw [quadFor?]
  cases excerpt.marks[position]? with
  | none => simp
  | some mark => cases hVisible : mark.visible <;> simp [hVisible]

/-- A strip belongs to a position if it is a stroke of the line there, and the line has at
least two points. -/
theorem mem_stripsFor_iff {strip : Strip} :
    strip ∈ excerpt.stripsFor toLocal position ↔
      ∃ line stroke, excerpt.lines[position]? = some line ∧ 2 ≤ line.points.length ∧
        stroke ∈ line.strokes ∧ line.strip toLocal position stroke = strip := by
  rw [stripsFor]
  cases excerpt.lines[position]? with
  | none => simp
  | some line => by_cases hExtent : 2 ≤ line.points.length <;> simp [hExtent]

/-- What a position stands for is what its line draws, all strokes in their order. -/
theorem stripsFor_of_line {line : Line} (hLine : excerpt.lines[position]? = some line) :
    excerpt.stripsFor toLocal position = line.strips toLocal position := by
  rw [line.strips_eq, stripsFor, hLine]

theorem position_of_quadFor? {quad : Quad}
    (hQuad : excerpt.quadFor? atlas toLocal position = some quad) : quad.position = position := by
  obtain ⟨mark, sprite, _, _, _, rfl⟩ := quadFor?_eq_some_iff.mp hQuad
  rfl

theorem position_of_mem_stripsFor {strip : Strip}
    (hStrip : strip ∈ excerpt.stripsFor toLocal position) : strip.position = position := by
  obtain ⟨line, stroke, _, _, _, rfl⟩ := mem_stripsFor_iff.mp hStrip
  rfl

variable (excerpt) in
/-- The drawing of an excerpt that can be drawn. -/
def picture (tile : Tile) (atlas : Atlas) : Drawing where
  tile
  origin := tile.bounds.center
  quads := (excerpt.markPositions.filterMap (excerpt.quadFor? atlas tile.toLocal)).mergeSort
    fun first second => notDeeper first.depth second.depth
  strips := (excerpt.linePositions.flatMap (excerpt.stripsFor tile.toLocal)).mergeSort
    fun first second => notDeeper first.depth second.depth

theorem tile_picture (tile : Tile) : (excerpt.picture tile atlas).tile = tile :=
  rfl

/-- At a position in range, only the sprite of a visible mark can be missed. -/
theorem quadAt?_of_mark {mark : Mark} (hMark : excerpt.marks[position]? = some mark) :
    excerpt.quadAt? atlas toLocal position =
      if mark.visible then
        match atlas.find? mark.symbol with
        | some sprite => .ok (some (mark.quad sprite toLocal position))
        | none => .error (.missingSymbol excerpt.group mark.symbol)
      else .ok none := by
  simp only [quadAt?, markAt, hMark]
  rfl

/-- A mark position that does not end a drawing. Nothing is asked of the sprite of a hidden
mark. -/
def Passes (marks : Array Mark) (atlas : Atlas) (position : Nat) : Prop :=
  ∃ mark, marks[position]? = some mark ∧
    (mark.visible → ∃ sprite, atlas.find? mark.symbol = some sprite)

/-- What ends a drawing at a mark position. -/
inductive Stops (group : Group) (marks : Array Mark) (atlas : Atlas) (position : Nat) :
    DrawError → Prop
  | outOfRange (beyond : marks.size ≤ position) :
      Stops group marks atlas position (.fault (.markOutOfRange position))
  | missingSymbol {mark : Mark} (listed : marks[position]? = some mark) (visible : mark.visible)
      (unknown : atlas.find? mark.symbol = none) :
      Stops group marks atlas position (.missingSymbol group mark.symbol)

/-- Every mark position either passes or stops the drawing. A position in range passes if its
mark is hidden or has a sprite. -/
theorem passes_or_stops (group : Group) (marks : Array Mark) (atlas : Atlas) (position : Nat) :
    Passes marks atlas position ∨ ∃ error, Stops group marks atlas position error := by
  cases hMark : marks[position]? with
  | none => exact Or.inr ⟨_, .outOfRange (Array.getElem?_eq_none_iff.mp hMark)⟩
  | some mark =>
      cases hVisible : mark.visible with
      | false => exact Or.inl ⟨mark, hMark, by simp [hVisible]⟩
      | true =>
          cases hSprite : atlas.find? mark.symbol with
          | none => exact Or.inr ⟨_, .missingSymbol hMark hVisible hSprite⟩
          | some sprite => exact Or.inl ⟨mark, hMark, fun _ => ⟨sprite, hSprite⟩⟩

/-- A position that passes gives the quad that it stands for, or none for a hidden mark. -/
theorem Passes.quadAt?_eq (hPasses : Passes excerpt.marks atlas position) :
    excerpt.quadAt? atlas toLocal position = .ok (excerpt.quadFor? atlas toLocal position) := by
  obtain ⟨mark, hMark, hSprite⟩ := hPasses
  rw [quadAt?_of_mark hMark]
  simp only [quadFor?, hMark]
  cases hVisible : mark.visible with
  | false => rfl
  | true =>
      obtain ⟨sprite, hSprite⟩ := hSprite hVisible
      rw [hSprite]
      rfl

theorem Stops.quadAt?_eq {error : DrawError}
    (hStops : Stops excerpt.group excerpt.marks atlas position error) :
    excerpt.quadAt? atlas toLocal position = .error error := by
  cases hStops with
  | outOfRange hBeyond =>
      simp only [quadAt?, markAt, Array.getElem?_eq_none hBeyond]
      rfl
  | missingSymbol hListed hVisible hUnknown =>
      rw [quadAt?_of_mark hListed, if_pos hVisible, hUnknown]

theorem exists_quadAt?_iff :
    (∃ quad?, excerpt.quadAt? atlas toLocal position = .ok quad?) ↔
      Passes excerpt.marks atlas position := by
  refine ⟨fun hDrawn => ?_, fun hPasses => ⟨_, hPasses.quadAt?_eq⟩⟩
  obtain ⟨quad?, hQuad⟩ := hDrawn
  rcases passes_or_stops excerpt.group excerpt.marks atlas position with hPasses | ⟨error, hStops⟩
  · exact hPasses
  · exact absurd (hQuad.symm.trans hStops.quadAt?_eq) nofun

/-- A mark position fails exactly if it stops the drawing, with that error. -/
theorem quadAt?_eq_error_iff {error : DrawError} :
    excerpt.quadAt? atlas toLocal position = .error error ↔
      Stops excerpt.group excerpt.marks atlas position error := by
  refine ⟨fun hFails => ?_, Stops.quadAt?_eq⟩
  rcases passes_or_stops excerpt.group excerpt.marks atlas position with hPasses | ⟨cause, hStops⟩
  · exact absurd (hPasses.quadAt?_eq.symm.trans hFails) nofun
  · obtain rfl : cause = error := Except.error.inj (hStops.quadAt?_eq.symm.trans hFails)
    exact hStops

/-- A line position gives the strips that it stands for if it is in range, and else it is named
as out of range. -/
theorem stripsAt_eq (excerpt : Excerpt Mark Line) (toLocal : Affine) (position : Nat) :
    excerpt.stripsAt toLocal position =
      if position < excerpt.lines.size then .ok (excerpt.stripsFor toLocal position)
      else .error (.fault (.lineOutOfRange position)) := by
  rcases Nat.lt_or_ge position excerpt.lines.size with hPosition | hBeyond
  · have hLine := Array.getElem?_eq_getElem hPosition
    rw [if_pos hPosition, stripsFor_of_line hLine, stripsAt, lineAt, hLine]
    rfl
  · rw [if_neg (Nat.not_lt.mpr hBeyond), stripsAt, lineAt, Array.getElem?_eq_none hBeyond]
    rfl

/-- An excerpt can be drawn if all its mark positions pass and all its line positions are in
range. -/
theorem drawable_iff :
    excerpt.Drawable atlas ↔
      (∀ position ∈ excerpt.markPositions, Passes excerpt.marks atlas position) ∧
        ∀ position ∈ excerpt.linePositions, position < excerpt.lines.size := by
  constructor
  · intro hDrawable
    refine ⟨hDrawable.mark_of_position, fun position hPosition => ?_⟩
    obtain ⟨line, hLine⟩ := hDrawable.line_of_position position hPosition
    exact (Array.getElem?_eq_some_iff.mp hLine).1
  · rintro ⟨hMarks, hLines⟩
    exact ⟨hMarks, fun position hPosition =>
      ⟨_, Array.getElem?_eq_getElem (hLines position hPosition)⟩⟩

theorem exists_stripsAt_iff :
    (∃ strips, excerpt.stripsAt toLocal position = .ok strips) ↔ position < excerpt.lines.size := by
  rw [stripsAt_eq]
  split <;> simp [*]

theorem stripsAt_eq_error_iff {error : DrawError} :
    excerpt.stripsAt toLocal position = .error error ↔
      excerpt.lines.size ≤ position ∧ .fault (.lineOutOfRange position) = error := by
  rw [stripsAt_eq, ← Nat.not_lt]
  split <;> simp [*]

/-- An excerpt that can be drawn is drawn, and its drawing is the picture. -/
theorem Drawable.drawing_eq (hDrawable : excerpt.Drawable atlas) (tile : Tile) :
    excerpt.drawing tile atlas = .ok (excerpt.picture tile atlas) := by
  obtain ⟨hMarks, hLines⟩ := drawable_iff.mp hDrawable
  have hQuads : excerpt.markPositions.mapM (excerpt.quadAt? atlas tile.toLocal) =
      .ok (excerpt.markPositions.map (excerpt.quadFor? atlas tile.toLocal)) := by
    rw [Traversal.mapM_eq_ok_iff, List.map_map]
    exact List.map_congr_left fun position hPosition => (hMarks position hPosition).quadAt?_eq
  have hStrips : excerpt.linePositions.mapM (excerpt.stripsAt tile.toLocal) =
      .ok (excerpt.linePositions.map (excerpt.stripsFor tile.toLocal)) := by
    rw [Traversal.mapM_eq_ok_iff, List.map_map]
    refine List.map_congr_left fun position hPosition => ?_
    rw [stripsAt_eq, if_pos (hLines position hPosition)]
    rfl
  rw [drawing, hQuads, hStrips]
  have hPicked : (excerpt.markPositions.map (excerpt.quadFor? atlas tile.toLocal)).filterMap id =
      excerpt.markPositions.filterMap (excerpt.quadFor? atlas tile.toLocal) :=
    List.filterMap_map
  simp only [picture, List.flatMap_def, ← hPicked]
  rfl

/-- Whatever is drawn can be drawn: nothing is left out to get around a bad position or a
missing sprite. Each walk has succeeded at every position. -/
theorem drawable_of_drawing_eq_ok {tile : Tile} {drawing : Drawing}
    (hDrawing : excerpt.drawing tile atlas = .ok drawing) : excerpt.Drawable atlas := by
  obtain ⟨quads, hQuads, hLater⟩ := Traversal.bind_eq_ok_iff.mp hDrawing
  obtain ⟨strips, hStrips, _⟩ := Traversal.bind_eq_ok_iff.mp hLater
  refine drawable_iff.mpr ⟨fun position hPosition => ?_, fun position hPosition => ?_⟩
  · exact exists_quadAt?_iff.mp (Traversal.exists_of_mapM_eq_ok hQuads hPosition)
  · exact exists_stripsAt_iff.mp (Traversal.exists_of_mapM_eq_ok hStrips hPosition)

theorem drawing_eq_ok_iff {tile : Tile} {drawing : Drawing} :
    excerpt.drawing tile atlas = .ok drawing ↔
      excerpt.Drawable atlas ∧ excerpt.picture tile atlas = drawing := by
  constructor
  · intro hDrawing
    have hDrawable := drawable_of_drawing_eq_ok hDrawing
    rw [hDrawable.drawing_eq, Except.ok.injEq] at hDrawing
    exact ⟨hDrawable, hDrawing⟩
  · rintro ⟨hDrawable, rfl⟩
    exact hDrawable.drawing_eq tile

theorem mem_quads_picture {tile : Tile} {quad : Quad} :
    quad ∈ (excerpt.picture tile atlas).quads ↔
      ∃ position ∈ excerpt.markPositions,
        excerpt.quadFor? atlas tile.toLocal position = some quad := by
  rw [picture, List.mem_mergeSort, List.mem_filterMap]

/-- A listed mark that is to be seen has its own quad and no other one, however often it is
listed. -/
theorem mem_quads_picture_at_iff {mark : Mark} {sprite : Sprite}
    (hListed : position ∈ excerpt.markPositions)
    (hMark : excerpt.marks[position]? = some mark) (hVisible : mark.visible)
    (hSprite : atlas.find? mark.symbol = some sprite) {tile : Tile} {quad : Quad} :
    quad ∈ (excerpt.picture tile atlas).quads ∧ quad.position = position ↔
      mark.quad sprite tile.toLocal position = quad := by
  have hItsQuad : excerpt.quadFor? atlas tile.toLocal position =
      some (mark.quad sprite tile.toLocal position) :=
    quadFor?_eq_some_iff.mpr ⟨mark, sprite, hMark, hVisible, hSprite, rfl⟩
  rw [mem_quads_picture]
  constructor
  · rintro ⟨⟨listed, _, hQuad⟩, hPosition⟩
    obtain rfl : listed = position := (position_of_quadFor? hQuad).symm.trans hPosition
    exact Option.some_inj.mp (hItsQuad.symm.trans hQuad)
  · rintro rfl
    exact ⟨⟨position, hListed, hItsQuad⟩, rfl⟩

theorem mem_strips_picture {tile : Tile} {strip : Strip} :
    strip ∈ (excerpt.picture tile atlas).strips ↔
      ∃ position ∈ excerpt.linePositions, strip ∈ excerpt.stripsFor tile.toLocal position := by
  rw [picture, List.mem_mergeSort, List.mem_flatMap]

/-- A position that is listed once has its quad once, wherever the depths put it. One that is
not listed has none. -/
theorem quads_at (hNodup : excerpt.markPositions.Nodup) (tile : Tile) (position : Nat) :
    (excerpt.picture tile atlas).quads.filter (fun quad => quad.position = position) =
      if position ∈ excerpt.markPositions then
        (excerpt.quadFor? atlas tile.toLocal position).toList
      else [] := by
  have hPerm : ((excerpt.picture tile atlas).quads.filter fun quad => quad.position = position).Perm
      (if position ∈ excerpt.markPositions then
        (excerpt.quadFor? atlas tile.toLocal position).toList
      else []) := by
    rw [← Traversal.filter_flatMap_of_key hNodup
        (fun _ _ hQuad => position_of_quadFor? (Option.mem_toList.mp hQuad)) position,
      ← List.filterMap_eq_flatMap_toList]
    exact (List.mergeSort_perm _ _).filter _
  by_cases hMem : position ∈ excerpt.markPositions
  · rw [if_pos hMem] at hPerm ⊢
    cases hQuad : excerpt.quadFor? atlas tile.toLocal position with
    | none =>
        rw [hQuad, Option.toList_none] at hPerm
        exact hPerm.eq_nil
    | some quad =>
        rw [hQuad, Option.toList_some] at hPerm
        exact List.perm_singleton.mp hPerm
  · rw [if_neg hMem] at hPerm ⊢
    exact hPerm.eq_nil

/-- A position that is listed once has its strips once, in the order of their depths. Nothing
is said about the order among strips of one depth. -/
theorem strips_at (hNodup : excerpt.linePositions.Nodup) (tile : Tile) (position : Nat) :
    ((excerpt.picture tile atlas).strips.filter fun strip => strip.position = position).Perm
      (if position ∈ excerpt.linePositions then excerpt.stripsFor tile.toLocal position
        else []) := by
  rw [← Traversal.filter_flatMap_of_key hNodup (fun _ _ => position_of_mem_stripsFor) position]
  exact (List.mergeSort_perm _ _).filter _

end Excerpt

end MapOverlay
