import MapOverlay.Proofs.Drawing.Picture

/-! How the drawing of an excerpt ends, for position lists of any kind. Marks are examined
before lines and each list from its front. The first position that something is wrong with
ends the drawing, and what stands behind it makes no difference. -/
namespace MapOverlay.Excerpt

/-- How a drawing ends: at a mark position, behind all mark positions at a line position, or
with a picture. Every case says that the positions before its own have passed. -/
inductive Ends (excerpt : Excerpt Mark Line) (tile : Tile) (atlas : Atlas) :
    Except DrawError Drawing → Prop
  | atMark {before after : List Nat} {position : Nat} {error : DrawError}
      (positions_eq : excerpt.markPositions = before ++ position :: after)
      (pass : ∀ earlier ∈ before, Passes excerpt.marks atlas earlier)
      (stops : Stops excerpt.group excerpt.marks atlas position error) :
      Ends excerpt tile atlas (.error error)
  | atLine {before after : List Nat} {position : Nat}
      (marks_pass : ∀ position ∈ excerpt.markPositions, Passes excerpt.marks atlas position)
      (positions_eq : excerpt.linePositions = before ++ position :: after)
      (pass : ∀ earlier ∈ before, earlier < excerpt.lines.size)
      (beyond : excerpt.lines.size ≤ position) :
      Ends excerpt tile atlas (.error (.fault (.lineOutOfRange position)))
  | drawn (marks_pass : ∀ position ∈ excerpt.markPositions, Passes excerpt.marks atlas position)
      (lines_pass : ∀ position ∈ excerpt.linePositions, position < excerpt.lines.size) :
      Ends excerpt tile atlas (.ok (excerpt.picture tile atlas))

variable {excerpt : Excerpt Mark Line} {atlas : Atlas} {toLocal : Affine} {position : Nat}

/-- The walk over the marks fails at its first position that does not pass, with the error of
that position. -/
theorem quads_fail_iff {error : DrawError} :
    excerpt.markPositions.mapM (excerpt.quadAt? atlas toLocal) = .error error ↔
      ∃ before position after, excerpt.markPositions = before ++ position :: after ∧
        (∀ earlier ∈ before, Passes excerpt.marks atlas earlier) ∧
        Stops excerpt.group excerpt.marks atlas position error := by
  simp only [Traversal.mapM_eq_error_iff, exists_quadAt?_iff, quadAt?_eq_error_iff]

/-- The walk over the lines fails at its first position out of range. A line in range never
fails, whether it has strips or not. -/
theorem strips_fail_iff {error : DrawError} :
    excerpt.linePositions.mapM (excerpt.stripsAt toLocal) = .error error ↔
      ∃ before position after, excerpt.linePositions = before ++ position :: after ∧
        (∀ earlier ∈ before, earlier < excerpt.lines.size) ∧
        excerpt.lines.size ≤ position ∧ .fault (.lineOutOfRange position) = error := by
  simp only [Traversal.mapM_eq_error_iff, exists_stripsAt_iff, stripsAt_eq_error_iff]

variable {tile : Tile} {result : Except DrawError Drawing}

/-- Every drawing ends in one of the ways. If the marks fail, the lines are not looked at, and
if neither fails, there is a picture. -/
theorem ends_of_drawing (hDrawing : excerpt.drawing tile atlas = result) :
    excerpt.Ends tile atlas result := by
  cases result with
  | ok drawing =>
      obtain ⟨hDrawable, rfl⟩ := drawing_eq_ok_iff.mp hDrawing
      obtain ⟨hMarks, hLines⟩ := drawable_iff.mp hDrawable
      exact .drawn hMarks hLines
  | error error =>
      rcases Traversal.bind_eq_error_iff.mp hDrawing with hQuads | ⟨quads, hQuads, hLater⟩
      · obtain ⟨before, position, after, hSplit, hPass, hStops⟩ := quads_fail_iff.mp hQuads
        exact .atMark hSplit hPass hStops
      · have hMarks : ∀ position ∈ excerpt.markPositions, Passes excerpt.marks atlas position :=
          fun position hPosition =>
            exists_quadAt?_iff.mp (Traversal.exists_of_mapM_eq_ok hQuads hPosition)
        rcases Traversal.bind_eq_error_iff.mp hLater with hStrips | ⟨strips, _, hDone⟩
        · obtain ⟨before, position, after, hSplit, hPass, hBeyond, rfl⟩ :=
            strips_fail_iff.mp hStrips
          exact .atLine hMarks hSplit hPass hBeyond
        · cases hDone

/-- The way in which a drawing ends determines its result. -/
theorem Ends.drawing_eq (hEnds : excerpt.Ends tile atlas result) :
    excerpt.drawing tile atlas = result := by
  cases hEnds with
  | atMark hSplit hPass hStops =>
      exact Traversal.bind_eq_error_iff.mpr
        (Or.inl (quads_fail_iff.mpr ⟨_, _, _, hSplit, hPass, hStops⟩))
  | atLine hMarks hSplit hPass hBeyond =>
      obtain ⟨quads, hQuads⟩ := Traversal.exists_mapM_eq_ok fun position hPosition =>
        exists_quadAt?_iff.mpr (hMarks position hPosition)
      have hStrips : excerpt.linePositions.mapM (excerpt.stripsAt tile.toLocal) = .error _ :=
        strips_fail_iff.mpr ⟨_, _, _, hSplit, hPass, hBeyond, rfl⟩
      exact Traversal.bind_eq_error_iff.mpr
        (Or.inr ⟨quads, hQuads, Traversal.bind_eq_error_iff.mpr (Or.inl hStrips)⟩)
  | drawn hMarks hLines => exact (drawable_iff.mpr ⟨hMarks, hLines⟩).drawing_eq tile

/-- A drawing ends at the first mark position that is out of range or selects a visible mark
without a sprite, and names it or the sprite. What comes later in the list, and the lines, do not
matter then. Only behind all mark positions can a line position out of range end it, and again
it is the first one. Otherwise there is a drawing. No sprite is ever missed on behalf of a
hidden mark. -/
theorem drawing_ends_at_first_fault (excerpt : Excerpt Mark Line) (tile : Tile) (atlas : Atlas) :
    (∀ result, excerpt.drawing tile atlas = result ↔ excerpt.Ends tile atlas result) ∧
    (∀ before position error, (∀ earlier ∈ before, Passes excerpt.marks atlas earlier) →
      Stops excerpt.group excerpt.marks atlas position error → ∀ later lines linePositions,
        ({ excerpt with markPositions := before ++ position :: later, lines, linePositions } :
          Excerpt Mark Line).drawing tile atlas = .error error) ∧
    (∀ group symbol, excerpt.drawing tile atlas = .error (.missingSymbol group symbol) →
      group = excerpt.group ∧ ∃ position ∈ excerpt.markPositions, ∃ mark,
        excerpt.marks[position]? = some mark ∧ mark.visible ∧ mark.symbol = symbol ∧
        atlas.find? symbol = none) ∧
    ∀ position,
      (DrawError.fault (.markOutOfRange position)).message =
        s!"mark position {position} out of range" ∧
      (DrawError.fault (.lineOutOfRange position)).message =
        s!"line position {position} out of range" := by
  refine ⟨fun result => ⟨ends_of_drawing, Ends.drawing_eq⟩, ?_, ?_, fun position => ⟨rfl, rfl⟩⟩
  · intro before position error hPass hStops later lines linePositions
    exact Ends.drawing_eq (.atMark rfl hPass hStops)
  · intro group symbol hDrawing
    cases ends_of_drawing hDrawing with
    | atMark hSplit hPass hStops =>
        cases hStops with
        | missingSymbol hListed hVisible hUnknown =>
            exact ⟨rfl, _, by simp [hSplit], _, hListed, hVisible, rfl, hUnknown⟩

/-- A hidden mark without a sprite, a visible one with a sprite and a visible one without. -/
def crossedMarks : Array Mark :=
  #[{ pivot := ⟨10, 10⟩, symbol := "ghost", visible := false },
    { pivot := ⟨10, 10⟩, symbol := "pin" }, { pivot := ⟨10, 10⟩, symbol := "ghost" }]

/-- An excerpt of these marks and of one line without points, with positions to choose. -/
def crossed (markPositions linePositions : List Nat) : Excerpt Mark Line :=
  ⟨⟨7⟩, crossedMarks, markPositions, #[⟨[], []⟩], linePositions⟩

/-- An atlas with a sprite for one symbol only. -/
def pinOnly : Atlas :=
  (∅ : Atlas).insert "pin" ⟨⟨0, 0, 1, 1⟩, ⟨16, 16⟩⟩

/-- Faults of every kind stand behind the one that is named. A hidden mark without a sprite is
passed over. -/
theorem drawing_ends_crossed :
    let tile : Tile := ⟨Zoom.coarsest, 0, 0⟩
    (crossed [0, 1, 2, 9] [5]).drawing tile pinOnly = .error (.missingSymbol ⟨7⟩ "ghost") ∧
    (crossed [0, 9, 2] [5]).drawing tile pinOnly = .error (.fault (.markOutOfRange 9)) ∧
    (crossed [1, 0] [0, 5, 7]).drawing tile pinOnly = .error (.fault (.lineOutOfRange 5)) := by
  intro tile
  have hHidden : Passes crossedMarks pinOnly 0 := ⟨_, rfl, nofun⟩
  have hPin : Passes crossedMarks pinOnly 1 :=
    ⟨_, rfl, fun _ => ⟨_, Std.ExtTreeMap.getElem?_insert_self⟩⟩
  have hListed : crossedMarks[2]? = some crossedMarks[2] := rfl
  have hGhost : Stops ⟨7⟩ crossedMarks pinOnly 2 (.missingSymbol ⟨7⟩ "ghost") :=
    .missingSymbol hListed rfl rfl
  refine ⟨?_, ?_, ?_⟩
  · have hSplit : [0, 1, 2, 9] = [0, 1] ++ 2 :: [9] := rfl
    apply ((drawing_ends_at_first_fault _ tile _).1 _).mpr
    refine .atMark hSplit ?_ hGhost
    simp only [List.forall_mem_cons]
    exact ⟨hHidden, hPin, List.forall_mem_nil _⟩
  · have hSplit : [0, 9, 2] = [0] ++ 9 :: [2] := rfl
    apply ((drawing_ends_at_first_fault _ tile _).1 _).mpr
    refine .atMark hSplit ?_ (.outOfRange (by decide))
    simp only [List.forall_mem_cons]
    exact ⟨hHidden, List.forall_mem_nil _⟩
  · have hSplit : [0, 5, 7] = [0] ++ 5 :: [7] := rfl
    apply ((drawing_ends_at_first_fault _ tile _).1 _).mpr
    refine .atLine ?_ hSplit (by decide) (by decide)
    simp only [crossed, List.forall_mem_cons]
    exact ⟨hPin, hHidden, List.forall_mem_nil _⟩

end MapOverlay.Excerpt
