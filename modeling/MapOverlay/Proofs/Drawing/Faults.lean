import MapOverlay.Proofs.Drawing.Ending
import MapOverlay.Proofs.Drawing.Painter
import MapOverlay.Proofs.Overlay.Walk

/-! When a session faults. The positions in an index always belong to the collections that
are held beside it, so selecting from an excerpt cannot fail, and what is left is the one
misuse that a caller can commit: a coordinate that no tile has. -/
namespace MapOverlay

variable {M L Resources Payload Failure Builder Sink : Type}

namespace Excerpt

/-- Selecting the marks or the lines meets a bad position. -/
def SelectionFault (excerpt : Excerpt M L) (fault : Fault) : Prop :=
  excerpt.selectedMarks = .error fault ∨ excerpt.selectedLines = .error fault

/-- Every position belongs to the collection that it is used with. -/
structure InRange (excerpt : Excerpt M L) : Prop where
  mark_lt : ∀ position ∈ excerpt.markPositions, position < excerpt.marks.size
  line_lt : ∀ position ∈ excerpt.linePositions, position < excerpt.lines.size

/-- Marks at positions in range can be selected, one for each position. -/
theorem InRange.exists_selectedMarks {excerpt : Excerpt M L} (hInRange : excerpt.InRange) :
    ∃ marks, excerpt.selectedMarks = .ok marks := by
  refine Traversal.exists_mapM_eq_ok fun position hPosition => ?_
  have hMark := Array.getElem?_eq_getElem (hInRange.mark_lt position hPosition)
  exact ⟨_, by simp only [markAt, hMark]; rfl⟩

theorem InRange.exists_selectedLines {excerpt : Excerpt M L} (hInRange : excerpt.InRange) :
    ∃ lines, excerpt.selectedLines = .ok lines := by
  refine Traversal.exists_mapM_eq_ok fun position hPosition => ?_
  have hLine := Array.getElem?_eq_getElem (hInRange.line_lt position hPosition)
  exact ⟨_, by simp only [lineAt, hLine]; rfl⟩

theorem InRange.not_selectionFault {excerpt : Excerpt M L} (hInRange : excerpt.InRange)
    (fault : Fault) : ¬ excerpt.SelectionFault fault := by
  obtain ⟨marks, hMarks⟩ := hInRange.exists_selectedMarks
  obtain ⟨lines, hLines⟩ := hInRange.exists_selectedLines
  simp [SelectionFault, hMarks, hLines]

/-- A drawing that faults has met a position that the selection stops at, too. A missing sprite
before it would have been the answer instead, since the drawing looks at the same positions in
the same order. -/
theorem selectionFault_of_drawing {excerpt : Excerpt Mark Line} {tile : Tile} {atlas : Atlas}
    {fault : Fault} (hDrawing : excerpt.drawing tile atlas = .error (.fault fault)) :
    excerpt.SelectionFault fault := by
  cases ends_of_drawing hDrawing with
  | atMark hSplit hPass hStops =>
      cases hStops with
      | outOfRange hBeyond =>
          refine Or.inl (Traversal.mapM_eq_error_iff.mpr ⟨_, _, _, hSplit, ?_, ?_⟩)
          · intro earlier hEarlier
            obtain ⟨mark, hMark, _⟩ := hPass earlier hEarlier
            exact ⟨_, by simp only [markAt, hMark]; rfl⟩
          · simp only [markAt, Array.getElem?_eq_none hBeyond]
            rfl
  | atLine _ hSplit hPass hBeyond =>
      refine Or.inr (Traversal.mapM_eq_error_iff.mpr ⟨_, _, _, hSplit, ?_, ?_⟩)
      · intro earlier hEarlier
        have hLine := Array.getElem?_eq_getElem (hPass earlier hEarlier)
        exact ⟨_, by simp only [lineAt, hLine]; rfl⟩
      · simp only [lineAt, Array.getElem?_eq_none hBeyond]
        rfl

end Excerpt

namespace Overlay

variable [Pinned M] [Traced L]

/-- Indexed positions are those of items that are held now, whatever was held before. An
excerpt of an indexed overlay is therefore in range. -/
theorem Indexed.inRange {overlay : Overlay M L} (hIndexed : overlay.Indexed) {tile : Tile}
    {excerpt : Excerpt M L} (hExcerpt : excerpt ∈ overlay.excerpts tile) : excerpt.InRange := by
  rw [hIndexed.excerpts_eq, List.mem_map] at hExcerpt
  obtain ⟨group, _, rfl⟩ := hExcerpt
  constructor
  · intro position hPosition
    obtain ⟨mark, hMark, _⟩ := (Pyramid.mem_markPositions _).mp hPosition
    exact (Array.getElem?_eq_some_iff.mp hMark).1
  · intro position hPosition
    obtain ⟨line, hLine, _⟩ := (Pyramid.mem_linePositions _).mp hPosition
    exact (Array.getElem?_eq_some_iff.mp hLine).1

end Overlay

namespace Edit

/-- The positions of a collection that an edit brings fit into 32 bits. -/
def Fits : Edit M L → Prop
  | .clear _ => True
  | .setMarks _ marks => marks.size ≤ PlacementIndex.positionLimit
  | .setLines _ lines => lines.size ≤ PlacementIndex.positionLimit
  | .setShown _ _ => True

instance (edit : Edit M L) : Decidable edit.Fits :=
  match edit with
  | .clear _ => .isTrue trivial
  | .setMarks _ _ => Nat.decLe _ _
  | .setLines _ _ => Nat.decLe _ _
  | .setShown _ _ => .isTrue trivial

variable [Pinned M] [Traced L]

/-- An edit brings a point with an infinite or NaN coordinate. -/
def NonFinite : Edit M L → Prop
  | .clear _ => False
  | .setMarks _ marks => ∃ mark ∈ marks, (Pinned.pivot mark).isFinite = false
  | .setLines _ lines => ∃ line ∈ lines, ∃ vertex ∈ Traced.vertices line, vertex.isFinite = false
  | .setShown _ _ => False

instance (edit : Edit M L) : Decidable edit.NonFinite :=
  match edit with
  | .clear _ => .isFalse id
  | .setMarks _ marks =>
      inferInstanceAs (Decidable (∃ mark ∈ marks, (Pinned.pivot mark).isFinite = false))
  | .setLines _ lines =>
      inferInstanceAs
        (Decidable (∃ line ∈ lines, ∃ vertex ∈ Traced.vertices line, vertex.isFinite = false))
  | .setShown _ _ => .isFalse id

/-- An edit can be carried out if its collection fits and has no point at infinity and no NaN.
Nothing else can be wrong with it. -/
theorem indexable_iff (edit : Edit M L) : edit.Indexable ↔ edit.Fits ∧ ¬ edit.NonFinite := by
  cases edit <;> simp [Indexable, Fits, NonFinite, MarksIndexable, LinesIndexable]

end Edit

/-- The change that a request asks for. Drawing asks for none. -/
def Request.edit? : Request M L Resources → Option (Edit M L)
  | .setMarks group marks => some (.setMarks group marks)
  | .setLines group lines => some (.setLines group lines)
  | .setShown group shown => some (.setShown group shown)
  | .clear group => some (.clear group)
  | .apply edit => some edit
  | .draw _ _ => none

/-- The edit that a request asks for, if any, brings a collection that fits. -/
def Request.Fits (request : Request M L Resources) : Prop :=
  ∀ edit ∈ request.edit?, edit.Fits

instance (request : Request M L Resources) : Decidable request.Fits :=
  inferInstanceAs (Decidable (∀ edit ∈ request.edit?, edit.Fits))

variable [Pinned M] [Traced L]

/-- The edit that a request asks for brings a non-finite coordinate. -/
def Request.NonFinite (request : Request M L Resources) : Prop :=
  ∃ edit ∈ request.edit?, edit.NonFinite

instance (request : Request M L Resources) : Decidable request.NonFinite :=
  inferInstanceAs (Decidable (∃ edit ∈ request.edit?, edit.NonFinite))

/-- Requests are all finite, or they split at the first one that brings a non-finite
coordinate. -/
theorem Request.exists_first_nonFinite (requests : List (Request M L Resources)) :
    (∀ request ∈ requests, ¬ request.NonFinite) ∨
      ∃ before request after, requests = before ++ request :: after ∧
        (∀ earlier ∈ before, ¬ earlier.NonFinite) ∧ request.NonFinite := by
  induction requests with
  | nil => exact Or.inl (List.forall_mem_nil _)
  | cons first rest ih =>
      by_cases hFirst : first.NonFinite
      · exact Or.inr ⟨[], first, rest, rfl, List.forall_mem_nil _, hFirst⟩
      · rcases ih with hFinite | ⟨before, request, after, rfl, hBefore, hNonFinite⟩
        · exact Or.inl (List.forall_mem_cons.mpr ⟨hFirst, hFinite⟩)
        · exact Or.inr ⟨first :: before, request, after, rfl,
            List.forall_mem_cons.mpr ⟨hFirst, hBefore⟩, hNonFinite⟩

/-- An edit that fits is refused for its coordinates or not at all. What the overlay holds has
no part in that. -/
theorem Overlay.apply_of_nonFinite (overlay : Overlay M L) {edit : Edit M L} (hFits : edit.Fits)
    (hNonFinite : edit.NonFinite) : overlay.apply edit = .error .nonFiniteCoordinate := by
  have hRefused : ¬ ∃ next, overlay.apply edit = .ok next := by
    rw [overlay.exists_apply_iff, Edit.indexable_iff]
    exact fun hIndexable => hIndexable.2 hNonFinite
  cases hApply : overlay.apply edit with
  | ok next => exact absurd ⟨next, hApply⟩ hRefused
  | error fault =>
      congr
      cases edit with
      | clear group => exact hNonFinite.elim
      | setShown group shown => exact hNonFinite.elim
      | setMarks group marks =>
          exact PlacementIndex.fault_of_replace overlay.pyramid.tilesAt_places hFits
            (Traversal.bind_pure_eq_error_iff.mp hApply)
      | setLines group lines =>
          exact PlacementIndex.fault_of_replace overlay.pyramid.tilesAlong_places hFits
            (Traversal.bind_pure_eq_error_iff.mp hApply)

namespace Renderer

variable (renderer : Renderer M L Resources Payload Failure Builder Sink)

omit [Pinned M] [Traced L] in
/-- The builder commits no misuse of its own. Where it faults, so does a selection from the
excerpt that it was handed. -/
def FaultsBySelection : Prop :=
  ∀ resources tile excerpt builder failure fault,
    (renderer.build resources tile excerpt builder).1 = .error failure →
    renderer.fault? failure = some fault → excerpt.SelectionFault fault

/-- The painter faults only for a position that is out of range. A missing sprite is an answer to
the drawing and no fault. -/
theorem painter_faultsBySelection : painter.FaultsBySelection := by
  intro atlas tile excerpt builder failure fault hBuild hFault
  cases failure with
  | missingSymbol group symbol => cases hFault
  | fault reason =>
      obtain rfl : reason = fault := Option.some.inj hFault
      exact Excerpt.selectionFault_of_drawing hBuild

/-- A request for a change is answered by the change alone, and the renderer is not asked. -/
theorem answer_of_edit (overlay : Overlay M L)
    (stage : Stage M L Resources Payload Failure Builder Sink)
    {request : Request M L Resources} {edit : Edit M L} (hEdit : request.edit? = some edit) :
    renderer.answer overlay stage request = (overlay.apply edit, stage) := by
  cases request <;> cases hEdit <;> rfl

variable {renderer}

/-- A drawing of an indexed overlay is answered, even where building a payload fails. Its
excerpts are in range, so the failure cannot be a fault. -/
theorem FaultsBySelection.answer_draw (hSelection : renderer.FaultsBySelection)
    {overlay : Overlay M L} (hIndexed : overlay.Indexed) (resources : Resources) (tile : Tile)
    (stage : Stage M L Resources Payload Failure Builder Sink) :
    ∃ later, renderer.answer overlay stage (.draw resources tile) = (.ok overlay, later) := by
  rw [answer]
  rcases hDrawn : renderer.drawOn overlay resources tile stage with ⟨drawn, later⟩
  cases drawn with
  | ok _ => exact ⟨_, rfl⟩
  | error failure =>
      cases hFault : renderer.fault? failure with
      | none => exact ⟨_, by simp only [hFault]; rfl⟩
      | some fault =>
          obtain ⟨excerpt, hExcerpt, builder, hFails⟩ := renderer.exists_failing_excerpt hDrawn
          exact absurd (hSelection _ _ _ _ _ _ hFails hFault)
            ((hIndexed.inRange hExcerpt).not_selectionFault fault)

/-- A request with finite coordinates is answered, and the overlay stays indexed. This is the
step that a session repeats. -/
theorem FaultsBySelection.answer_of_finite (hSelection : renderer.FaultsBySelection)
    {overlay : Overlay M L} (hIndexed : overlay.Indexed)
    (stage : Stage M L Resources Payload Failure Builder Sink)
    {request : Request M L Resources} (hFits : request.Fits) (hFinite : ¬ request.NonFinite) :
    ∃ next later, renderer.answer overlay stage request = (.ok next, later) ∧ next.Indexed := by
  cases hEdit : request.edit? with
  | none =>
      cases request with
      | draw resources tile =>
          obtain ⟨later, hAnswer⟩ := hSelection.answer_draw hIndexed resources tile stage
          exact ⟨overlay, later, hAnswer, hIndexed⟩
      | _ => cases hEdit
  | some edit =>
      have hIndexable : edit.Indexable := edit.indexable_iff.mpr
        ⟨hFits edit hEdit, fun hNonFinite => hFinite ⟨edit, hEdit, hNonFinite⟩⟩
      obtain ⟨next, hNext⟩ := (overlay.exists_apply_iff edit).mpr hIndexable
      refine ⟨next, stage, ?_, hIndexed.apply hNext⟩
      rw [renderer.answer_of_edit overlay stage hEdit, hNext]

variable (renderer) in
/-- A coordinate that no tile has ends the session before anything changes, on the stage and in
the overlay. -/
theorem answer_of_nonFinite (overlay : Overlay M L)
    (stage : Stage M L Resources Payload Failure Builder Sink)
    {request : Request M L Resources} (hFits : request.Fits) (hNonFinite : request.NonFinite) :
    renderer.answer overlay stage request = (.error .nonFiniteCoordinate, stage) := by
  obtain ⟨edit, hEdit, hNonFinite⟩ := hNonFinite
  rw [renderer.answer_of_edit overlay stage hEdit,
    overlay.apply_of_nonFinite (hFits edit hEdit) hNonFinite]

/-- As long as all coordinates are finite, a session goes on, by induction on its requests. -/
theorem FaultsBySelection.run_of_finite (hSelection : renderer.FaultsBySelection)
    {overlay : Overlay M L} (hIndexed : overlay.Indexed)
    (stage : Stage M L Resources Payload Failure Builder Sink)
    {requests : List (Request M L Resources)} (hFits : ∀ request ∈ requests, request.Fits)
    (hFinite : ∀ request ∈ requests, ¬ request.NonFinite) :
    (renderer.run overlay stage requests).fault = none ∧
      (renderer.run overlay stage requests).state.Indexed := by
  induction requests generalizing overlay stage with
  | nil => exact ⟨rfl, hIndexed⟩
  | cons request rest ih =>
      obtain ⟨next, later, hAnswer, hNext⟩ := hSelection.answer_of_finite hIndexed stage
        (hFits request List.mem_cons_self) (hFinite request List.mem_cons_self)
      rw [run, hAnswer]
      exact ih hNext later (fun other hOther => hFits other (List.mem_cons_of_mem _ hOther))
        fun other hOther => hFinite other (List.mem_cons_of_mem _ hOther)

/-- The first request with a coordinate that no tile has is where a session ends. It leaves
what the requests before it have done. -/
theorem FaultsBySelection.run_of_first_nonFinite (hSelection : renderer.FaultsBySelection)
    {overlay : Overlay M L} (hIndexed : overlay.Indexed)
    (stage : Stage M L Resources Payload Failure Builder Sink)
    {before after : List (Request M L Resources)} {request : Request M L Resources}
    (hFits : ∀ other ∈ before ++ request :: after, other.Fits)
    (hFinite : ∀ earlier ∈ before, ¬ earlier.NonFinite) (hNonFinite : request.NonFinite) :
    renderer.run overlay stage (before ++ request :: after) =
      { renderer.run overlay stage before with fault := some .nonFiniteCoordinate } := by
  induction before generalizing overlay stage with
  | nil =>
      have hAnswer := renderer.answer_of_nonFinite overlay stage
        (hFits request (by simp)) hNonFinite
      simp only [List.nil_append, run, hAnswer]
  | cons first rest ih =>
      obtain ⟨next, later, hAnswer, hNext⟩ := hSelection.answer_of_finite hIndexed stage
        (hFits first (by simp)) (hFinite first List.mem_cons_self)
      rw [List.cons_append, run, run, hAnswer]
      exact ih hNext later (fun other hOther => hFits other (List.mem_cons_of_mem _ hOther))
        fun other hOther => hFinite other (List.mem_cons_of_mem _ hOther)

/-- The painter, and every renderer whose builder faults only where selecting from the
excerpt does, hold sessions that fault exactly for non-finite coordinates. The session ends
at the first request that brings one, with what was done before it, and that is its only
fault. In particular no tile of the overlay that a session leaves, whatever collections
were replaced or cleared and whatever drawings failed on the way, has a position that is
out of range. -/
theorem session_faults_at_first_nonFinite :
    painter.FaultsBySelection ∧
    ∀ {M L Resources Payload Failure Builder Sink : Type} [Pinned M] [Traced L]
      (renderer : Renderer M L Resources Payload Failure Builder Sink),
      renderer.FaultsBySelection →
      ∀ (pyramid : Pyramid) (stage : Stage M L Resources Payload Failure Builder Sink)
        (requests : List (Request M L Resources)), (∀ request ∈ requests, request.Fits) →
        let outcome := renderer.run (Overlay.empty pyramid : Overlay M L) stage requests
        (outcome.fault = none ↔ ∀ request ∈ requests, ¬ request.NonFinite) ∧
        (∀ before request after, requests = before ++ request :: after →
          (∀ earlier ∈ before, ¬ earlier.NonFinite) → request.NonFinite →
          let prior := renderer.run (Overlay.empty pyramid : Overlay M L) stage before
          prior.fault = none ∧ outcome = { prior with fault := some .nonFiniteCoordinate }) ∧
        (∀ fault, outcome.fault = some fault →
          fault.message = "tile coordinates must be finite") ∧
        ∀ tile, ∀ excerpt ∈ outcome.state.excerpts tile,
          (∃ marks, excerpt.selectedMarks = .ok marks) ∧
            ∃ lines, excerpt.selectedLines = .ok lines := by
  refine ⟨painter_faultsBySelection, ?_⟩
  intro M L Resources Payload Failure Builder Sink _ _ renderer hSelection pyramid stage requests
    hFits outcome
  have hStart : (Overlay.empty pyramid : Overlay M L).Indexed := Overlay.indexed_empty pyramid
  have hSplit : ∀ before request after, requests = before ++ request :: after →
      (∀ earlier ∈ before, ¬ earlier.NonFinite) → request.NonFinite →
      let prior := renderer.run (Overlay.empty pyramid : Overlay M L) stage before
      prior.fault = none ∧ prior.state.Indexed ∧
        outcome = { prior with fault := some .nonFiniteCoordinate } := by
    rintro before request after rfl hFinite hNonFinite
    obtain ⟨hPrior, hIndexed⟩ := hSelection.run_of_finite hStart stage
      (fun other hOther => hFits other (List.mem_append_left _ hOther)) hFinite
    exact ⟨hPrior, hIndexed,
      hSelection.run_of_first_nonFinite hStart stage hFits hFinite hNonFinite⟩
  have hEnd : (outcome.fault = none ↔ ∀ request ∈ requests, ¬ request.NonFinite) ∧
      (∀ fault, outcome.fault = some fault → fault = .nonFiniteCoordinate) ∧
      outcome.state.Indexed := by
    rcases Request.exists_first_nonFinite requests with
      hFinite | ⟨before, request, after, hRequests, hBefore, hNonFinite⟩
    · obtain ⟨hNone, hIndexed⟩ := hSelection.run_of_finite hStart stage hFits hFinite
      refine ⟨iff_of_true hNone hFinite, ?_, hIndexed⟩
      intro fault hFault
      exact absurd (hNone.symm.trans hFault) nofun
    · obtain ⟨_, hIndexed, hOutcome⟩ := hSplit before request after hRequests hBefore hNonFinite
      rw [hOutcome]
      refine ⟨iff_of_false nofun ?_, ?_, hIndexed⟩
      · intro hFinite
        exact hFinite request (by rw [hRequests]; simp) hNonFinite
      · intro fault hFault
        exact (Option.some.inj hFault).symm
  obtain ⟨hNone, hFault, hIndexed⟩ := hEnd
  refine ⟨hNone, ?_, ?_, ?_⟩
  · intro before request after hRequests hBefore hNonFinite
    obtain ⟨hPrior, _, hOutcome⟩ := hSplit before request after hRequests hBefore hNonFinite
    exact ⟨hPrior, hOutcome⟩
  · intro fault hEnded
    rw [hFault fault hEnded]
    rfl
  · intro tile excerpt hExcerpt
    have hInRange := hIndexed.inRange hExcerpt
    exact ⟨hInRange.exists_selectedMarks, hInRange.exists_selectedLines⟩

/-- Two drawings fail for want of a sprite, one of them after the marks were replaced by
fewer, and the third finds nothing left. -/
def failingRequests : List (Request Mark Line Atlas) :=
  [.setMarks ⟨1⟩ #[{ pivot := ⟨10, 10⟩, symbol := "pin" }, { pivot := ⟨20, 20⟩, symbol := "pin" }],
    .setShown ⟨1⟩ true, .draw ∅ ⟨Zoom.coarsest, 0, 0⟩,
    .setMarks ⟨1⟩ #[{ pivot := ⟨30, 30⟩, symbol := "pin" }], .draw ∅ ⟨Zoom.coarsest, 0, 0⟩,
    .clear ⟨1⟩, .setShown ⟨1⟩ true, .draw ∅ ⟨Zoom.coarsest, 0, 0⟩]

/-- A line that runs to nowhere. -/
def strayRequest : Request Mark Line Atlas :=
  .apply (.setLines ⟨2⟩ #[{ points := [⟨0, 0⟩, ⟨0, 1 / 0⟩], strokes := [] }])

/-- The failed drawings are answered and do not end the session. The stray line does, and the
requests behind it are never looked at. -/
theorem session_strayRequest :
    let prior := painter.run (Overlay.empty {} : Overlay Mark Line) ⟨(), [], []⟩ failingRequests
    let outcome := painter.run (Overlay.empty {} : Overlay Mark Line) ⟨(), [], []⟩
      (failingRequests ++ strayRequest :: failingRequests)
    (∀ request ∈ failingRequests, request.Fits ∧ ¬ request.NonFinite) ∧
    strayRequest.Fits ∧ strayRequest.NonFinite ∧
    prior.fault = none ∧ outcome = { prior with fault := some .nonFiniteCoordinate } ∧
    prior.stage.answers =
      [.error (.missingSymbol ⟨1⟩ "pin"), .error (.missingSymbol ⟨1⟩ "pin"), .ok ()] := by
  intro prior outcome
  have hFailing : ∀ request ∈ failingRequests, request.Fits ∧ ¬ request.NonFinite := by
    decide +kernel
  have hStray : strayRequest.Fits := by decide +kernel
  have hNonFinite : strayRequest.NonFinite := by decide +kernel
  obtain ⟨hPainter, hSession⟩ := session_faults_at_first_nonFinite
  have hFits : ∀ request ∈ failingRequests ++ strayRequest :: failingRequests, request.Fits := by
    intro request hRequest
    rcases List.mem_append.mp hRequest with hRequest | hRequest
    · exact (hFailing request hRequest).1
    · rcases List.mem_cons.mp hRequest with rfl | hRequest
      · exact hStray
      · exact (hFailing request hRequest).1
  obtain ⟨_, hFirst, _⟩ := hSession painter hPainter {} ⟨(), [], []⟩ _ hFits
  obtain ⟨hPrior, hOutcome⟩ := hFirst failingRequests strayRequest failingRequests rfl
    (fun earlier hEarlier => (hFailing earlier hEarlier).2) hNonFinite
  exact ⟨hFailing, hStray, hNonFinite, hPrior, hOutcome, by decide +kernel⟩

end Renderer

end MapOverlay
