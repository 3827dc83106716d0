import MapOverlay.Proofs.Drawing.Picture
import MapOverlay.Proofs.Overlay.Walk

/-! The renderer that draws with an atlas. Where everything it meets can be drawn, a
session of drawings fails nowhere and delivers one picture for each excerpt. -/
namespace MapOverlay

/-- The results of the drawings so far. -/
def Stage.answers {M L Resources Payload Failure Builder Sink : Type}
    (stage : Stage M L Resources Payload Failure Builder Sink) : List (Except Failure Unit) :=
  stage.events.filterMap fun
    | .answered result => some result
    | .built _ _ _ => none
    | .delivered _ _ => none

theorem Stage.answers_answered {M L Resources Payload Failure Builder Sink : Type}
    (stage : Stage M L Resources Payload Failure Builder Sink) (result : Except Failure Unit) :
    (stage.record (.answered result)).answers = stage.answers ++ [result] := by
  simp [answers, record]

namespace Renderer

/-- Draws with an atlas and keeps the drawings in the order in which they are delivered. -/
def painter : Renderer Mark Line Atlas Drawing DrawError Unit (List (Group × Drawing)) where
  build atlas tile excerpt builder := (excerpt.drawing tile atlas, builder)
  fault? failure :=
    match failure with
    | .fault reason => some reason
    | .missingSymbol _ _ => none
  deliver group drawing delivered := delivered ++ [(group, drawing)]

/-- What the painter delivers for an excerpt that can be drawn. -/
def delivery (atlas : Atlas) (tile : Tile) (excerpt : Excerpt Mark Line) : Group × Drawing :=
  (excerpt.group, excerpt.picture tile atlas)

/-- What the painter works on: nothing to keep in mind, and the drawings delivered so far. -/
abbrev Canvas := Stage Mark Line Atlas Drawing DrawError Unit (List (Group × Drawing))

/-- An excerpt that can be drawn is delivered as its picture, with the two events of a call. -/
theorem paint_excerpt {atlas : Atlas} {excerpt : Excerpt Mark Line}
    (hDrawable : excerpt.Drawable atlas) (tile : Tile) (canvas : Canvas) :
    (painter.drawExcerpt atlas tile excerpt).run.run canvas =
      (.ok (), { canvas with
        sink := canvas.sink ++ [delivery atlas tile excerpt]
        events := canvas.events ++ [.built atlas tile excerpt,
          .delivered excerpt.group (excerpt.picture tile atlas)] }) := by
  have hBuild : painter.build atlas tile excerpt canvas.builder =
      (.ok (excerpt.picture tile atlas), canvas.builder) := by
    rw [← hDrawable.drawing_eq tile]
    rfl
  exact painter.drawExcerpt_of_ok hBuild

/-- Excerpts that can be drawn are delivered one by one, and nothing else happens, by induction
on the excerpts. -/
theorem paint_excerpts {atlas : Atlas} {tile : Tile} {excerpts : List (Excerpt Mark Line)}
    (hDrawable : ∀ excerpt ∈ excerpts, excerpt.Drawable atlas) (canvas : Canvas) :
    (excerpts.forM (painter.drawExcerpt atlas tile)).run.run canvas =
      (.ok (), { canvas with
        sink := canvas.sink ++ excerpts.map (delivery atlas tile)
        events := canvas.events ++ excerpts.flatMap fun excerpt =>
          [.built atlas tile excerpt,
            .delivered excerpt.group (excerpt.picture tile atlas)] }) := by
  induction excerpts generalizing canvas with
  | nil =>
      rw [List.map_nil, List.flatMap_nil, List.append_nil, List.append_nil]
      rfl
  | cons excerpt rest ih =>
      have hExcerpt := hDrawable excerpt List.mem_cons_self
      have hRest := ih fun other hOther => hDrawable other (List.mem_cons_of_mem _ hOther)
      simp only [List.forM_eq_forM, List.forM_cons] at hRest ⊢
      rw [Traversal.run_bind, paint_excerpt hExcerpt]
      simp only [hRest, List.map_cons, List.flatMap_cons, List.append_assoc, List.singleton_append]

/-- A tile whose excerpts can all be drawn is answered with success, and the overlay is
kept. -/
theorem answer_draw {overlay : Overlay Mark Line} {atlas : Atlas} {tile : Tile}
    (hDrawable : ∀ excerpt ∈ overlay.excerpts tile, excerpt.Drawable atlas) (canvas : Canvas) :
    ∃ later, painter.answer overlay canvas (.draw atlas tile) = (.ok overlay, later) ∧
      later.sink = canvas.sink ++ (overlay.excerpts tile).map (delivery atlas tile) ∧
      later.answers = canvas.answers ++ [.ok ()] := by
  have hPainted : painter.drawOn overlay atlas tile canvas = _ := paint_excerpts hDrawable canvas
  simp only [answer, hPainted]
  refine ⟨_, rfl, rfl, ?_⟩
  rw [Stage.answers_answered]
  simp [Stage.answers, List.filterMap_flatMap]

/-- A session that draws tiles which can all be drawn delivers their pictures in turn, by
induction on the tiles, and every answer is a success. -/
theorem paint_tiles {overlay : Overlay Mark Line} {atlas : Atlas} {tiles : List Tile}
    (hDrawable : ∀ tile ∈ tiles, ∀ excerpt ∈ overlay.excerpts tile, excerpt.Drawable atlas)
    (canvas : Canvas) :
    let outcome := painter.run overlay canvas (tiles.map (.draw atlas))
    outcome.fault = none ∧ outcome.state = overlay ∧
      outcome.stage.sink =
        canvas.sink ++
          tiles.flatMap (fun tile => (overlay.excerpts tile).map (delivery atlas tile)) ∧
      outcome.stage.answers = canvas.answers ++ tiles.map fun _ => .ok () := by
  induction tiles generalizing canvas with
  | nil => simp [run]
  | cons tile rest ih =>
      obtain ⟨later, hAnswer, hSink, hAnswers⟩ :=
        answer_draw (hDrawable tile List.mem_cons_self) canvas
      have hRest := ih (fun other hOther => hDrawable other (List.mem_cons_of_mem _ hOther)) later
      simp only [List.map_cons, run, hAnswer]
      rw [List.flatMap_cons, ← List.append_assoc, ← hSink, List.append_cons, ← hAnswers]
      exact hRest

end Renderer

end MapOverlay
