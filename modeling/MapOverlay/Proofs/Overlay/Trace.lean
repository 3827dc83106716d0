import MapOverlay.Proofs.Overlay.Refinement
import MapOverlay.Proofs.Overlay.Walk

/-! The order of a drawing. Calls of the builder and deliveries alternate, by ascending
group, up to the first call that fails, and its failure is the answer. A drawing changes its
renderer and nothing else, so the next drawing of the tile begins with the first group again,
whether or not this one came to its end. -/
namespace MapOverlay

variable {M L Resources Payload Failure Builder Sink : Type}

namespace Overlay

/-- The shown groups that have something in a tile, in the order of the index. -/
def groupsShownIn (overlay : Overlay M L) (tile : Tile) : List Group :=
  ((overlay.index.groupsIn tile).map Prod.fst).filter overlay.isShown

/-- The collections of a group with the positions that the index has for a tile. -/
def excerptOf (overlay : Overlay M L) (tile : Tile) (group : Group) : Excerpt M L where
  group
  marks := overlay.marks group
  markPositions := (overlay.index.share tile group).marks
  lines := overlay.lines group
  linePositions := (overlay.index.share tile group).lines

/-- The groups of a tile come in ascending order, as the index keeps them so and leaving out
hidden groups does not move the others. -/
theorem groupsShownIn_ascending (overlay : Overlay M L) (tile : Tile) :
    (overlay.groupsShownIn tile).Pairwise fun left right => compare left right = .lt := by
  apply List.Pairwise.filter
  rw [List.pairwise_map]
  exact SparseTable.toList_ordered _

/-- What a tile shows are the excerpts of its groups, group by group and in their order. -/
theorem excerpts_eq_map_excerptOf (overlay : Overlay M L) (tile : Tile) :
    overlay.excerpts tile = (overlay.groupsShownIn tile).map (overlay.excerptOf tile) := by
  rw [excerpts_eq, ← shownGroupsIn_eq, groupsShownIn, List.filter_map]
  rfl

end Overlay

/-- What is seen of excerpts that were built and delivered one after the other. -/
def Event.served (resources : Resources) (tile : Tile) (steps : List (Excerpt M L × Payload)) :
    List (Event M L Resources Payload Failure) :=
  steps.flatMap fun step => [.built resources tile step.1, .delivered step.1.group step.2]

namespace Renderer

variable (renderer : Renderer M L Resources Payload Failure Builder Sink)

/-- Calls that succeed, each in the state in which the one before it left the builder. -/
inductive Builds (resources : Resources) (tile : Tile) :
    Builder → List (Excerpt M L × Payload) → Builder → Prop
  | nil (builder : Builder) : Builds resources tile builder [] builder
  | cons {builder next final : Builder} {excerpt : Excerpt M L} {payload : Payload}
      {steps : List (Excerpt M L × Payload)}
      (first : renderer.build resources tile excerpt builder = (.ok payload, next))
      (later : Builds resources tile next steps final) :
      Builds resources tile builder ((excerpt, payload) :: steps) final

/-- The sink after it has taken some payloads in turn. -/
def deliverAll (steps : List (Excerpt M L × Payload)) (sink : Sink) : Sink :=
  steps.foldl (fun sink step => renderer.deliver step.1.group step.2 sink) sink

/-- The stage after some excerpts were built and delivered in turn. -/
def serve (resources : Resources) (tile : Tile) (steps : List (Excerpt M L × Payload))
    (builder : Builder) (stage : Stage M L Resources Payload Failure Builder Sink) :
    Stage M L Resources Payload Failure Builder Sink where
  builder
  sink := renderer.deliverAll steps stage.sink
  events := stage.events ++ Event.served resources tile steps

/-- How a drawing of some excerpts goes. Either every call succeeds, or a call fails after
some that did not. Then the failed call is the last event, there is nothing of the excerpts
behind it, and its failure is the answer. -/
inductive Walks (resources : Resources) (tile : Tile) (excerpts : List (Excerpt M L))
    (stage : Stage M L Resources Payload Failure Builder Sink) :
    Except Failure Unit → Stage M L Resources Payload Failure Builder Sink → Prop
  | completed {steps : List (Excerpt M L × Payload)} {builder : Builder}
      (excerpts_eq : excerpts = steps.map Prod.fst)
      (builds : renderer.Builds resources tile stage.builder steps builder) :
      Walks resources tile excerpts stage (.ok ())
        (renderer.serve resources tile steps builder stage)
  | stopped {steps : List (Excerpt M L × Payload)} {builder final : Builder}
      {excerpt : Excerpt M L} {rest : List (Excerpt M L)} {failure : Failure}
      (excerpts_eq : excerpts = steps.map Prod.fst ++ excerpt :: rest)
      (builds : renderer.Builds resources tile stage.builder steps builder)
      (fails : renderer.build resources tile excerpt builder = (.error failure, final)) :
      Walks resources tile excerpts stage (.error failure)
        ((renderer.serve resources tile steps final stage).record (.built resources tile excerpt))

variable {renderer} {resources : Resources} {tile : Tile} {excerpts : List (Excerpt M L)}
  {stage later : Stage M L Resources Payload Failure Builder Sink} {result : Except Failure Unit}

/-- Excerpts whose calls succeed are served, and the drawing goes on behind them with the
builder and the sink that they leave. -/
theorem Builds.forM_append {steps : List (Excerpt M L × Payload)} {final : Builder}
    (hBuilds : renderer.Builds resources tile stage.builder steps final)
    (rest : List (Excerpt M L)) :
    ((steps.map Prod.fst ++ rest).forM (renderer.drawExcerpt resources tile)).run.run stage =
      (rest.forM (renderer.drawExcerpt resources tile)).run.run
        (renderer.serve resources tile steps final stage) := by
  generalize hBuilder : stage.builder = builder at hBuilds
  induction hBuilds generalizing stage with
  | nil builder =>
      subst hBuilder
      simp [serve, deliverAll, Event.served]
  | cons first _ ih =>
      subst hBuilder
      rw [List.map_cons, List.cons_append, List.forM_eq_forM, List.forM_cons, Traversal.run_bind,
        renderer.drawExcerpt_of_ok first]
      refine (ih rfl).trans ?_
      simp [serve, deliverAll, Event.served]

/-- A drawing that can go a certain way does go that way. Calls that succeed are served, and
what follows them depends only on the state that they leave. -/
theorem Walks.forM_eq (hWalks : renderer.Walks resources tile excerpts stage result later) :
    (excerpts.forM (renderer.drawExcerpt resources tile)).run.run stage = (result, later) := by
  cases hWalks with
  | completed hExcerpts hBuilds =>
      rw [hExcerpts, ← List.append_nil (List.map _ _), hBuilds.forM_append]
      rfl
  | stopped hExcerpts hBuilds hFails =>
      rw [hExcerpts, hBuilds.forM_append, List.forM_eq_forM, List.forM_cons, Traversal.run_bind,
        renderer.drawExcerpt_of_error hFails]
      rfl

variable (renderer resources tile) in
/-- One call decides whether the drawing goes on, and the rest goes one of the two ways. So
every drawing goes some way. -/
theorem exists_walks (excerpts : List (Excerpt M L))
    (stage : Stage M L Resources Payload Failure Builder Sink) :
    ∃ result later, renderer.Walks resources tile excerpts stage result later := by
  induction excerpts generalizing stage with
  | nil => exact ⟨_, _, .completed rfl (.nil stage.builder)⟩
  | cons excerpt rest ih =>
      rcases hBuild : renderer.build resources tile excerpt stage.builder with ⟨built, builder⟩
      cases built with
      | error failure =>
          have hNoStep : excerpt :: rest =
              ([] : List (Excerpt M L × Payload)).map Prod.fst ++ excerpt :: rest := rfl
          exact ⟨_, _, .stopped hNoStep (.nil stage.builder) hBuild⟩
      | ok payload =>
          obtain ⟨result, later, hRest⟩ := ih { stage with builder }
          cases hRest with
          | completed hExcerpts hBuilds =>
              exact ⟨_, _, .completed (by rw [hExcerpts, List.map_cons]) (.cons hBuild hBuilds)⟩
          | stopped hExcerpts hBuilds hFails =>
              exact ⟨_, _, .stopped (by rw [hExcerpts, List.map_cons, List.cons_append])
                (.cons hBuild hBuilds) hFails⟩

/-- A drawing goes exactly one way. Some way exists for it, and the way determines both the
result and the states that the renderer is left in. -/
theorem forM_eq_iff_walks :
    (excerpts.forM (renderer.drawExcerpt resources tile)).run.run stage = (result, later) ↔
      renderer.Walks resources tile excerpts stage result later := by
  refine ⟨fun hDrawn => ?_, Walks.forM_eq⟩
  obtain ⟨found, reached, hWalks⟩ := renderer.exists_walks resources tile excerpts stage
  obtain ⟨rfl, rfl⟩ := Prod.mk.inj (hDrawn.symm.trans hWalks.forM_eq)
  exact hWalks

variable [Pinned M] [Traced L]

variable (renderer) in
/-- A drawing is answered with its result, and the overlay is kept with either result. The
answer is the last event of the drawing. -/
theorem answer_draw_eq (hAnswers : ∀ failure, renderer.fault? failure = none)
    {overlay : Overlay M L}
    (hDrawn : renderer.drawOn overlay resources tile stage = (result, later)) :
    renderer.answer overlay stage (.draw resources tile) =
      (.ok overlay, later.record (.answered result)) := by
  cases result with
  | ok _ => simp only [answer, hDrawn]
  | error failure => simp only [answer, hDrawn, hAnswers failure]

variable (renderer) in
/-- A session of drawings, failed ones among them, goes on to its end and keeps the overlay, by
induction on the drawings. -/
theorem run_draws (hAnswers : ∀ failure, renderer.fault? failure = none) (overlay : Overlay M L)
    (drawings : List (Resources × Tile))
    (stage : Stage M L Resources Payload Failure Builder Sink) :
    let outcome := renderer.run overlay stage (drawings.map fun drawing =>
      .draw drawing.1 drawing.2)
    outcome.fault = none ∧ outcome.state = overlay := by
  induction drawings generalizing stage with
  | nil => exact ⟨rfl, rfl⟩
  | cons drawing rest ih =>
      rcases hDrawn : renderer.drawOn overlay drawing.1 drawing.2 stage with ⟨result, later⟩
      simp only [List.map_cons, run, renderer.answer_draw_eq hAnswers hDrawn]
      exact ih _

/-- After any number of drawings of any tiles, whether they failed or not, the overlay is the
one that they began with, and a further drawing goes through the shown groups of its tile by
ascending group, each with its collections and positions. It calls the builder for one group
and delivers its payload before it calls the builder for the next, and stops at the first call
that fails. Its answer is the failure of that call, or success if there is none. -/
theorem draw_walks_groups (hAnswers : ∀ failure, renderer.fault? failure = none)
    (overlay : Overlay M L) (stage : Stage M L Resources Payload Failure Builder Sink)
    (earlier : List (Resources × Tile)) (resources : Resources) (tile : Tile) :
    let prior := renderer.run overlay stage (earlier.map fun drawing => .draw drawing.1 drawing.2)
    prior.fault = none ∧ prior.state = overlay ∧
    (overlay.groupsShownIn tile).Pairwise (fun left right => compare left right = .lt) ∧
    (∀ result later, renderer.drawOn prior.state resources tile prior.stage = (result, later) ↔
      renderer.Walks resources tile ((overlay.groupsShownIn tile).map (overlay.excerptOf tile))
        prior.stage result later) ∧
    ∃ result later, renderer.drawOn prior.state resources tile prior.stage = (result, later) ∧
      renderer.answer prior.state prior.stage (.draw resources tile) =
        (.ok overlay, later.record (.answered result)) := by
  intro prior
  obtain ⟨hFault, hState⟩ := renderer.run_draws hAnswers overlay earlier stage
  refine ⟨hFault, hState, overlay.groupsShownIn_ascending tile, ?_, ?_⟩
  · intro result later
    rw [hState, drawOn_eq, overlay.excerpts_eq_map_excerptOf]
    exact forM_eq_iff_walks
  · rcases hDrawn : renderer.drawOn prior.state resources tile prior.stage with ⟨result, later⟩
    exact ⟨result, later, rfl, hState ▸ renderer.answer_draw_eq hAnswers hDrawn⟩

/-- Three shown groups share a tile. -/
def crowded : Overlay Point (List Point) :=
  (refusingSecond.run (Overlay.empty ⟨Zoom.coarsest⟩ : Overlay Point (List Point)) ⟨0, [], []⟩
    [.setMarks ⟨1⟩ #[⟨10, 10⟩], .setShown ⟨1⟩ true, .setMarks ⟨2⟩ #[⟨10, 10⟩], .setShown ⟨2⟩ true,
      .setLines ⟨3⟩ #[[⟨10, 10⟩]], .setShown ⟨3⟩ true]).state

/-- The second group is refused twice, and the first one is served again before that. -/
theorem draw_walks_crowded :
    (∀ failure, refusingSecond.fault? failure = none) ∧
    let tile : Tile := ⟨Zoom.coarsest, 0, 0⟩
    let prior := refusingSecond.run crowded ⟨0, [], []⟩ [.draw () tile]
    prior.state = crowded ∧ prior.stage.sink = [(⟨1⟩, 0)] ∧
      crowded.groupsShownIn tile = [⟨1⟩, ⟨2⟩, ⟨3⟩] ∧
      ∃ later, refusingSecond.Walks () tile
          ((crowded.groupsShownIn tile).map (crowded.excerptOf tile)) prior.stage
          (.error ⟨2⟩) later ∧
        later.sink = [(⟨1⟩, 0), (⟨1⟩, 2)] := by
  have hAnswers : ∀ failure, refusingSecond.fault? failure = none := fun _ => rfl
  obtain ⟨_, hState, _, hWalks, _⟩ := draw_walks_groups hAnswers crowded ⟨0, [], []⟩
    [((), ⟨Zoom.coarsest, 0, 0⟩)] () ⟨Zoom.coarsest, 0, 0⟩
  refine ⟨hAnswers, hState, by decide +kernel, by decide +kernel, _,
    (hWalks (.error ⟨2⟩) _).mp (Prod.ext ?_ rfl), ?_⟩
  · decide +kernel
  · decide +kernel

end Renderer

end MapOverlay
