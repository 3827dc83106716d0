import MapOverlay.Proofs.Overlay.Session

/-! One drawing, seen from its renderer. The excerpts of a tile are built one after the
other, each payload is delivered before the next is built, and the first failure of the
builder is the failure of the drawing. A builder that never fails is handed them all. -/
namespace MapOverlay

variable {M L Resources Payload Failure Builder Sink : Type}

/-- The excerpts that the builder was handed so far, in the order of the calls. -/
def Stage.handed (stage : Stage M L Resources Payload Failure Builder Sink) :
    List (Excerpt M L) :=
  stage.events.filterMap fun
    | .built _ _ excerpt => some excerpt
    | .delivered _ _ => none
    | .answered _ => none

namespace Renderer

variable (renderer : Renderer M L Resources Payload Failure Builder Sink)

/-- Every payload that is asked for is built, in every state of the builder. -/
def NeverFails : Prop :=
  ∀ resources tile excerpt builder, ∃ payload,
    (renderer.build resources tile excerpt builder).1 = .ok payload

/-- Building changes the state of the builder and records the call, and touches nothing
else. -/
theorem run_buildOn (resources : Resources) (tile : Tile) (excerpt : Excerpt M L)
    (stage : Stage M L Resources Payload Failure Builder Sink) :
    (renderer.buildOn resources tile excerpt).run.run stage =
      ((renderer.build resources tile excerpt stage.builder).1,
        { stage with builder := (renderer.build resources tile excerpt stage.builder).2 }.record
          (.built resources tile excerpt)) :=
  rfl

/-- What a drawing does for one excerpt. -/
def drawExcerpt (resources : Resources) (tile : Tile) (excerpt : Excerpt M L) :
    ExceptT Failure (StateM (Stage M L Resources Payload Failure Builder Sink)) Unit := do
  let payload ← renderer.buildOn resources tile excerpt
  renderer.deliverOn excerpt.group payload

/-- If the builder succeeds, its payload is delivered at once, and the two events follow each
other. -/
theorem drawExcerpt_of_ok {resources : Resources} {tile : Tile} {excerpt : Excerpt M L}
    {stage : Stage M L Resources Payload Failure Builder Sink} {payload : Payload}
    {builder : Builder}
    (hBuild : renderer.build resources tile excerpt stage.builder = (.ok payload, builder)) :
    (renderer.drawExcerpt resources tile excerpt).run.run stage =
      (.ok (), {
        builder
        sink := renderer.deliver excerpt.group payload stage.sink
        events := stage.events ++
          [.built resources tile excerpt, .delivered excerpt.group payload] }) := by
  rw [drawExcerpt, Traversal.run_bind, run_buildOn, hBuild]
  change (Except.ok (), _) = _
  simp [Stage.record]

/-- If the builder fails, nothing is delivered. The state that it failed with is kept, and the
call is the last event. -/
theorem drawExcerpt_of_error {resources : Resources} {tile : Tile} {excerpt : Excerpt M L}
    {stage : Stage M L Resources Payload Failure Builder Sink} {failure : Failure}
    {builder : Builder}
    (hBuild : renderer.build resources tile excerpt stage.builder = (.error failure, builder)) :
    (renderer.drawExcerpt resources tile excerpt).run.run stage =
      (.error failure, { stage with builder }.record (.built resources tile excerpt)) := by
  rw [drawExcerpt, Traversal.run_bind, run_buildOn, hBuild]

variable [Pinned M] [Traced L]

/-- Drawing a tile goes through its excerpts one after the other and stops at the first
failure. -/
theorem drawOn_eq (overlay : Overlay M L) (resources : Resources) (tile : Tile)
    (stage : Stage M L Resources Payload Failure Builder Sink) :
    renderer.drawOn overlay resources tile stage =
      ((overlay.excerpts tile).forM (renderer.drawExcerpt resources tile)).run.run stage :=
  rfl

omit [Pinned M] [Traced L] in
/-- A walk that fails has failed to build one of its excerpts, in some state that the calls
before led to. -/
theorem exists_failing_excerpt {resources : Resources} {tile : Tile}
    {excerpts : List (Excerpt M L)}
    {stage later : Stage M L Resources Payload Failure Builder Sink} {failure : Failure}
    (hFails : (excerpts.forM (renderer.drawExcerpt resources tile)).run.run stage =
      (.error failure, later)) :
    ∃ excerpt ∈ excerpts, ∃ builder,
      (renderer.build resources tile excerpt builder).1 = .error failure := by
  induction excerpts generalizing stage with
  | nil => cases hFails
  | cons excerpt rest ih =>
      rw [List.forM_eq_forM, List.forM_cons, Traversal.run_bind] at hFails
      rcases hBuild : renderer.build resources tile excerpt stage.builder with ⟨result, builder⟩
      cases result with
      | error cause =>
          rw [renderer.drawExcerpt_of_error hBuild] at hFails
          obtain rfl : cause = failure := Except.error.inj (congrArg Prod.fst hFails)
          exact ⟨excerpt, List.mem_cons_self, stage.builder, by rw [hBuild]⟩
      | ok payload =>
          rw [renderer.drawExcerpt_of_ok hBuild] at hFails
          obtain ⟨failing, hFailing, hFailure⟩ := ih hFails
          exact ⟨failing, List.mem_cons_of_mem _ hFailing, hFailure⟩

omit [Pinned M] [Traced L] in
/-- A builder that never fails is handed each excerpt once, in the order of the walk. Nothing
that it answers has an influence on what comes next. -/
theorem handed_walk (hNever : renderer.NeverFails) {resources : Resources} {tile : Tile}
    (excerpts : List (Excerpt M L))
    (stage : Stage M L Resources Payload Failure Builder Sink) :
    ∃ later, (excerpts.forM (renderer.drawExcerpt resources tile)).run.run stage =
        (.ok (), later) ∧
      later.handed = stage.handed ++ excerpts := by
  induction excerpts generalizing stage with
  | nil => exact ⟨stage, rfl, (List.append_nil _).symm⟩
  | cons excerpt rest ih =>
      obtain ⟨payload, hPayload⟩ := hNever resources tile excerpt stage.builder
      rcases hBuild : renderer.build resources tile excerpt stage.builder with ⟨result, builder⟩
      obtain rfl : result = .ok payload := by rw [← hPayload, hBuild]
      rw [List.forM_eq_forM, List.forM_cons, Traversal.run_bind,
        renderer.drawExcerpt_of_ok hBuild]
      obtain ⟨later, hLater, hHanded⟩ := ih _
      refine ⟨later, hLater, ?_⟩
      rw [hHanded]
      simp [Stage.handed]

/-- What drawing one tile hands to the builder. -/
def handedIn (overlay : Overlay M L) (resources : Resources) (tile : Tile)
    (stage : Stage M L Resources Payload Failure Builder Sink) : List (Excerpt M L) :=
  (renderer.drawOn overlay resources tile { stage with events := [] }).2.handed

/-- A builder that never fails is handed what the tile shows, whatever its state is and
whatever it was handed before. -/
theorem handedIn_eq (hNever : renderer.NeverFails) (overlay : Overlay M L)
    (resources : Resources) (tile : Tile)
    (stage : Stage M L Resources Payload Failure Builder Sink) :
    renderer.handedIn overlay resources tile stage = overlay.excerpts tile := by
  obtain ⟨later, hLater, hHanded⟩ :=
    renderer.handed_walk hNever (overlay.excerpts tile) { stage with events := [] }
  rw [handedIn, drawOn_eq, hLater, hHanded]
  rfl

/-- Where a tile shows nothing, nothing is built and nothing is delivered, and the renderer is
left as it was. -/
theorem drawOn_of_excerpts_eq_nil {overlay : Overlay M L} {tile : Tile}
    (hNone : overlay.excerpts tile = []) (resources : Resources)
    (stage : Stage M L Resources Payload Failure Builder Sink) :
    renderer.drawOn overlay resources tile stage = (.ok (), stage) := by
  rw [drawOn_eq, hNone]
  rfl

end Renderer

end MapOverlay
