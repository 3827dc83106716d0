import MapOverlay.Proofs.Overlay.Session

/-! The index cannot be seen. A session that is held with an overlay asks its renderer for
the same payloads in the same order, and gets the same answers, as the one that is held
with a scene. -/
namespace MapOverlay.Renderer

variable {M L Resources Payload Failure Builder Sink : Type} [Pinned M] [Traced L]
  (renderer : Renderer M L Resources Payload Failure Builder Sink)

/-- One drawing of a tile, on the overlay and on its scene, makes the same calls and comes to
the same end. -/
theorem drawOn_scene {overlay : Overlay M L} (hIndexed : overlay.Indexed) (resources : Resources)
    (tile : Tile) (stage : Stage M L Resources Payload Failure Builder Sink) :
    renderer.drawOn overlay resources tile stage =
      renderer.drawOn overlay.scene resources tile stage := by
  have hDraw := hIndexed.draw_eq tile (renderer.buildOn resources) renderer.deliverOn
  change (overlay.draw tile (renderer.buildOn resources) renderer.deliverOn).run.run stage = _
  rw [hDraw]
  rfl

/-- An edit of an overlay is carried out as it is on the scene, and leaves the overlay indexed
for the next request. -/
theorem exists_apply_scene {overlay : Overlay M L} (hIndexed : overlay.Indexed) {edit : Edit M L}
    (hIndexable : edit.Indexable) :
    ∃ next, overlay.apply edit = .ok next ∧ overlay.scene.apply edit = next.scene ∧
      next.Indexed := by
  obtain ⟨next, hNext⟩ := (overlay.exists_apply_iff edit).mpr hIndexable
  exact ⟨next, hNext, (Overlay.scene_of_apply hNext).symm, hIndexed.apply hNext⟩

/-- An overlay and its scene answer one request alike, and the overlay stays indexed. If the
renderer never faults, the request is always answered. -/
theorem answer_scene {overlay : Overlay M L} (hIndexed : overlay.Indexed)
    (stage : Stage M L Resources Payload Failure Builder Sink)
    {request : Request M L Resources} (hIndexable : request.Indexable) :
    ∃ result later, renderer.answer overlay stage request = (result, later) ∧
      renderer.answer overlay.scene stage request = (result.map Overlay.scene, later) ∧
      (∀ next, result = .ok next → next.Indexed) ∧
      ((∀ failure, renderer.fault? failure = none) → ∃ next, result = .ok next) := by
  have hEdit (edit : Edit M L) (hIndexable : edit.Indexable) :
      ∃ result later, (overlay.apply edit, stage) = (result, later) ∧
        (Except.ok (overlay.scene.apply edit), stage) = (result.map Overlay.scene, later) ∧
        (∀ next, result = .ok next → next.Indexed) ∧
        ((∀ failure, renderer.fault? failure = none) → ∃ next, result = .ok next) := by
    obtain ⟨next, hNext, hScene, hLater⟩ := exists_apply_scene hIndexed hIndexable
    refine ⟨.ok next, stage, by rw [hNext], by rw [hScene]; rfl, ?_, fun _ => ⟨next, rfl⟩⟩
    intro other hOther
    cases hOther
    exact hLater
  cases request with
  | setMarks group marks => exact hEdit (.setMarks group marks) hIndexable
  | setLines group lines => exact hEdit (.setLines group lines) hIndexable
  | setShown group shown => exact hEdit (.setShown group shown) trivial
  | clear group => exact hEdit (.clear group) trivial
  | apply edit => exact hEdit edit hIndexable
  | draw resources tile =>
      have hKept : ∀ next, Except.ok (ε := Fault) overlay = .ok next → next.Indexed := by
        intro next hNext
        cases hNext
        exact hIndexed
      simp only [answer, renderer.drawOn_scene hIndexed]
      rcases renderer.drawOn overlay.scene resources tile stage with ⟨drawn, later⟩
      cases drawn with
      | ok _ => exact ⟨.ok overlay, _, rfl, rfl, hKept, fun _ => ⟨overlay, rfl⟩⟩
      | error failure =>
          cases hFault : renderer.fault? failure with
          | none =>
              simp only [hFault]
              exact ⟨.ok overlay, _, rfl, rfl, hKept, fun _ => ⟨overlay, rfl⟩⟩
          | some fault =>
              simp only [hFault]
              refine ⟨.error fault, later, rfl, rfl, ?_, ?_⟩
              · intro next hNext
                cases hNext
              · intro hNone
                rw [hNone failure] at hFault
                cases hFault

/-- An overlay and its scene hold one session alike, by induction on the requests. They record
the same calls, end in the same way and hold the same items afterwards. -/
theorem run_scene {overlay : Overlay M L} (hIndexed : overlay.Indexed)
    (stage : Stage M L Resources Payload Failure Builder Sink)
    {requests : List (Request M L Resources)}
    (hIndexable : ∀ request ∈ requests, request.Indexable) :
    (renderer.run overlay.scene stage requests).stage =
        (renderer.run overlay stage requests).stage ∧
      (renderer.run overlay.scene stage requests).fault =
        (renderer.run overlay stage requests).fault ∧
      (renderer.run overlay.scene stage requests).state =
        (renderer.run overlay stage requests).state.scene ∧
      ((∀ failure, renderer.fault? failure = none) →
        (renderer.run overlay stage requests).fault = none) := by
  induction requests generalizing overlay stage with
  | nil => exact ⟨rfl, rfl, rfl, fun _ => rfl⟩
  | cons request rest ih =>
      obtain ⟨result, later, hOverlay, hScene, hNext, hOk⟩ :=
        renderer.answer_scene hIndexed stage (hIndexable request List.mem_cons_self)
      simp only [run, hOverlay, hScene]
      cases result with
      | error fault =>
          refine ⟨rfl, rfl, rfl, ?_⟩
          intro hNone
          obtain ⟨next, hContra⟩ := hOk hNone
          cases hContra
      | ok next =>
          exact ih (hNext next rfl) later
            fun other hOther => hIndexable other (List.mem_cons_of_mem _ hOther)

/-- From nothing, a session with an overlay and one with a scene ask the builder for the
same payloads with the same collections and positions, deliver the same payloads in the
same places, give the same answers and leave the same collections and shown groups. -/
theorem session_refines_scene (pyramid : Pyramid)
    (stage : Stage M L Resources Payload Failure Builder Sink)
    (requests : List (Request M L Resources))
    (hIndexable : ∀ request ∈ requests, request.Indexable) :
    let indexed := renderer.run (Overlay.empty pyramid : Overlay M L) stage requests
    let plain := renderer.run (Scene.empty pyramid : Scene M L) stage requests
    plain.stage.events = indexed.stage.events ∧
      plain.stage.builder = indexed.stage.builder ∧
      plain.stage.sink = indexed.stage.sink ∧
      plain.fault = indexed.fault ∧
      plain.state = indexed.state.scene ∧
      ((∀ failure, renderer.fault? failure = none) → indexed.fault = none) := by
  intro indexed plain
  obtain ⟨hStage, hFault, hState, hNone⟩ :=
    renderer.run_scene (Overlay.indexed_empty pyramid) stage hIndexable
  rw [Overlay.scene_empty] at hStage hFault hState
  exact ⟨congrArg Stage.events hStage, congrArg Stage.builder hStage, congrArg Stage.sink hStage,
    hFault, hState, hNone⟩

/-- Answers with the number of the call and refuses one group. -/
def refusingSecond : Renderer Point (List Point) Unit Nat Group Nat (List (Group × Nat)) where
  build _ _ excerpt calls :=
    (if excerpt.group = ⟨2⟩ then .error excerpt.group else .ok calls, calls + 1)
  fault? _ := none
  deliver group payload sink := sink ++ [(group, payload)]

/-- The refused group shares a tile with another one until it is cleared, and the other
group leaves that tile when its marks are replaced. -/
def mixedRequests : List (Request Point (List Point) Unit) :=
  [.setMarks ⟨1⟩ #[⟨10, 10⟩, ⟨-10, 10⟩], .setShown ⟨1⟩ true,
    .apply (.setLines ⟨2⟩ #[[⟨10, 10⟩, ⟨400, 10⟩]]), .setShown ⟨2⟩ true,
    .draw () ⟨Zoom.coarsest, 0, 0⟩, .setMarks ⟨1⟩ #[⟨-10, 10⟩], .clear ⟨2⟩,
    .draw () ⟨Zoom.coarsest, 0, 0⟩, .draw () ⟨Zoom.coarsest, -1, 0⟩]

/-- The first drawing delivers one group and stops at the refused one, the second finds its
tile empty, and the third finds the mark where it went. No request ends the session. -/
theorem session_mixedRequests :
    (∀ request ∈ mixedRequests, request.Indexable) ∧
    (refusingSecond.run (Overlay.empty {} : Overlay Point (List Point)) ⟨0, [], []⟩
      mixedRequests).stage.sink = [(⟨1⟩, 0), (⟨1⟩, 2)] ∧
    (refusingSecond.run (Overlay.empty {} : Overlay Point (List Point)) ⟨0, [], []⟩
      mixedRequests).fault = none := by
  have hIndexable : ∀ request ∈ mixedRequests, request.Indexable := by
    simp only [mixedRequests, List.forall_mem_cons]
    refine ⟨?_, trivial, ?_, trivial, trivial, ?_, trivial, trivial, trivial, List.forall_mem_nil _⟩
    all_goals constructor <;> decide
  obtain ⟨_, _, hSink, _, _, hNone⟩ :=
    refusingSecond.session_refines_scene {} ⟨0, [], []⟩ mixedRequests hIndexable
  exact ⟨hIndexable, hSink.symm.trans (by decide +kernel), hNone fun _ => rfl⟩

end MapOverlay.Renderer
