import MapOverlay.Proofs.Overlay.Reachable

/-! Sessions, in which edits and drawings come in any order. Payloads are built and taken
by a renderer whose two sides keep states of their own, and everything that the renderer
is asked for is recorded. A session may be held with an overlay or with a scene. -/
namespace MapOverlay

/-- Builds payloads and takes them. A failure that `fault?` explains is misuse and ends
the session. Any other failure is the answer to the drawing that met it. -/
structure Renderer (M L Resources Payload Failure Builder Sink : Type) where
  build : Resources → Tile → Excerpt M L → Builder → Except Failure Payload × Builder
  fault? : Failure → Option Fault
  deliver : Group → Payload → Sink → Sink

/-- What happens between an overlay and its renderer, as far as it can be seen. -/
inductive Event (M L Resources Payload Failure : Type) where
  | built (resources : Resources) (tile : Tile) (excerpt : Excerpt M L)
  | delivered (group : Group) (payload : Payload)
  | answered (result : Except Failure Unit)

/-- The states of a renderer and the events so far. -/
structure Stage (M L Resources Payload Failure Builder Sink : Type) where
  builder : Builder
  sink : Sink
  events : List (Event M L Resources Payload Failure)

/-- What is asked of an overlay and its renderer, in the order in which it is asked. Edits come
one by one or from a queue. -/
inductive Request (M L Resources : Type) where
  | setMarks (group : Group) (marks : Array M)
  | setLines (group : Group) (lines : Array L)
  | setShown (group : Group) (shown : Bool)
  | clear (group : Group)
  | apply (edit : Edit M L)
  | draw (resources : Resources) (tile : Tile)

/-- A request that cannot fault by itself. Drawing never asks for anything. -/
def Request.Indexable {M L Resources : Type} [Pinned M] [Traced L] : Request M L Resources → Prop
  | .setMarks _ marks => MarksIndexable marks
  | .setLines _ lines => LinesIndexable lines
  | .setShown _ _ => True
  | .clear _ => True
  | .apply edit => edit.Indexable
  | .draw _ _ => True

/-- What a session is held with. -/
class Surface (State : Type) (M L : outParam Type) where
  setMarks : State → Group → Array M → Except Fault State
  setLines : State → Group → Array L → Except Fault State
  setShown : State → Group → Bool → State
  clear : State → Group → State
  apply : State → Edit M L → Except Fault State
  draw {m : Type → Type} [Monad m] {Payload : Type} : State → Tile →
    (Tile → Excerpt M L → m Payload) → (Group → Payload → m Unit) → m Unit

instance {M L : Type} [Pinned M] [Traced L] : Surface (Overlay M L) M L where
  setMarks := Overlay.setMarks
  setLines := Overlay.setLines
  setShown := Overlay.setShown
  clear := Overlay.clear
  apply := Overlay.apply
  draw := Overlay.draw

instance {M L : Type} [Pinned M] [Traced L] : Surface (Scene M L) M L where
  setMarks scene group marks := .ok (scene.setMarks group marks)
  setLines scene group lines := .ok (scene.setLines group lines)
  setShown := Scene.setShown
  clear := Scene.clear
  apply scene edit := .ok (scene.apply edit)
  draw := Scene.draw

/-- How a session ended: by a fault or with all requests answered. -/
structure Outcome (State M L Resources Payload Failure Builder Sink : Type) where
  fault : Option Fault
  state : State
  stage : Stage M L Resources Payload Failure Builder Sink

variable {State M L Resources Payload Failure Builder Sink : Type}

/-- Adds an event behind those so far. -/
def Stage.record (stage : Stage M L Resources Payload Failure Builder Sink)
    (event : Event M L Resources Payload Failure) :
    Stage M L Resources Payload Failure Builder Sink :=
  { stage with events := stage.events ++ [event] }

namespace Renderer

variable (renderer : Renderer M L Resources Payload Failure Builder Sink)

/-- Builds one payload on a stage. A builder that fails keeps the state it failed with. -/
def buildOn (resources : Resources) (tile : Tile) (excerpt : Excerpt M L) :
    ExceptT Failure (StateM (Stage M L Resources Payload Failure Builder Sink)) Payload :=
  ExceptT.mk fun stage =>
    let (result, builder) := renderer.build resources tile excerpt stage.builder
    (result, { stage with builder }.record (.built resources tile excerpt))

/-- Delivers one payload on a stage, which cannot fail. -/
def deliverOn (group : Group) (payload : Payload) :
    ExceptT Failure (StateM (Stage M L Resources Payload Failure Builder Sink)) Unit :=
  ExceptT.mk fun stage =>
    (.ok (), { stage with sink := renderer.deliver group payload stage.sink }.record
      (.delivered group payload))

/-- Draws one tile on a stage, with the result of the first call that failed or none. -/
def drawOn [Surface State M L] (state : State) (resources : Resources) (tile : Tile)
    (stage : Stage M L Resources Payload Failure Builder Sink) :
    Except Failure Unit × Stage M L Resources Payload Failure Builder Sink :=
  (Surface.draw state tile (renderer.buildOn resources) renderer.deliverOn).run.run stage

/-- Answers one request. A drawing leaves the state as it is, even if it fails. -/
def answer [Surface State M L] (state : State)
    (stage : Stage M L Resources Payload Failure Builder Sink) :
    Request M L Resources →
      Except Fault State × Stage M L Resources Payload Failure Builder Sink
  | .setMarks group marks => (Surface.setMarks state group marks, stage)
  | .setLines group lines => (Surface.setLines state group lines, stage)
  | .setShown group shown => (.ok (Surface.setShown state group shown), stage)
  | .clear group => (.ok (Surface.clear state group), stage)
  | .apply edit => (Surface.apply state edit, stage)
  | .draw resources tile =>
      match renderer.drawOn state resources tile stage with
      | (.ok (), stage) => (.ok state, stage.record (.answered (.ok ())))
      | (.error failure, stage) =>
          match renderer.fault? failure with
          | some fault => (.error fault, stage)
          | none => (.ok state, stage.record (.answered (.error failure)))

/-- Holds a session. A fault ends it with the state before the faulty request. -/
def run [Surface State M L] (state : State)
    (stage : Stage M L Resources Payload Failure Builder Sink) :
    List (Request M L Resources) → Outcome State M L Resources Payload Failure Builder Sink
  | [] => { fault := none, state, stage }
  | request :: later =>
      match renderer.answer state stage request with
      | (.error fault, stage) => { fault := some fault, state, stage }
      | (.ok next, stage) => run next stage later

end Renderer

end MapOverlay
