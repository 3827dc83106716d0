import Mathlib.Logic.Function.Basic
import MapOverlay.Overlay.Draw
import MapOverlay.Overlay.Edit
import MapOverlay.Proofs.Index.Replacement

/-! What an overlay means. A scene has the collections and the shown groups of an
overlay and no index: to draw a tile it looks through every item of every shown group.
An overlay that was built by edits draws what its scene draws. -/
namespace MapOverlay

/-- What there is to draw, without a way to find it quickly. A group has a collection of each
kind, which may be empty, and is shown or not. -/
structure Scene (M L : Type) where
  pyramid : Pyramid
  marks : Group → Array M
  lines : Group → Array L
  shown : Std.ExtTreeSet Group

namespace Scene

variable {M L : Type}

def empty (pyramid : Pyramid) : Scene M L :=
  { pyramid, marks := fun _ => #[], lines := fun _ => #[], shown := ∅ }

def setMarks (scene : Scene M L) (group : Group) (marks : Array M) : Scene M L :=
  { scene with marks := Function.update scene.marks group marks }

def setLines (scene : Scene M L) (group : Group) (lines : Array L) : Scene M L :=
  { scene with lines := Function.update scene.lines group lines }

def setShown (scene : Scene M L) (group : Group) (shown : Bool) : Scene M L :=
  { scene with shown := if shown then scene.shown.insert group else scene.shown.erase group }

def clear (scene : Scene M L) (group : Group) : Scene M L :=
  { scene with
    marks := Function.update scene.marks group #[]
    lines := Function.update scene.lines group #[]
    shown := scene.shown.erase group }

/-- Every edit is a plain change of what is held. Nothing can go wrong, as nothing is
indexed. -/
def apply (scene : Scene M L) : Edit M L → Scene M L
  | .clear group => scene.clear group
  | .setMarks group marks => scene.setMarks group marks
  | .setLines group lines => scene.setLines group lines
  | .setShown group shown => scene.setShown group shown

variable [Pinned M] [Traced L]

/-- What a group has in a tile, found by looking at each of its items. -/
def share (scene : Scene M L) (tile : Tile) (group : Group) : Share where
  marks := scene.pyramid.markPositions tile (scene.marks group)
  lines := scene.pyramid.linePositions tile (scene.lines group)

/-- The excerpt of a group in a tile, with the positions that looking at each item finds. -/
def excerpt (scene : Scene M L) (tile : Tile) (group : Group) : Excerpt M L where
  group
  marks := scene.marks group
  markPositions := (scene.share tile group).marks
  lines := scene.lines group
  linePositions := (scene.share tile group).lines

/-- Goes through the shown groups, ascending, and builds and delivers each that has
something in the tile. -/
def draw {m : Type → Type} [Monad m] {Payload : Type} (scene : Scene M L) (tile : Tile)
    (build : Tile → Excerpt M L → m Payload) (deliver : Group → Payload → m Unit) : m Unit :=
  scene.shown.toList.forM fun group => do
    unless (scene.share tile group).isEmpty do
      let payload ← build tile (scene.excerpt tile group)
      deliver group payload

@[simp] theorem share_empty (pyramid : Pyramid) (tile : Tile) (group : Group) :
    (empty pyramid : Scene M L).share tile group = ∅ :=
  rfl

/-- New marks change what a tile shows of their own group, and leave its lines as they are. -/
theorem share_setMarks (scene : Scene M L) (group : Group) (marks : Array M) (tile : Tile)
    (other : Group) :
    (scene.setMarks group marks).share tile other =
      if group = other then
        { scene.share tile group with marks := scene.pyramid.markPositions tile marks }
      else scene.share tile other := by
  obtain rfl | hOther := eq_or_ne other group
  · simp [share, setMarks]
  · simp [share, setMarks, hOther, hOther.symm]

theorem share_setLines (scene : Scene M L) (group : Group) (lines : Array L) (tile : Tile)
    (other : Group) :
    (scene.setLines group lines).share tile other =
      if group = other then
        { scene.share tile group with lines := scene.pyramid.linePositions tile lines }
      else scene.share tile other := by
  obtain rfl | hOther := eq_or_ne other group
  · simp [share, setLines]
  · simp [share, setLines, hOther, hOther.symm]

theorem share_clear (scene : Scene M L) (group : Group) (tile : Tile) (other : Group) :
    (scene.clear group).share tile other =
      if group = other then ∅ else scene.share tile other := by
  obtain rfl | hOther := eq_or_ne other group
  · simp only [share, clear, Function.update_self, if_true]
    rfl
  · simp [share, clear, hOther, hOther.symm]

end Scene

namespace Overlay

variable {M L : Type}

/-- An overlay without its index. A group that was given an empty collection is not told
apart from one that was never given any. -/
def scene (overlay : Overlay M L) : Scene M L where
  pyramid := overlay.pyramid
  marks := overlay.marks
  lines := overlay.lines
  shown := overlay.shown

theorem scene_empty (pyramid : Pyramid) : (empty pyramid : Overlay M L).scene = .empty pyramid := by
  have hMarks : (empty pyramid : Overlay M L).marks = fun _ => #[] := by
    funext group
    simp [marks, empty]
  have hLines : (empty pyramid : Overlay M L).lines = fun _ => #[] := by
    funext group
    simp [lines, empty]
  simp only [scene, hMarks, hLines]
  rfl

/-- Inserting a collection in a map is updating one value of the function that reads the
map. -/
theorem getD_insert {Item : Type} (sets : Std.ExtTreeMap Group (Array Item)) (group : Group)
    (items : Array Item) :
    (fun other => (sets.insert group items)[other]?.getD #[]) =
      Function.update (fun other => sets[other]?.getD #[]) group items := by
  funext other
  rw [Std.ExtTreeMap.getElem?_insert, Function.update_apply]
  by_cases hGroup : group = other
  · simp [hGroup]
  · simp [hGroup, Ne.symm hGroup]

/-- Erasing a group from a map is giving it the empty collection in the function that reads the
map. -/
theorem getD_erase {Item : Type} (sets : Std.ExtTreeMap Group (Array Item)) (group : Group) :
    (fun other => (sets.erase group)[other]?.getD #[]) =
      Function.update (fun other => sets[other]?.getD #[]) group #[] := by
  funext other
  rw [Std.ExtTreeMap.getElem?_erase, Function.update_apply]
  by_cases hGroup : group = other
  · simp [hGroup]
  · simp [hGroup, Ne.symm hGroup]

theorem scene_clear (overlay : Overlay M L) (group : Group) :
    (overlay.clear group).scene = overlay.scene.clear group := by
  have hMarks : (overlay.clear group).marks = Function.update overlay.marks group #[] :=
    getD_erase overlay.markSets group
  have hLines : (overlay.clear group).lines = Function.update overlay.lines group #[] :=
    getD_erase overlay.lineSets group
  simp only [scene, Scene.clear, hMarks, hLines]
  rfl

/-- Giving a group marks succeeds exactly if its index can be brought up to date, and then
stores the marks as they are. -/
theorem setMarks_eq_ok_iff [Pinned M] {overlay next : Overlay M L} {group : Group}
    {marks : Array M} :
    overlay.setMarks group marks = .ok next ↔
      ∃ index, overlay.index.replaceMarks overlay.pyramid group marks = .ok index ∧
        { overlay with markSets := overlay.markSets.insert group marks, index } = next :=
  Traversal.bind_pure_eq_ok_iff

theorem setLines_eq_ok_iff [Traced L] {overlay next : Overlay M L} {group : Group}
    {lines : Array L} :
    overlay.setLines group lines = .ok next ↔
      ∃ index, overlay.index.replaceLines overlay.pyramid group lines = .ok index ∧
        { overlay with lineSets := overlay.lineSets.insert group lines, index } = next :=
  Traversal.bind_pure_eq_ok_iff

variable [Pinned M] [Traced L]

/-- An edit does to the scene what it says, whatever it has to do to the index. Together with
the invariant this is the simulation of the overlay by its scene, one edit at a time. -/
theorem scene_of_apply {overlay next : Overlay M L} {edit : Edit M L}
    (hNext : overlay.apply edit = .ok next) : next.scene = overlay.scene.apply edit := by
  cases edit with
  | clear group =>
      cases hNext
      exact scene_clear overlay group
  | setMarks group marks =>
      obtain ⟨index, _, rfl⟩ := setMarks_eq_ok_iff.mp hNext
      simp only [scene, Scene.apply, Scene.setMarks]
      congr 1
      exact getD_insert overlay.markSets group marks
  | setLines group lines =>
      obtain ⟨index, _, rfl⟩ := setLines_eq_ok_iff.mp hNext
      simp only [scene, Scene.apply, Scene.setLines]
      congr 1
      exact getD_insert overlay.lineSets group lines
  | setShown group shown =>
      cases hNext
      rfl

end Overlay

end MapOverlay
