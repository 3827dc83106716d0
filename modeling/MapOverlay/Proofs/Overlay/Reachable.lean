import MapOverlay.Proofs.Overlay.Scene

/-! The overlays that edits lead to. In each of them the index agrees with the
collections, so a tile can be drawn from its scene alone. -/
namespace MapOverlay

/-- An edit that can be carried out: its points are finite and its positions fit. -/
def Edit.Indexable {M L : Type} [Pinned M] [Traced L] : Edit M L → Prop
  | .clear _ => True
  | .setMarks _ marks => MarksIndexable marks
  | .setLines _ lines => LinesIndexable lines
  | .setShown _ _ => True

namespace Overlay

variable {M L : Type} [Pinned M] [Traced L]

/-- An edit can be carried out exactly if the collection that it brings can be indexed,
whatever the overlay holds. Clearing, showing and hiding always succeed. -/
theorem exists_apply_iff (overlay : Overlay M L) (edit : Edit M L) :
    (∃ next, overlay.apply edit = .ok next) ↔ edit.Indexable := by
  cases edit with
  | clear group => exact iff_of_true ⟨_, rfl⟩ trivial
  | setMarks group marks =>
      exact Traversal.exists_bind_pure_eq_ok_iff.trans
        (overlay.index.exists_replaceMarks_iff overlay.pyramid group)
  | setLines group lines =>
      exact Traversal.exists_bind_pure_eq_ok_iff.trans
        (overlay.index.exists_replaceLines_iff overlay.pyramid group)
  | setShown group shown => exact iff_of_true ⟨_, rfl⟩ trivial

/-- The index has in every tile what a look at the items finds there, for shown and for hidden
groups. This is the invariant of all edits. -/
def Indexed (overlay : Overlay M L) : Prop :=
  ∀ tile group, overlay.index.share tile group = overlay.scene.share tile group

theorem indexed_empty (pyramid : Pyramid) : (empty pyramid : Overlay M L).Indexed := by
  intro tile group
  rw [scene_empty, Scene.share_empty]
  exact PlacementIndex.share_empty tile group

/-- No edit breaks the agreement of index and items. A replaced collection is indexed anew, a
cleared group leaves both, and everything else stays on both sides. -/
theorem Indexed.apply {overlay next : Overlay M L} (hIndexed : overlay.Indexed)
    {edit : Edit M L} (hNext : overlay.apply edit = .ok next) : next.Indexed := by
  intro tile other
  rw [scene_of_apply hNext]
  cases edit with
  | clear group =>
      cases hNext
      rw [Scene.apply, Scene.share_clear, ← hIndexed]
      exact overlay.index.share_remove group tile other
  | setMarks group marks =>
      obtain ⟨index, hIndex, rfl⟩ := setMarks_eq_ok_iff.mp hNext
      rw [Scene.apply, Scene.share_setMarks, ← hIndexed, ← hIndexed]
      exact PlacementIndex.share_of_replaceMarks hIndex tile other
  | setLines group lines =>
      obtain ⟨index, hIndex, rfl⟩ := setLines_eq_ok_iff.mp hNext
      rw [Scene.apply, Scene.share_setLines, ← hIndexed, ← hIndexed]
      exact PlacementIndex.share_of_replaceLines hIndex tile other
  | setShown group shown =>
      cases hNext
      exact hIndexed tile other

/-- The overlays that edits lead to. Drawing does not change an overlay, and an edit that
faults leads nowhere. -/
inductive Reachable : Overlay M L → Prop where
  | empty (pyramid : Pyramid) : Reachable (empty pyramid)
  | edit {overlay next : Overlay M L} (prior : Reachable overlay) (edit : Edit M L)
      (last : overlay.apply edit = .ok next) : Reachable next

/-- Only collections that an index can take in are ever held: finite points, and few enough
items for a position. -/
def Admitted (overlay : Overlay M L) : Prop :=
  ∀ group, MarksIndexable (overlay.marks group) ∧ LinesIndexable (overlay.lines group)

/-- What holds of the collection of every group still holds after one group is given another
collection of which it holds. -/
theorem forall_update {Item : Type} {Fits : Array Item → Prop} {sets : Group → Array Item}
    (hSets : ∀ group, Fits (sets group)) {group : Group} {items : Array Item}
    (hItems : Fits items) (other : Group) : Fits (Function.update sets group items other) :=
  (Function.forall_update_iff sets fun _ => Fits).mpr
    ⟨hItems, fun kept _ => hSets kept⟩ other

/-- An edit that can be carried out brings an indexable collection or none, so the overlay
still holds only such. -/
theorem Admitted.apply {overlay next : Overlay M L} (hAdmitted : overlay.Admitted) {edit : Edit M L}
    (hNext : overlay.apply edit = .ok next) : next.Admitted := by
  have hIndexable : edit.Indexable := (overlay.exists_apply_iff edit).mp ⟨next, hNext⟩
  have hScene := scene_of_apply hNext
  have hMarks : next.marks = (overlay.scene.apply edit).marks := congrArg Scene.marks hScene
  have hLines : next.lines = (overlay.scene.apply edit).lines := congrArg Scene.lines hScene
  have hPriorMarks : ∀ group, MarksIndexable (overlay.marks group) := fun group =>
    (hAdmitted group).1
  have hPriorLines : ∀ group, LinesIndexable (overlay.lines group) := fun group =>
    (hAdmitted group).2
  intro other
  rw [hMarks, hLines]
  cases edit with
  | clear group =>
      exact ⟨forall_update hPriorMarks marksIndexable_empty other,
        forall_update hPriorLines linesIndexable_empty other⟩
  | setMarks group marks => exact ⟨forall_update hPriorMarks hIndexable other, hPriorLines other⟩
  | setLines group lines => exact ⟨hPriorMarks other, forall_update hPriorLines hIndexable other⟩
  | setShown group shown => exact hAdmitted other

/-- Edits lead only to overlays whose collections can all be indexed, by induction on the
edits. -/
theorem Reachable.admitted {overlay : Overlay M L} (hReachable : overlay.Reachable) :
    overlay.Admitted := by
  induction hReachable with
  | empty pyramid =>
      intro group
      exact ⟨marksIndexable_empty, linesIndexable_empty⟩
  | edit prior edit last ih => exact ih.apply last

/-- Edits lead only to indexed overlays, by induction on the edits. -/
theorem Reachable.indexed {overlay : Overlay M L} (hReachable : overlay.Reachable) :
    overlay.Indexed := by
  induction hReachable with
  | empty pyramid => exact indexed_empty pyramid
  | edit prior edit last ih => exact ih.apply last

theorem Reachable.applyAll {overlay final : Overlay M L} (hReachable : overlay.Reachable)
    {edits : List (Edit M L)} (hFinal : overlay.applyAll edits = .ok final) : final.Reachable := by
  induction edits generalizing overlay with
  | nil =>
      cases hFinal
      exact hReachable
  | cons edit later ih =>
      obtain ⟨next, hNext, hLater⟩ := Traversal.bind_eq_ok_iff.mp hFinal
      exact ih (.edit hReachable edit hNext) hLater

/-- A queue does to the scene what its edits say one after the other. It does not matter how
the index gets there. -/
theorem scene_of_applyAll {overlay final : Overlay M L} {edits : List (Edit M L)}
    (hFinal : overlay.applyAll edits = .ok final) :
    final.scene = edits.foldl Scene.apply overlay.scene := by
  induction edits generalizing overlay with
  | nil =>
      cases hFinal
      rfl
  | cons edit later ih =>
      obtain ⟨next, hNext, hLater⟩ := Traversal.bind_eq_ok_iff.mp hFinal
      rw [ih hLater, scene_of_apply hNext, List.foldl_cons]

/-- A queue of indexable edits can be carried out from any overlay, since whether an edit can
be does not depend on the edits before it. -/
theorem exists_applyAll (overlay : Overlay M L) {edits : List (Edit M L)}
    (hIndexable : ∀ edit ∈ edits, edit.Indexable) :
    ∃ final, overlay.applyAll edits = .ok final := by
  induction edits generalizing overlay with
  | nil => exact ⟨overlay, rfl⟩
  | cons edit later ih =>
      obtain ⟨next, hNext⟩ := (overlay.exists_apply_iff edit).mpr
        (hIndexable edit List.mem_cons_self)
      obtain ⟨final, hFinal⟩ :=
        ih next fun other hOther => hIndexable other (List.mem_cons_of_mem _ hOther)
      exact ⟨final, Traversal.bind_eq_ok_iff.mpr ⟨next, hNext, hFinal⟩⟩

omit [Pinned M] [Traced L] in
theorem mem_filter_shownGroups (overlay : Overlay M L) {share : Group → Share} {group : Group} :
    (group ∈ overlay.shownGroups.filter fun group => !(share group).isEmpty) ↔
      overlay.isShown group ∧ share group ≠ ∅ := by
  rw [List.mem_filter, mem_shownGroups, Bool.not_eq_true', ← Bool.not_eq_true, Share.isEmpty_iff]

omit [Pinned M] [Traced L] in
/-- The two ways to the groups of a tile, over the index and over the shown groups. Both
ascend, so they visit the same groups in the same order. -/
theorem shownGroupsIn_eq (overlay : Overlay M L) (tile : Tile) :
    ((overlay.index.groupsIn tile).filter fun entry => overlay.isShown entry.1).map Prod.fst =
      overlay.shownGroups.filter fun group => !(overlay.index.share tile group).isEmpty := by
  apply Traversal.eq_of_ordered
  · rw [List.pairwise_map]
    exact (SparseTable.toList_ordered _).filter _
  · exact Std.ExtTreeSet.ordered_toList.filter _
  · intro group
    rw [List.mem_map, overlay.mem_filter_shownGroups]
    constructor
    · intro hListed
      obtain ⟨⟨found, share⟩, hEntry, hFound⟩ := hListed
      obtain rfl : found = group := hFound
      obtain ⟨hGroup, hShown⟩ := List.mem_filter.mp hEntry
      obtain ⟨rfl, hShare⟩ := overlay.index.mem_groupsIn.mp hGroup
      exact ⟨hShown, hShare⟩
    · intro hDrawn
      obtain ⟨hShown, hShare⟩ := hDrawn
      have hEntry := overlay.index.mem_groupsIn.mpr ⟨rfl, hShare⟩
      exact ⟨_, List.mem_filter.mpr ⟨hEntry, hShown⟩, rfl⟩

omit [Pinned M] [Traced L] in
/-- The index answers for the shown groups that have something in the tile, each with its
share there. -/
theorem excerpts_eq (overlay : Overlay M L) (tile : Tile) :
    overlay.excerpts tile =
      (overlay.shownGroups.filter fun group => !(overlay.index.share tile group).isEmpty).map
        fun group =>
          { group
            marks := overlay.marks group
            markPositions := (overlay.index.share tile group).marks
            lines := overlay.lines group
            linePositions := (overlay.index.share tile group).lines } := by
  rw [← shownGroupsIn_eq, List.map_map]
  apply List.map_congr_left
  intro entry hEntry
  obtain ⟨group, share⟩ := entry
  obtain ⟨rfl, _⟩ := overlay.index.mem_groupsIn.mp (List.mem_of_mem_filter hEntry)
  rfl

/-- The index finds what a look at every item of every shown group finds, with the same
collections and the same positions. -/
theorem Indexed.excerpts_eq {overlay : Overlay M L} (hIndexed : overlay.Indexed) (tile : Tile) :
    overlay.excerpts tile =
      (overlay.shownGroups.filter fun group => !(overlay.scene.share tile group).isEmpty).map
        (overlay.scene.excerpt tile) := by
  rw [Overlay.excerpts_eq]
  simp only [hIndexed tile]
  rfl

/-- An indexed overlay draws what its scene draws, in any monad. Whatever drawing does with the
excerpts, it is handed the same ones in the same order. -/
theorem Indexed.draw_eq {m : Type → Type} [Monad m] [LawfulMonad m] {Payload : Type}
    {overlay : Overlay M L} (hIndexed : overlay.Indexed) (tile : Tile)
    (build : Tile → Excerpt M L → m Payload) (deliver : Group → Payload → m Unit) :
    overlay.draw tile build deliver = overlay.scene.draw tile build deliver := by
  rw [draw, hIndexed.excerpts_eq, Scene.draw, List.forM_eq_forM, List.forM_map,
    ← List.forM_eq_forM, Traversal.forM_filter]
  congr 1
  funext group
  cases (overlay.scene.share tile group).isEmpty <;> rfl

end Overlay

end MapOverlay
