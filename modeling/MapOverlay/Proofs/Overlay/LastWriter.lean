import Mathlib.Data.List.Induction
import MapOverlay.Proofs.Overlay.EditQueue
import MapOverlay.Proofs.Overlay.Reachable

/-! The last writer wins. What an edit leaves of a facet that it affects follows from the
edit alone, and all other facets stay as they are, in the collections and in the index.
The overlay at the end of a queue therefore depends only on the last writer of each
facet of each group. -/
namespace MapOverlay

/-- The items of one kind that a group has, with their places in the index. -/
structure Holding (Item : Type) where
  items : Option (Array Item)
  positions : Tile → List Nat

namespace Holding

variable {Item : Type}

/-- What a group has of one kind, from the collections of that kind and the index. -/
def of (sets : Std.ExtTreeMap Group (Array Item)) (kind : Share.Kind) (index : PlacementIndex)
    (group : Group) : Holding Item where
  items := sets[group]?
  positions tile := (index.share tile group).positions kind

/-- Clearing a group takes its holding of either kind and leaves those of other groups. -/
theorem of_remove (sets : Std.ExtTreeMap Group (Array Item)) (kind : Share.Kind)
    (index : PlacementIndex) (other group : Group) :
    of (sets.erase other) kind (index.remove other) group =
      (if other = group then some ⟨none, fun _ => []⟩ else none).getD
        (of sets kind index group) := by
  simp only [of, PlacementIndex.share_remove, Std.ExtTreeMap.getElem?_erase,
    Std.LawfulEqOrd.compare_eq_iff_eq]
  by_cases hGroup : other = group
  · simp [hGroup]
  · simp [hGroup]

/-- A replacement makes the new collection the holding of its group, with the positions that the
tiles show, and leaves the holdings of other groups. -/
theorem of_replace {kind : Share.Kind} {index next : PlacementIndex} {pyramid : Pyramid}
    {cover : Item → Except Fault (List Tile)} {points : Item → List Point} {items : Array Item}
    {other : Group}
    (hPlaces : pyramid.Places cover points)
    (hNext : index.replace kind other cover items = .ok next)
    (sets : Std.ExtTreeMap Group (Array Item)) (group : Group) :
    of (sets.insert other items) kind next group =
      (if other = group then some ⟨some items, fun tile => pyramid.positions tile points items⟩
        else none).getD (of sets kind index group) := by
  simp only [of, PlacementIndex.share_of_replace hPlaces hNext, Std.ExtTreeMap.getElem?_insert,
    Std.LawfulEqOrd.compare_eq_iff_eq]
  by_cases hGroup : other = group
  · simp [hGroup, Share.positions_withPositions]
  · simp [hGroup]

/-- A replacement of the other kind leaves a holding as it is, also that of its own group. The
two kinds share the index and nothing in it. -/
theorem of_replace_of_ne {Other : Type} {written kind : Share.Kind} {index next : PlacementIndex}
    {pyramid : Pyramid} {cover : Other → Except Fault (List Tile)} {points : Other → List Point}
    {items : Array Other} {other : Group} (hKind : written ≠ kind)
    (hPlaces : pyramid.Places cover points)
    (hNext : index.replace written other cover items = .ok next)
    (sets : Std.ExtTreeMap Group (Array Item)) (group : Group) :
    of sets kind next group = of sets kind index group := by
  simp only [of, PlacementIndex.share_of_replace hPlaces hNext]
  congr 1
  funext tile
  split
  · rename_i hGroup
    rw [Share.positions_withPositions, if_neg hKind, hGroup]
  · rfl

end Holding

variable {M L : Type}

namespace Edit

/-- What an edit leaves of a group's marks, if it affects them. -/
def markHolding? [Pinned M] (pyramid : Pyramid) (group : Group) : Edit M L → Option (Holding M)
  | .clear other => if other = group then some ⟨none, fun _ => []⟩ else none
  | .setMarks other marks =>
      if other = group then some ⟨some marks, fun tile => pyramid.markPositions tile marks⟩
      else none
  | .setLines _ _ => none
  | .setShown _ _ => none

def lineHolding? [Traced L] (pyramid : Pyramid) (group : Group) : Edit M L → Option (Holding L)
  | .clear other => if other = group then some ⟨none, fun _ => []⟩ else none
  | .setMarks _ _ => none
  | .setLines other lines =>
      if other = group then some ⟨some lines, fun tile => pyramid.linePositions tile lines⟩
      else none
  | .setShown _ _ => none

/-- Whether a group is shown after an edit, if the edit decides about it. -/
def shown? (group : Group) : Edit M L → Option Bool
  | .clear other => if other = group then some false else none
  | .setMarks _ _ => none
  | .setLines _ _ => none
  | .setShown other shown => if other = group then some shown else none

theorem isSome_written {View : Type} (group other : Group) (written : View) :
    (if other = group then some written else none).isSome = decide (other = group) := by
  by_cases hGroup : other = group <;> simp [hGroup]

/-- An edit says what becomes of a group's marks exactly if it affects them. The table of
facets and the table of what is written agree edit by edit. -/
theorem isSome_markHolding? [Pinned M] (pyramid : Pyramid) (group : Group) (edit : Edit M L) :
    (edit.markHolding? pyramid group).isSome = edit.affects group .marks := by
  cases edit <;> simp [markHolding?, affects, isSome_written]

theorem isSome_lineHolding? [Traced L] (pyramid : Pyramid) (group : Group) (edit : Edit M L) :
    (edit.lineHolding? pyramid group).isSome = edit.affects group .lines := by
  cases edit <;> simp [lineHolding?, affects, isSome_written]

theorem isSome_shown? (group : Group) (edit : Edit M L) :
    (edit.shown? group).isSome = edit.affects group .shown := by
  cases edit <;> simp [shown?, affects, isSome_written]

end Edit

namespace Overlay

/-- The marks of a group. A group that was never given any is told apart from one whose
collection is empty. -/
def markHolding (overlay : Overlay M L) (group : Group) : Holding M :=
  .of overlay.markSets .marks overlay.index group

/-- The lines of a group, under the same rule. -/
def lineHolding (overlay : Overlay M L) (group : Group) : Holding L :=
  .of overlay.lineSets .lines overlay.index group

/-- An overlay has nothing besides its pyramid and the three facets of its groups. Two overlays
that agree in all of them are one and the same, with the same index. -/
theorem ext_of_facets {first second : Overlay M L} (hPyramid : first.pyramid = second.pyramid)
    (hMarks : ∀ group, first.markHolding group = second.markHolding group)
    (hLines : ∀ group, first.lineHolding group = second.lineHolding group)
    (hShown : ∀ group, first.isShown group = second.isShown group) : first = second := by
  have hMarkSets : first.markSets = second.markSets :=
    Std.ExtTreeMap.ext_getElem? fun group => congrArg Holding.items (hMarks group)
  have hLineSets : first.lineSets = second.lineSets :=
    Std.ExtTreeMap.ext_getElem? fun group => congrArg Holding.items (hLines group)
  have hShownSets : first.shown = second.shown :=
    Std.ExtTreeSet.ext_contains hShown
  have hIndex : first.index = second.index := by
    apply PlacementIndex.ext
    intro tile group
    apply Share.ext_positions
    intro kind
    cases kind with
    | marks => exact congrFun (congrArg Holding.positions (hMarks group)) tile
    | lines => exact congrFun (congrArg Holding.positions (hLines group)) tile
  cases first
  cases second
  simp_all

variable [Pinned M] [Traced L]

/-- No edit changes which levels there are, so a later edit writes the same positions as an
earlier one would have. -/
theorem pyramid_of_apply {overlay next : Overlay M L} {edit : Edit M L}
    (hNext : overlay.apply edit = .ok next) : next.pyramid = overlay.pyramid := by
  have hPyramid := congrArg Scene.pyramid (scene_of_apply hNext)
  cases edit <;> exact hPyramid

/-- One edit leaves of a group's marks what it writes, or leaves them alone. The index and the
collections are read together, so they cannot come apart. -/
theorem markHolding_of_apply {overlay next : Overlay M L} {edit : Edit M L}
    (hNext : overlay.apply edit = .ok next) (group : Group) :
    next.markHolding group =
      (edit.markHolding? overlay.pyramid group).getD (overlay.markHolding group) := by
  cases edit with
  | clear other =>
      cases hNext
      exact Holding.of_remove overlay.markSets .marks overlay.index other group
  | setMarks other marks =>
      obtain ⟨index, hIndex, rfl⟩ := setMarks_eq_ok_iff.mp hNext
      exact Holding.of_replace overlay.pyramid.tilesAt_places hIndex overlay.markSets group
  | setLines other lines =>
      obtain ⟨index, hIndex, rfl⟩ := setLines_eq_ok_iff.mp hNext
      have hKind : Share.Kind.lines ≠ .marks := by decide
      exact Holding.of_replace_of_ne hKind overlay.pyramid.tilesAlong_places hIndex
        overlay.markSets group
  | setShown other shown =>
      cases hNext
      rfl

theorem lineHolding_of_apply {overlay next : Overlay M L} {edit : Edit M L}
    (hNext : overlay.apply edit = .ok next) (group : Group) :
    next.lineHolding group =
      (edit.lineHolding? overlay.pyramid group).getD (overlay.lineHolding group) := by
  cases edit with
  | clear other =>
      cases hNext
      exact Holding.of_remove overlay.lineSets .lines overlay.index other group
  | setMarks other marks =>
      obtain ⟨index, hIndex, rfl⟩ := setMarks_eq_ok_iff.mp hNext
      have hKind : Share.Kind.marks ≠ .lines := by decide
      exact Holding.of_replace_of_ne hKind overlay.pyramid.tilesAt_places hIndex
        overlay.lineSets group
  | setLines other lines =>
      obtain ⟨index, hIndex, rfl⟩ := setLines_eq_ok_iff.mp hNext
      exact Holding.of_replace overlay.pyramid.tilesAlong_places hIndex overlay.lineSets group
  | setShown other shown =>
      cases hNext
      rfl

theorem isShown_of_apply {overlay next : Overlay M L} {edit : Edit M L}
    (hNext : overlay.apply edit = .ok next) (group : Group) :
    next.isShown group = (edit.shown? group).getD (overlay.isShown group) := by
  cases edit with
  | clear other =>
      cases hNext
      by_cases hGroup : other = group
      · simp [isShown, Edit.shown?, clear, hGroup]
      · simp [isShown, Edit.shown?, clear, Std.ExtTreeSet.contains_erase, hGroup]
  | setMarks other marks =>
      obtain ⟨index, _, rfl⟩ := setMarks_eq_ok_iff.mp hNext
      rfl
  | setLines other lines =>
      obtain ⟨index, _, rfl⟩ := setLines_eq_ok_iff.mp hNext
      rfl
  | setShown other shown =>
      cases hNext
      by_cases hGroup : other = group <;> cases shown <;>
        simp [isShown, Edit.shown?, setShown, Std.ExtTreeSet.contains_insert,
          Std.ExtTreeSet.contains_erase, hGroup]

theorem applyAll_concat (overlay : Overlay M L) (edits : List (Edit M L)) (edit : Edit M L) :
    overlay.applyAll (edits ++ [edit]) = (do (← overlay.applyAll edits).apply edit) := by
  rw [applyAll, List.foldlM_append]
  simp [applyAll]

theorem pyramid_of_applyAll {overlay final : Overlay M L} {edits : List (Edit M L)}
    (hFinal : overlay.applyAll edits = .ok final) : final.pyramid = overlay.pyramid := by
  induction edits generalizing overlay with
  | nil =>
      cases hFinal
      rfl
  | cons edit later ih =>
      obtain ⟨next, hNext, hLater⟩ := Traversal.bind_eq_ok_iff.mp hFinal
      exact (ih hLater).trans (pyramid_of_apply hNext)

/-- A facet is as its last writer left it, or as it was if nothing was written. The last edit
decides if it affects the facet, and otherwise those before it do. Stated for any view of an
overlay that edits decide about in this way. -/
theorem view_of_applyAll {View : Type} {group : Group} {facet : Facet}
    {view : Overlay M L → View} {written : Pyramid → Edit M L → Option View}
    (hWritten : ∀ pyramid edit, (written pyramid edit).isSome = edit.affects group facet)
    (hStep : ∀ {overlay next : Overlay M L} {edit : Edit M L}, overlay.apply edit = .ok next →
      view next = (written overlay.pyramid edit).getD (view overlay))
    {overlay final : Overlay M L} {edits : List (Edit M L)}
    (hFinal : overlay.applyAll edits = .ok final) :
    view final =
      ((lastWriter edits group facet).bind (written overlay.pyramid)).getD (view overlay) := by
  induction edits using List.reverseRecOn generalizing final with
  | nil =>
      cases hFinal
      rfl
  | append_singleton edits edit ih =>
      rw [applyAll_concat] at hFinal
      obtain ⟨prior, hPrior, hLast⟩ := Traversal.bind_eq_ok_iff.mp hFinal
      rw [hStep hLast, pyramid_of_applyAll hPrior, lastWriter_concat,
        ← hWritten overlay.pyramid edit]
      cases hLeft : written overlay.pyramid edit with
      | none => exact ih hPrior
      | some left => rw [Option.isSome_some, if_pos rfl, Option.bind_some, hLeft]; rfl

/-- After a queue the marks of a group, with their positions in every tile, are those that the
last writer of the marks leaves. -/
theorem markHolding_of_applyAll {overlay final : Overlay M L} {edits : List (Edit M L)}
    (hFinal : overlay.applyAll edits = .ok final) (group : Group) :
    final.markHolding group =
      ((lastWriter edits group .marks).bind (Edit.markHolding? overlay.pyramid group)).getD
        (overlay.markHolding group) :=
  view_of_applyAll (fun pyramid => Edit.isSome_markHolding? pyramid group)
    (fun hNext => markHolding_of_apply hNext group) hFinal

theorem lineHolding_of_applyAll {overlay final : Overlay M L} {edits : List (Edit M L)}
    (hFinal : overlay.applyAll edits = .ok final) (group : Group) :
    final.lineHolding group =
      ((lastWriter edits group .lines).bind (Edit.lineHolding? overlay.pyramid group)).getD
        (overlay.lineHolding group) :=
  view_of_applyAll (fun pyramid => Edit.isSome_lineHolding? pyramid group)
    (fun hNext => lineHolding_of_apply hNext group) hFinal

theorem isShown_of_applyAll {overlay final : Overlay M L} {edits : List (Edit M L)}
    (hFinal : overlay.applyAll edits = .ok final) (group : Group) :
    final.isShown group =
      ((lastWriter edits group .shown).bind (Edit.shown? group)).getD (overlay.isShown group) :=
  view_of_applyAll (fun _ => Edit.isSome_shown? group)
    (fun hNext => isShown_of_apply hNext group) hFinal

/-- What a queue leaves of an overlay: each facet of each group is as the last writer of the facet
leaves it, or as it was if the queue has no writer of it. -/
structure LastWritten (overlay : Overlay M L) (edits : List (Edit M L)) (final : Overlay M L) :
    Prop where
  pyramid_eq : final.pyramid = overlay.pyramid
  markHolding_eq : ∀ group, final.markHolding group =
    ((lastWriter edits group .marks).bind (Edit.markHolding? overlay.pyramid group)).getD
      (overlay.markHolding group)
  lineHolding_eq : ∀ group, final.lineHolding group =
    ((lastWriter edits group .lines).bind (Edit.lineHolding? overlay.pyramid group)).getD
      (overlay.lineHolding group)
  isShown_eq : ∀ group, final.isShown group =
    ((lastWriter edits group .shown).bind (Edit.shown? group)).getD (overlay.isShown group)

/-- Carrying out a queue leaves every facet to its last writer, from any overlay and through
any edits in between. -/
theorem lastWritten_of_applyAll {overlay final : Overlay M L} {edits : List (Edit M L)}
    (hFinal : overlay.applyAll edits = .ok final) : overlay.LastWritten edits final where
  pyramid_eq := pyramid_of_applyAll hFinal
  markHolding_eq := markHolding_of_applyAll hFinal
  lineHolding_eq := lineHolding_of_applyAll hFinal
  isShown_eq := isShown_of_applyAll hFinal

/-- The last writers and the overlay before them leave only one overlay. This is what makes
queues exchangeable that differ in everything else. -/
theorem LastWritten.eq {overlay final other : Overlay M L} {first second : List (Edit M L)}
    (hFinal : overlay.LastWritten first final) (hOther : overlay.LastWritten second other)
    (hLast : ∀ group facet, lastWriter first group facet = lastWriter second group facet) :
    other = final := by
  apply ext_of_facets
  · rw [hOther.pyramid_eq, hFinal.pyramid_eq]
  · intro group
    rw [hOther.markHolding_eq, hFinal.markHolding_eq, hLast]
  · intro group
    rw [hOther.lineHolding_eq, hFinal.lineHolding_eq, hLast]
  · intro group
    rw [hOther.isShown_eq, hFinal.isShown_eq, hLast]

/-- Queues with the same last writers lead to one and the same overlay, from any overlay that
both begin with. -/
theorem applyAll_eq_of_lastWriter_eq (overlay : Overlay M L) {first second : List (Edit M L)}
    (hFirst : ∀ edit ∈ first, edit.Indexable) (hSecond : ∀ edit ∈ second, edit.Indexable)
    (hLast : ∀ group facet, lastWriter first group facet = lastWriter second group facet) :
    ∃ final, overlay.applyAll first = .ok final ∧ overlay.applyAll second = .ok final := by
  obtain ⟨final, hFinal⟩ := overlay.exists_applyAll hFirst
  obtain ⟨other, hOther⟩ := overlay.exists_applyAll hSecond
  have hEqual : other = final :=
    (lastWritten_of_applyAll hFinal).eq (lastWritten_of_applyAll hOther) hLast
  exact ⟨final, hFinal, hEqual ▸ hOther⟩

/-- The last writer wins, facet by facet, from any overlay. Queues in which every facet of
every group has the same last writer, or none in both, lead to one and the same overlay:
the same collections under the same groups, the same shown groups and the same index. So
it does not matter how queues for separate groups are interleaved, or whether overwritten
edits are carried out at all. The overlay that a queue leads to has of each facet what the
last writer leaves, and what was there before where the queue writes nothing. -/
theorem applyAll_last_writer_wins (overlay : Overlay M L) :
    (∀ first second : List (Edit M L),
      (∀ edit ∈ first, edit.Indexable) → (∀ edit ∈ second, edit.Indexable) →
      (∀ group facet, lastWriter first group facet = lastWriter second group facet) →
      ∃ final, overlay.applyAll first = .ok final ∧ overlay.applyAll second = .ok final) ∧
    (∀ (queues : List (List (Edit M L))) (first second : List (Edit M L)),
      (∀ queue ∈ queues, ∀ edit ∈ queue, edit.Indexable) →
      (queues.Pairwise fun left right =>
        ∀ edit ∈ left, ∀ other ∈ right, edit.group ≠ other.group) →
      Interleaving queues first → Interleaving queues second →
      ∃ final, overlay.applyAll first = .ok final ∧ overlay.applyAll second = .ok final) ∧
    (∀ kept queue : List (Edit M L), (∀ edit ∈ queue, edit.Indexable) →
      DropsOverwritten kept queue →
      ∃ final, overlay.applyAll kept = .ok final ∧ overlay.applyAll queue = .ok final) ∧
    ∀ edits : List (Edit M L), (∀ edit ∈ edits, edit.Indexable) →
      ∃ final, overlay.applyAll edits = .ok final ∧ overlay.LastWritten edits final := by
  refine ⟨?_, ?_, ?_, ?_⟩
  · intro first second hFirst hSecond hLast
    exact overlay.applyAll_eq_of_lastWriter_eq hFirst hSecond hLast
  · intro queues first second hQueues hApart hFirst hSecond
    have hIndexable {merged : List (Edit M L)} (hMerged : Interleaving queues merged) :
        ∀ edit ∈ merged, edit.Indexable := by
      intro edit hEdit
      obtain ⟨queue, hQueue, hFound⟩ := hMerged.exists_queue hEdit
      exact hQueues queue hQueue edit hFound
    exact overlay.applyAll_eq_of_lastWriter_eq (hIndexable hFirst) (hIndexable hSecond)
      (lastWriter_of_interleaving hFirst hSecond hApart)
  · intro kept queue hQueue hDrops
    exact overlay.applyAll_eq_of_lastWriter_eq
      (fun edit hEdit => hQueue edit (hDrops.sublist.subset hEdit)) hQueue hDrops.lastWriter_eq
  · intro edits hEdits
    obtain ⟨final, hFinal⟩ := overlay.exists_applyAll hEdits
    exact ⟨final, hFinal, lastWritten_of_applyAll hFinal⟩

/-- The marks that this queue starts with and the clearing after them are overwritten. -/
def firstQueue : List (Edit Point (List Point)) :=
  [.setMarks ⟨1⟩ #[⟨10, 10⟩], .clear ⟨1⟩, .setLines ⟨1⟩ #[[⟨10, 10⟩, ⟨400, 10⟩]],
    .setMarks ⟨1⟩ #[⟨-10, 10⟩], .setShown ⟨1⟩ true]

/-- Edits of another group alone, which bring a line and an empty collection of marks. -/
def secondQueue : List (Edit Point (List Point)) :=
  [.setLines ⟨2⟩ #[[⟨10, 10⟩, ⟨10, 400⟩]], .setMarks ⟨2⟩ #[]]

/-- The two queues commute, and the first one may do without the edits that it overwrites. It
leaves its group shown with the last marks, and the other group untouched. -/
theorem applyAll_twoQueues :
    (∃ final, (empty {}).applyAll (firstQueue ++ secondQueue) = .ok final ∧
      (empty {}).applyAll (secondQueue ++ firstQueue) = .ok final) ∧
    (∃ final, (empty {}).applyAll (firstQueue.drop 2) = .ok final ∧
      (empty {}).applyAll firstQueue = .ok final) ∧
    ∃ final, (empty {}).applyAll firstQueue = .ok final ∧
      final.markSets[(⟨1⟩ : Group)]? = some #[⟨-10, 10⟩] ∧
      final.markSets[(⟨2⟩ : Group)]? = none ∧ final.isShown ⟨1⟩ := by
  have hFirst : ∀ edit ∈ firstQueue, edit.Indexable := by
    simp only [firstQueue, List.forall_mem_cons]
    refine ⟨?_, trivial, ?_, ?_, trivial, List.forall_mem_nil _⟩
    all_goals constructor <;> decide
  have hSecond : ∀ edit ∈ secondQueue, edit.Indexable := by
    simp only [secondQueue, List.forall_mem_cons]
    refine ⟨?_, ?_, List.forall_mem_nil _⟩
    all_goals constructor <;> decide
  have hApart : [firstQueue, secondQueue].Pairwise fun left right =>
      ∀ edit ∈ left, ∀ other ∈ right, edit.group ≠ other.group := by
    simp [firstQueue, secondQueue, Edit.group]
  have hDrops : DropsOverwritten (firstQueue.drop 2) firstQueue := by
    refine .drop (.drop (.keep _ (.keep _ (.keep _ .nil))) ?_) ?_
    all_goals
      intro group facet hAffects
      cases facet <;> simp_all [Edit.affects]
  obtain ⟨_, hInterleaved, hDropped, hWritten⟩ :=
    applyAll_last_writer_wins (empty {} : Overlay Point (List Point))
  refine ⟨?_, hDropped _ _ hFirst hDrops, ?_⟩
  · refine hInterleaved [firstQueue, secondQueue] _ _ ?_ hApart ?_ ?_
    · simpa using ⟨hFirst, hSecond⟩
    · exact .append firstQueue secondQueue
    · exact .append_swap firstQueue secondQueue
  · obtain ⟨final, hFinal, hLast⟩ := hWritten firstQueue hFirst
    exact ⟨final, hFinal, congrArg Holding.items (hLast.markHolding_eq ⟨1⟩),
      congrArg Holding.items (hLast.markHolding_eq ⟨2⟩), hLast.isShown_eq ⟨1⟩⟩

end Overlay

end MapOverlay
