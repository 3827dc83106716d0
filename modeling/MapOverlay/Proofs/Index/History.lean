import Mathlib.Data.List.Induction
import MapOverlay.Proofs.Index.Replacement

/-! The index as a function of its history. A history is any list of changes, and
replacements in it may name different pyramids. Only the last collections that a group
was given and did not lose again matter for what the index holds. -/
namespace MapOverlay

/-- One change of an index, with the pyramid that a replacement is made for. -/
inductive IndexEdit (M L : Type) where
  | replaceMarks (group : Group) (marks : Array M) (pyramid : Pyramid)
  | replaceLines (group : Group) (lines : Array L) (pyramid : Pyramid)
  | remove (group : Group)
  | clear

variable {M L : Type}

namespace IndexEdit

/-- What a change leaves a group as its marks, or nothing if it does not touch them. -/
def marksOf? (group : Group) : IndexEdit M L → Option (Option (Array M × Pyramid))
  | replaceMarks other marks pyramid =>
      if other = group then some (some (marks, pyramid)) else none
  | replaceLines _ _ _ => none
  | remove other => if other = group then some none else none
  | clear => some none

/-- What a change leaves a group as its lines, or nothing if it does not touch them. -/
def linesOf? (group : Group) : IndexEdit M L → Option (Option (Array L × Pyramid))
  | replaceMarks _ _ _ => none
  | replaceLines other lines pyramid =>
      if other = group then some (some (lines, pyramid)) else none
  | remove other => if other = group then some none else none
  | clear => some none

variable {group : Group} {edit : IndexEdit M L} {pyramid : Pyramid}

/-- Only a replacement leaves marks, and it leaves those that it was made with. -/
theorem eq_of_marksOf? {marks : Array M}
    (hLeft : edit.marksOf? group = some (some (marks, pyramid))) :
    edit = replaceMarks group marks pyramid := by
  cases edit <;> grind [marksOf?]

theorem eq_of_linesOf? {lines : Array L}
    (hLeft : edit.linesOf? group = some (some (lines, pyramid))) :
    edit = replaceLines group lines pyramid := by
  cases edit <;> grind [linesOf?]

end IndexEdit

/-- The marks of the last replacement for a group, with its pyramid, unless the group was
removed or the index cleared after it. Replacements of lines in between make no difference. -/
def lastMarks (history : List (IndexEdit M L)) (group : Group) : Option (Array M × Pyramid) :=
  (history.reverse.findSome? (IndexEdit.marksOf? group)).join

/-- The lines of the last replacement for a group, under the same rule. -/
def lastLines (history : List (IndexEdit M L)) (group : Group) : Option (Array L × Pyramid) :=
  (history.reverse.findSome? (IndexEdit.linesOf? group)).join

section Last

variable {Placed : Type} {left : IndexEdit M L → Option (Option Placed)}

/-- The last change that leaves anything decides, and before it the rest of the history does.
Stated for marks and lines at once. -/
theorem last_concat (history : List (IndexEdit M L)) (edit : IndexEdit M L) :
    ((history ++ [edit]).reverse.findSome? left).join =
      (left edit).getD (history.reverse.findSome? left).join := by
  rw [List.reverse_concat, List.findSome?_cons]
  cases left edit <;> rfl

/-- A collection that a history leaves was left by one of its changes. -/
theorem exists_of_last {history : List (IndexEdit M L)} {placed : Placed}
    (hLast : (history.reverse.findSome? left).join = some placed) :
    ∃ edit ∈ history, left edit = some (some placed) := by
  rw [Option.join_eq_some_iff] at hLast
  obtain ⟨edit, hEdit, hLeft⟩ := List.exists_of_findSome?_eq_some hLast
  exact ⟨edit, List.mem_reverse.mp hEdit, hLeft⟩

end Last

/-- One more change leaves a group the marks that it decides on, or those of the history
before. -/
theorem lastMarks_concat (history : List (IndexEdit M L)) (edit : IndexEdit M L) (group : Group) :
    lastMarks (history ++ [edit]) group = (edit.marksOf? group).getD (lastMarks history group) :=
  last_concat history edit

theorem lastLines_concat (history : List (IndexEdit M L)) (edit : IndexEdit M L) (group : Group) :
    lastLines (history ++ [edit]) group = (edit.linesOf? group).getD (lastLines history group) :=
  last_concat history edit

/-- Marks that survive a history were brought by one of its replacements, as they are. -/
theorem mem_of_lastMarks {history : List (IndexEdit M L)} {group : Group} {marks : Array M}
    {pyramid : Pyramid} (hLast : lastMarks history group = some (marks, pyramid)) :
    .replaceMarks group marks pyramid ∈ history := by
  obtain ⟨edit, hEdit, hLeft⟩ := exists_of_last hLast
  rwa [IndexEdit.eq_of_marksOf? hLeft] at hEdit

theorem mem_of_lastLines {history : List (IndexEdit M L)} {group : Group} {lines : Array L}
    {pyramid : Pyramid} (hLast : lastLines history group = some (lines, pyramid)) :
    .replaceLines group lines pyramid ∈ history := by
  obtain ⟨edit, hEdit, hLeft⟩ := exists_of_last hLast
  rwa [IndexEdit.eq_of_linesOf? hLeft] at hEdit

variable [Pinned M] [Traced L]

/-- A change that can be carried out: its points are finite and its positions fit. -/
def IndexEdit.Indexable : IndexEdit M L → Prop
  | replaceMarks _ marks _ => MarksIndexable marks
  | replaceLines _ lines _ => LinesIndexable lines
  | remove _ => True
  | clear => True

section Surviving

variable {Item : Type} {points : Item → List Point} {tile : Tile}

/-- The positions in a tile of a surviving collection, none if there is no collection. -/
def surviving (points : Item → List Point) (tile : Tile) :
    Option (Array Item × Pyramid) → List Nat
  | some (items, pyramid) => pyramid.positions tile points items
  | none => []

theorem pairwise_surviving (placed : Option (Array Item × Pyramid)) :
    (surviving points tile placed).Pairwise (· < ·) := by
  cases placed with
  | none => exact List.Pairwise.nil
  | some placed => exact placed.2.pairwise_positions _ _ _

/-- A position survives in a tile if the collection that survives has an item there of which
the tile shows a point. -/
theorem mem_surviving {placed : Option (Array Item × Pyramid)} {position : Nat} :
    position ∈ surviving points tile placed ↔
      ∃ items pyramid item, placed = some (items, pyramid) ∧ items[position]? = some item ∧
        ∃ point ∈ points item, pyramid.Shows tile point := by
  cases placed with
  | none => simp [surviving]
  | some placed => simp [surviving, Pyramid.mem_positions, Prod.ext_iff]

end Surviving

omit [Traced L] in
theorem mem_survivingMarks {tile : Tile} {placed : Option (Array M × Pyramid)} {position : Nat} :
    position ∈ surviving (fun mark => [Pinned.pivot mark]) tile placed ↔
      ∃ marks pyramid mark, placed = some (marks, pyramid) ∧ marks[position]? = some mark ∧
        pyramid.Shows tile (Pinned.pivot mark) := by
  simp only [mem_surviving, List.mem_singleton, exists_eq_left]

namespace PlacementIndex

/-- Carries out one change of an index. Clearing and removing cannot fail. -/
def change (index : PlacementIndex) : IndexEdit M L → Except Fault PlacementIndex
  | .replaceMarks group marks pyramid => index.replaceMarks pyramid group marks
  | .replaceLines group lines pyramid => index.replaceLines pyramid group lines
  | .remove group => .ok (index.remove group)
  | .clear => .ok ∅

/-- The index after a history, from an empty one. -/
def replay (history : List (IndexEdit M L)) : Except Fault PlacementIndex :=
  history.foldlM change ∅

theorem replay_concat (history : List (IndexEdit M L)) (edit : IndexEdit M L) :
    replay (history ++ [edit]) = (do (← replay history).change edit) := by
  rw [replay, List.foldlM_append]
  simp [replay]

/-- A change can be carried out exactly if the collection that it brings can be indexed. What
the index holds already makes no difference. -/
theorem exists_change_iff (index : PlacementIndex) {edit : IndexEdit M L} :
    (∃ next, index.change edit = .ok next) ↔ edit.Indexable := by
  cases edit with
  | replaceMarks group marks pyramid => exact index.exists_replaceMarks_iff pyramid group
  | replaceLines group lines pyramid => exact index.exists_replaceLines_iff pyramid group
  | remove group => exact iff_of_true ⟨_, rfl⟩ trivial
  | clear => exact iff_of_true ⟨_, rfl⟩ trivial

/-- A change gives each share what it leaves of marks and lines and keeps the rest. This is the
step from which everything about histories follows. -/
theorem share_of_change {index next : PlacementIndex} {edit : IndexEdit M L}
    (hNext : index.change edit = .ok next) (tile : Tile) (group : Group) :
    next.share tile group =
      { marks := ((edit.marksOf? group).map (surviving (fun mark => [Pinned.pivot mark]) tile)).getD
          (index.share tile group).marks
        lines := ((edit.linesOf? group).map (surviving Traced.vertices tile)).getD
          (index.share tile group).lines } := by
  cases edit with
  | replaceMarks other marks pyramid =>
      rw [share_of_replaceMarks hNext]
      by_cases hGroup : other = group
      · subst hGroup
        simp [IndexEdit.marksOf?, IndexEdit.linesOf?, surviving, Pyramid.markPositions]
      · simp [IndexEdit.marksOf?, IndexEdit.linesOf?, hGroup]
  | replaceLines other lines pyramid =>
      rw [share_of_replaceLines hNext]
      by_cases hGroup : other = group
      · subst hGroup
        simp [IndexEdit.marksOf?, IndexEdit.linesOf?, surviving, Pyramid.linePositions]
      · simp [IndexEdit.marksOf?, IndexEdit.linesOf?, hGroup]
  | remove other =>
      cases hNext
      rw [share_remove]
      by_cases hGroup : other = group
      · simp only [hGroup, if_true, IndexEdit.marksOf?, IndexEdit.linesOf?]
        rfl
      · simp [IndexEdit.marksOf?, IndexEdit.linesOf?, hGroup]
  | clear =>
      cases hNext
      rw [share_empty]
      rfl

/-- A history can be carried out if each of its changes can, and only then. -/
theorem exists_replay_iff {history : List (IndexEdit M L)} :
    (∃ index, replay history = .ok index) ↔ ∀ edit ∈ history, edit.Indexable := by
  induction history using List.reverseRecOn with
  | nil => exact iff_of_true ⟨∅, rfl⟩ (List.forall_mem_nil _)
  | append_singleton history edit ih =>
      simp only [replay_concat, Traversal.bind_eq_ok_iff, List.forall_mem_append,
        List.forall_mem_singleton, ← ih]
      constructor
      · rintro ⟨next, index, hReplay, hNext⟩
        exact ⟨⟨index, hReplay⟩, index.exists_change_iff.mp ⟨next, hNext⟩⟩
      · rintro ⟨⟨index, hReplay⟩, hEdit⟩
        obtain ⟨next, hNext⟩ := index.exists_change_iff.mpr hEdit
        exact ⟨next, index, hReplay, hNext⟩

theorem exists_replay {history : List (IndexEdit M L)}
    (hIndexable : ∀ edit ∈ history, edit.Indexable) : ∃ index, replay history = .ok index :=
  exists_replay_iff.mpr hIndexable

/-- After a history, every share has the positions of the surviving collections, by induction
on the history from its end. -/
theorem share_of_replay {history : List (IndexEdit M L)} {index : PlacementIndex}
    (hReplay : replay history = .ok index) (tile : Tile) (group : Group) :
    index.share tile group =
      { marks := surviving (fun mark => [Pinned.pivot mark]) tile (lastMarks history group)
        lines := surviving Traced.vertices tile (lastLines history group) } := by
  induction history using List.reverseRecOn generalizing index with
  | nil =>
      cases hReplay
      exact share_empty tile group
  | append_singleton history edit ih =>
      rw [replay_concat] at hReplay
      obtain ⟨prior, hPrior, hChange⟩ := Traversal.bind_eq_ok_iff.mp hReplay
      rw [share_of_change hChange, ih hPrior, lastMarks_concat, lastLines_concat]
      cases edit.marksOf? group <;> cases edit.linesOf? group <;> rfl

/-- Where the same collections survive, two histories lead to one and the same index, as an
index is determined by its shares. -/
theorem replay_eq_of_last_eq {first second : List (IndexEdit M L)} {index other : PlacementIndex}
    (hFirst : replay first = .ok index) (hSecond : replay second = .ok other)
    (hMarks : ∀ group, lastMarks second group = lastMarks first group)
    (hLines : ∀ group, lastLines second group = lastLines first group) : other = index := by
  apply PlacementIndex.ext
  intro tile group
  rw [share_of_replay hSecond, hMarks, hLines, share_of_replay hFirst]

/-- After a history, a group has a share of a tile exactly if one of its surviving collections
has an item with a point that the tile shows. -/
theorem isSome_share?_of_replay {history : List (IndexEdit M L)} {index : PlacementIndex}
    (hReplay : replay history = .ok index) (tile : Tile) (group : Group) :
    (index.share? tile group).isSome ↔
      (∃ marks pyramid, lastMarks history group = some (marks, pyramid) ∧
        ∃ mark ∈ marks, pyramid.Shows tile (Pinned.pivot mark)) ∨
      ∃ lines pyramid, lastLines history group = some (lines, pyramid) ∧
        ∃ line ∈ lines, ∃ vertex ∈ Traced.vertices line, pyramid.Shows tile vertex := by
  rw [isSome_share?_iff, share_of_replay hReplay, Share.ne_empty_iff]
  simp only [mem_surviving, List.mem_singleton, exists_eq_left]
  constructor
  · rintro (⟨_, marks, pyramid, mark, hLast, hMark, hShows⟩ |
      ⟨_, lines, pyramid, line, hLast, hLine, hShows⟩)
    · exact Or.inl ⟨marks, pyramid, hLast, mark, Array.mem_of_getElem? hMark, hShows⟩
    · exact Or.inr ⟨lines, pyramid, hLast, line, Array.mem_of_getElem? hLine, hShows⟩
  · rintro (⟨marks, pyramid, hLast, mark, hMark, hShows⟩ |
      ⟨lines, pyramid, hLast, line, hLine, hShows⟩)
    · obtain ⟨position, hPosition⟩ := Array.mem_iff_getElem?.mp hMark
      exact Or.inl ⟨position, marks, pyramid, mark, hLast, hPosition, hShows⟩
    · obtain ⟨position, hPosition⟩ := Array.mem_iff_getElem?.mp hLine
      exact Or.inr ⟨position, lines, pyramid, line, hLast, hPosition, hShows⟩

/-- The index after a history is the canonical one of the surviving collections. A share
is present exactly where one of them has an item in the tile, and holds the positions of
those items, ascending and each once. No tile is kept without groups and no group without
positions, and any other history with the same survivors leads to the same index. -/
theorem replay_canonical (history : List (IndexEdit M L))
    (hIndexable : ∀ edit ∈ history, edit.Indexable) :
    ∃ index, replay history = .ok index ∧
      (∀ tile group,
        ((index.share? tile group).isSome ↔
          (∃ marks pyramid, lastMarks history group = some (marks, pyramid) ∧
            ∃ mark ∈ marks, pyramid.Shows tile (Pinned.pivot mark)) ∨
          ∃ lines pyramid, lastLines history group = some (lines, pyramid) ∧
            ∃ line ∈ lines, ∃ vertex ∈ Traced.vertices line, pyramid.Shows tile vertex) ∧
        ∀ share, index.share? tile group = some share →
          share.marks.Pairwise (· < ·) ∧
          (∀ position, position ∈ share.marks ↔
            ∃ marks pyramid mark, lastMarks history group = some (marks, pyramid) ∧
              marks[position]? = some mark ∧ pyramid.Shows tile (Pinned.pivot mark)) ∧
          share.lines.Pairwise (· < ·) ∧
          ∀ position, position ∈ share.lines ↔
            ∃ lines pyramid line, lastLines history group = some (lines, pyramid) ∧
              lines[position]? = some line ∧
              ∃ vertex ∈ Traced.vertices line, pyramid.Shows tile vertex) ∧
      (∀ tile ∈ index.tiles, index.groupsIn tile ≠ []) ∧
      (∀ tile, ∀ entry ∈ index.groupsIn tile, ¬ entry.2.isEmpty) ∧
      ∀ other : List (IndexEdit M L), (∀ edit ∈ other, edit.Indexable) →
        (∀ group, lastMarks other group = lastMarks history group) →
        (∀ group, lastLines other group = lastLines history group) →
        replay other = .ok index := by
  obtain ⟨index, hReplay⟩ := exists_replay hIndexable
  refine ⟨index, hReplay, ?_, ?_, ?_, ?_⟩
  · intro tile group
    refine ⟨isSome_share?_of_replay hReplay tile group, ?_⟩
    intro share hShare
    rw [share?_eq_some_iff, share_of_replay hReplay] at hShare
    obtain ⟨rfl, _⟩ := hShare
    exact ⟨pairwise_surviving _, fun _ => mem_survivingMarks, pairwise_surviving _,
      fun _ => mem_surviving⟩
  · intro tile hTile
    exact index.groupsIn_ne_nil_iff.mpr hTile
  · intro tile entry hEntry
    rw [Share.isEmpty_iff]
    exact (index.mem_groupsIn.mp hEntry).2
  · intro other hOther hMarks hLines
    obtain ⟨final, hFinal⟩ := exists_replay hOther
    rw [hFinal, replay_eq_of_last_eq hReplay hFinal hMarks hLines]

/-- A group whose marks and lines were placed for pyramids of different depth, one of
its collections replaced, beside a group that was removed. -/
def mixedHistory : List (IndexEdit Point (List Point)) :=
  [.replaceMarks ⟨1⟩ #[⟨100, 100⟩] { finest := ⟨5, by decide, by decide⟩ },
    .replaceLines ⟨1⟩ #[[⟨10, 10⟩, ⟨20, 20⟩, ⟨-10, 10⟩]] { finest := ⟨2, by decide, by decide⟩ },
    .replaceMarks ⟨2⟩ #[⟨10, 10⟩] {},
    .replaceMarks ⟨1⟩ #[⟨-10, 10⟩, ⟨10, 10⟩] { finest := Zoom.coarsest },
    .remove ⟨2⟩]

/-- The last marks of the first group count and not its earlier ones, its lines are still
there, and nothing is left of the removed group. -/
theorem replay_mixedHistory :
    (∀ edit ∈ mixedHistory, edit.Indexable) ∧
    ∃ index, replay mixedHistory = .ok index ∧
      (∃ share, index.share? ⟨Zoom.coarsest, 0, 0⟩ ⟨1⟩ = some share ∧
        1 ∈ share.marks ∧ 0 ∉ share.marks ∧ 0 ∈ share.lines) ∧
      index.share? ⟨Zoom.coarsest, 0, 0⟩ ⟨2⟩ = none := by
  have hIndexable : ∀ edit ∈ mixedHistory, edit.Indexable := by
    simp only [mixedHistory, List.forall_mem_cons]
    refine ⟨?_, ?_, ?_, ?_, trivial, List.forall_mem_nil _⟩
    all_goals constructor <;> decide
  obtain ⟨index, hReplay, hShares, _⟩ := replay_canonical mixedHistory hIndexable
  refine ⟨hIndexable, index, hReplay, ?_, ?_⟩
  · obtain ⟨hPresent, hShare⟩ := hShares ⟨Zoom.coarsest, 0, 0⟩ ⟨1⟩
    obtain ⟨share, hFound⟩ := Option.isSome_iff_exists.mp (hPresent.mpr (Or.inl ⟨_, _, rfl,
      ⟨10, 10⟩, by simp, by decide⟩))
    obtain ⟨_, hMarks, _, hLines⟩ := hShare share hFound
    refine ⟨share, hFound, ?_, ?_, ?_⟩
    · exact (hMarks 1).mpr ⟨_, _, _, rfl, rfl, by decide⟩
    · intro hMember
      obtain ⟨marks, pyramid, mark, hLast, hMark, hShows⟩ := (hMarks 0).mp hMember
      cases hLast
      cases hMark
      revert hShows
      decide
    · exact (hLines 0).mpr ⟨_, _, _, rfl, rfl, ⟨10, 10⟩, by decide, by decide⟩
  · rw [← Option.not_isSome_iff_eq_none, (hShares _ _).1]
    rintro (⟨_, _, hLast, _⟩ | ⟨_, _, hLast, _⟩)
    · cases hLast
    · cases hLast

end PlacementIndex

end MapOverlay
