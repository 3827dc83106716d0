import MapOverlay.Overlay.Edit
import Mathlib.Data.List.Basic

/-! Queues of edits and the edits in them that matter. An edit affects facets of its
group, and of all edits that affect a facet only the last one can be seen in the end.
Nothing here carries an edit out. -/
namespace MapOverlay

/-- What edits can change of a group independently of each other. Clearing a group changes all
three, every other edit changes one. -/
inductive Facet where
  | marks
  | lines
  | shown

variable {M L : Type}

/-- Whether an edit decides about one facet of one group. -/
def Edit.affects (group : Group) : Facet → Edit M L → Bool
  | _, .clear other => other = group
  | .marks, .setMarks other _ => other = group
  | .lines, .setLines other _ => other = group
  | .shown, .setShown other _ => other = group
  | _, _ => false

/-- An edit affects facets of its own group only, whichever facet it is. This is why queues for
separate groups cannot get in each other's way. -/
theorem Edit.group_of_affects {edit : Edit M L} {group : Group} {facet : Facet}
    (hAffects : edit.affects group facet) : edit.group = group := by
  cases facet <;> cases edit <;> simp_all [affects, Edit.group]

/-- The last edit of a queue that affects a facet, if there is any. -/
def lastWriter (edits : List (Edit M L)) (group : Group) (facet : Facet) : Option (Edit M L) :=
  edits.reverse.find? (Edit.affects group facet)

/-- Seen from the end of a queue, the last edit is the last writer if it affects the facet.
Otherwise the last writer is among the edits before it. -/
theorem lastWriter_concat (edits : List (Edit M L)) (edit : Edit M L) (group : Group)
    (facet : Facet) :
    lastWriter (edits ++ [edit]) group facet =
      if edit.affects group facet then some edit else lastWriter edits group facet := by
  rw [lastWriter, List.reverse_concat, List.find?_cons]
  cases edit.affects group facet <;> rfl

/-- Seen from the front, an edit is the last writer only if it affects the facet and no later
edit does. -/
theorem lastWriter_cons (edit : Edit M L) (edits : List (Edit M L)) (group : Group)
    (facet : Facet) :
    lastWriter (edit :: edits) group facet =
      (lastWriter edits group facet).or (if edit.affects group facet then some edit else none) := by
  rw [lastWriter, List.reverse_cons, List.find?_append, List.find?_singleton]
  rfl

/-- The edits that do not affect a facet do not bear on its last writer, which is the last of
those that do. -/
theorem lastWriter_eq_getLast? (edits : List (Edit M L)) (group : Group) (facet : Facet) :
    lastWriter edits group facet = (edits.filter (Edit.affects group facet)).getLast? := by
  rw [lastWriter, ← List.head?_filter, List.filter_reverse, List.head?_reverse]

/-- One list that takes the items of several queues, each queue in its order. -/
inductive Interleaving {Item : Type} : List (List Item) → List Item → Prop where
  | nil {queues : List (List Item)} (exhausted : ∀ queue ∈ queues, queue = []) :
      Interleaving queues []
  | cons {before after : List (List Item)} {first : Item} {queue merged : List Item}
      (later : Interleaving (before ++ queue :: after) merged) :
      Interleaving (before ++ (first :: queue) :: after) (first :: merged)

/-- Emptying one queue after the other is one way to interleave them, with the first queue in
front. -/
theorem Interleaving.append {Item : Type} (first second : List Item) :
    Interleaving [first, second] (first ++ second) := by
  induction first with
  | nil =>
      induction second with
      | nil => exact .nil (by simp)
      | cons item rest ih => exact @cons _ [[]] [] item rest _ ih
  | cons item rest ih => exact @cons _ [] [second] item rest _ ih

/-- The second queue may as well go first, since an interleaving is free to choose the queue
that it takes from. -/
theorem Interleaving.append_swap {Item : Type} (first second : List Item) :
    Interleaving [first, second] (second ++ first) := by
  induction second with
  | nil =>
      induction first with
      | nil => exact .nil (by simp)
      | cons item rest ih => exact @cons _ [] [[]] item rest _ ih
  | cons item rest ih => exact @cons _ [first] [] item rest _ ih

/-- An interleaving has no items of its own, each comes from one of the queues. -/
theorem Interleaving.exists_queue {Item : Type} {queues : List (List Item)} {merged : List Item}
    (interleaving : Interleaving queues merged) {item : Item} (hItem : item ∈ merged) :
    ∃ queue ∈ queues, item ∈ queue := by
  induction interleaving with
  | nil exhausted => cases hItem
  | @cons before after first queue merged later ih =>
      rcases List.mem_cons.mp hItem with rfl | hItem
      · exact ⟨item :: queue, List.mem_append_right _ List.mem_cons_self, List.mem_cons_self⟩
      · obtain ⟨source, hSource, hFound⟩ := ih hItem
        rcases List.mem_append.mp hSource with hSource | hSource
        · exact ⟨source, List.mem_append_left _ hSource, hFound⟩
        · rcases List.mem_cons.mp hSource with rfl | hSource
          · exact ⟨first :: source, List.mem_append_right _ List.mem_cons_self,
              List.mem_cons_of_mem _ hFound⟩
          · exact ⟨source, List.mem_append_right _ (List.mem_cons_of_mem _ hSource), hFound⟩

/-- Items that only one of the queues can have keep their order in an interleaving. When such
an item is taken, the queues in front of its own have none to offer, so it is also the first in
the list of all such items. -/
theorem Interleaving.filter_eq {Item : Type} {queues : List (List Item)} {merged : List Item}
    (interleaving : Interleaving queues merged) (test : Item → Bool)
    (hApart : queues.Pairwise fun left right =>
      ∀ first ∈ left, ∀ second ∈ right, ¬ (test first ∧ test second)) :
    merged.filter test = queues.flatMap (List.filter test) := by
  induction interleaving with
  | @nil queues exhausted =>
      rw [List.filter_nil, eq_comm, List.flatMap_eq_nil_iff]
      intro queue hQueue
      rw [exhausted queue hQueue, List.filter_nil]
  | @cons before after first queue merged later ih =>
      rw [List.pairwise_append, List.pairwise_cons] at hApart
      obtain ⟨hBefore, ⟨hQueue, hAfter⟩, hAcross⟩ := hApart
      have hRest := ih (by
        rw [List.pairwise_append, List.pairwise_cons]
        refine ⟨hBefore, ⟨?_, hAfter⟩, ?_⟩
        · intro right hRight item hItem
          exact hQueue right hRight item (List.mem_cons_of_mem _ hItem)
        · intro left hLeft right hRight item hItem other hOther
          rcases List.mem_cons.mp hRight with rfl | hRight
          · exact hAcross left hLeft _ List.mem_cons_self item hItem other
              (List.mem_cons_of_mem _ hOther)
          · exact hAcross left hLeft right (List.mem_cons_of_mem _ hRight) item hItem other hOther)
      rw [List.flatMap_append, List.flatMap_cons] at hRest ⊢
      rw [List.filter_cons, List.filter_cons]
      cases hTest : test first with
      | false => exact hRest
      | true =>
          have hNone : before.flatMap (List.filter test) = [] := by
            rw [List.flatMap_eq_nil_iff]
            intro left hLeft
            rw [List.filter_eq_nil_iff]
            intro item hItem hOther
            exact hAcross left hLeft _ List.mem_cons_self item hItem first List.mem_cons_self
              ⟨hOther, hTest⟩
          rw [hNone, List.nil_append] at hRest ⊢
          rw [if_pos rfl, if_pos rfl, hRest, List.cons_append]

/-- Interleaving queues for separate groups does not change what is written last. All edits
that affect one facet are in one queue, and they keep their order. -/
theorem lastWriter_of_interleaving {queues : List (List (Edit M L))}
    {first second : List (Edit M L)} (hFirst : Interleaving queues first)
    (hSecond : Interleaving queues second)
    (hApart : queues.Pairwise fun left right =>
      ∀ edit ∈ left, ∀ other ∈ right, edit.group ≠ other.group)
    (group : Group) (facet : Facet) :
    lastWriter first group facet = lastWriter second group facet := by
  have hAffects : queues.Pairwise fun left right => ∀ edit ∈ left, ∀ other ∈ right,
      ¬ (edit.affects group facet ∧ other.affects group facet) := by
    apply hApart.imp
    intro left right hGroups edit hEdit other hOther ⟨hLeft, hRight⟩
    apply hGroups edit hEdit other hOther
    rw [Edit.group_of_affects hLeft, Edit.group_of_affects hRight]
  rw [lastWriter_eq_getLast?, lastWriter_eq_getLast?, hFirst.filter_eq _ hAffects,
    hSecond.filter_eq _ hAffects]

/-- Everything that the edit decides about is decided again by a later one. -/
def Edit.Overwritten (edit : Edit M L) (later : List (Edit M L)) : Prop :=
  ∀ group facet, edit.affects group facet → ∃ other ∈ later, other.affects group facet

/-- The first list is the second one without some, or all, of its overwritten edits. -/
inductive DropsOverwritten : List (Edit M L) → List (Edit M L) → Prop where
  | nil : DropsOverwritten [] []
  | keep {kept queue : List (Edit M L)} (edit : Edit M L) (rest : DropsOverwritten kept queue) :
      DropsOverwritten (edit :: kept) (edit :: queue)
  | drop {kept queue : List (Edit M L)} {edit : Edit M L} (rest : DropsOverwritten kept queue)
      (overwritten : edit.Overwritten queue) : DropsOverwritten kept (edit :: queue)

theorem DropsOverwritten.sublist {kept queue : List (Edit M L)}
    (drops : DropsOverwritten kept queue) : kept.Sublist queue := by
  induction drops with
  | nil => exact List.Sublist.refl []
  | keep edit rest ih => exact ih.cons_cons edit
  | drop rest overwritten ih => exact ih.cons _

/-- An overwritten edit is nowhere the last writer, so a queue without it has the same last
writers. -/
theorem DropsOverwritten.lastWriter_eq {kept queue : List (Edit M L)}
    (drops : DropsOverwritten kept queue) (group : Group) (facet : Facet) :
    lastWriter kept group facet = lastWriter queue group facet := by
  induction drops with
  | nil => rfl
  | keep edit rest ih => rw [lastWriter_cons, lastWriter_cons, ih]
  | @drop kept queue edit rest overwritten ih =>
      rw [lastWriter_cons, ih]
      cases hAffects : edit.affects group facet with
      | false => rw [if_neg Bool.false_ne_true, Option.or_none]
      | true =>
          obtain ⟨other, hOther, hWrites⟩ := overwritten group facet hAffects
          have hSome : (lastWriter queue group facet).isSome :=
            List.find?_isSome.mpr ⟨other, List.mem_reverse.mpr hOther, hWrites⟩
          obtain ⟨last, hLast⟩ := Option.isSome_iff_exists.mp hSome
          rw [hLast, Option.some_or]

end MapOverlay
