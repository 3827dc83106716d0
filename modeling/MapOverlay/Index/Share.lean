/-! What one group has in one tile. Members are named by their position in the
group's collections, counted from zero, so the index never holds a second copy. -/
namespace MapOverlay

/-- The positions of a group's marks and lines that one tile holds. -/
structure Share where
  marks : List Nat
  lines : List Nat
deriving DecidableEq

namespace Share

instance : EmptyCollection Share where
  emptyCollection := ⟨[], []⟩

@[simp] theorem marks_empty : (∅ : Share).marks = [] :=
  rfl

@[simp] theorem lines_empty : (∅ : Share).lines = [] :=
  rfl

def isEmpty (share : Share) : Bool :=
  share.marks.isEmpty && share.lines.isEmpty

/-- The kinds of annotations whose positions are kept apart. -/
inductive Kind where
  | marks
  | lines
deriving DecidableEq

/-- The positions of one kind. -/
def positions (share : Share) : Kind → List Nat
  | .marks => share.marks
  | .lines => share.lines

/-- Exchanges the positions of one kind. -/
def withPositions (share : Share) (kind : Kind) (positions : List Nat) : Share :=
  match kind with
  | .marks => { share with marks := positions }
  | .lines => { share with lines := positions }

/-- Puts a position before those of its kind that are already there. -/
def cons (kind : Kind) (position : Nat) (share : Share) : Share :=
  share.withPositions kind (position :: share.positions kind)

/-- A share has nothing besides the positions of the two kinds, so two shares that agree on both
are the same. -/
theorem ext_positions {first second : Share}
    (hPositions : ∀ kind, first.positions kind = second.positions kind) : first = second := by
  cases first
  cases second
  rw [mk.injEq]
  exact ⟨hPositions .marks, hPositions .lines⟩

@[simp] theorem positions_empty (kind : Kind) : (∅ : Share).positions kind = [] := by
  cases kind <;> rfl

/-- What was put in is what is found, and the positions of the other kind are as they were. -/
theorem positions_withPositions (share : Share) (kind other : Kind) (positions : List Nat) :
    (share.withPositions kind positions).positions other =
      if kind = other then positions else share.positions other := by
  cases kind <;> cases other <;> rfl

@[simp] theorem withPositions_withPositions (share : Share) (kind : Kind) (early late : List Nat) :
    (share.withPositions kind early).withPositions kind late = share.withPositions kind late := by
  cases kind <;> rfl

theorem withPositions_positions (share : Share) (kind : Kind) :
    share.withPositions kind (share.positions kind) = share := by
  cases kind <;> rfl

@[simp] theorem withPositions_empty (kind : Kind) : (∅ : Share).withPositions kind [] = ∅ := by
  cases kind <;> rfl

theorem isEmpty_iff (share : Share) : share.isEmpty ↔ share = ∅ := by
  obtain ⟨marks, lines⟩ := share
  have hEmpty : (∅ : Share) = ⟨[], []⟩ := rfl
  simp [isEmpty, hEmpty]

theorem ne_empty_iff (share : Share) :
    share ≠ ∅ ↔ (∃ position, position ∈ share.marks) ∨ ∃ position, position ∈ share.lines := by
  rw [ne_eq, ← isEmpty_iff, isEmpty, Bool.and_eq_true, Decidable.not_and_iff_or_not,
    Bool.not_eq_true, Bool.not_eq_true, List.isEmpty_eq_false_iff_exists_mem,
    List.isEmpty_eq_false_iff_exists_mem]

/-- Positions that are put in one by one, the last of them first, stand in their order before
those that were there. -/
theorem foldr_cons (kind : Kind) (positions : List Nat) (share : Share) :
    positions.foldr (cons kind) share =
      share.withPositions kind (positions ++ share.positions kind) := by
  induction positions with
  | nil => exact (share.withPositions_positions kind).symm
  | cons first rest ih =>
      rw [List.foldr_cons, ih, cons, positions_withPositions, if_pos rfl,
        withPositions_withPositions, List.cons_append]

end Share

end MapOverlay
