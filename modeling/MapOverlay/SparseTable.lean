import Std.Data.ExtTreeMap

/-! Ordered tables that hold every key, almost all of them with the empty value.
Only nonempty values are stored, so a table is determined by what it reads at each
key: two ways of filling it that agree everywhere give one and the same table. -/
namespace MapOverlay

open Std

/-- A map that stores no empty value. What it reads at a key therefore says whether the key is
stored, and equal reads mean equal tables. -/
structure SparseTable (Key Value : Type) [Ord Key] [TransOrd Key] [EmptyCollection Value] where
  /-- The keys whose value is not empty. -/
  cells : ExtTreeMap Key Value
  cells_ne_empty : ∀ key : Key, cells[key]? ≠ some ∅

namespace SparseTable

variable {Key Value : Type} [Ord Key] [TransOrd Key] [EmptyCollection Value]

/-- The value at a key, empty where nothing is stored. -/
def read (table : SparseTable Key Value) (key : Key) : Value :=
  table.cells[key]?.getD ∅

/-- The stored value, with absence for the empty one. -/
def find? (table : SparseTable Key Value) (key : Key) : Option Value :=
  table.cells[key]?

/-- A table is determined by what it reads, since an empty value is never stored. -/
@[ext] theorem ext [LawfulEqOrd Key] {first second : SparseTable Key Value}
    (hRead : ∀ key, first.read key = second.read key) : first = second := by
  rcases first with ⟨firstCells, hFirst⟩
  rcases second with ⟨secondCells, hSecond⟩
  congr 1
  apply ExtTreeMap.ext_getElem?
  intro key
  have hKey := hRead key
  simp only [read] at hKey
  cases hf : firstCells[key]? <;> cases hs : secondCells[key]? <;> grind

instance [LawfulEqOrd Key] [DecidableEq Value] : DecidableEq (SparseTable Key Value) :=
  fun first second =>
    if h : first.cells = second.cells then
      .isTrue (by cases first; cases second; simp_all)
    else
      .isFalse fun hEq => h (congrArg cells hEq)

instance : EmptyCollection (SparseTable Key Value) where
  emptyCollection := ⟨∅, by simp⟩

@[simp] theorem read_empty (key : Key) : (∅ : SparseTable Key Value).read key = ∅ := by
  have hCells : (∅ : SparseTable Key Value).cells = ∅ := rfl
  simp [read, hCells]

/-- The number of keys with a nonempty value. -/
def size (table : SparseTable Key Value) : Nat :=
  table.cells.size

/-- The keys with a nonempty value, ascending. -/
def keys (table : SparseTable Key Value) : List Key :=
  table.cells.keys

/-- The nonempty values with their keys, ascending by key. -/
def toList (table : SparseTable Key Value) : List (Key × Value) :=
  table.cells.toList

/-- Leaves out the empty value. -/
def nonempty? [DecidableEq Value] (value : Value) : Option Value :=
  if value = ∅ then none else some value

theorem nonempty?_ne [DecidableEq Value] (value : Value) : nonempty? value ≠ some ∅ := by
  grind [nonempty?]

@[simp] theorem getD_nonempty? [DecidableEq Value] (value : Value) :
    (nonempty? value).getD ∅ = value := by
  grind [nonempty?]

/-- A value is found exactly if it is the one that is read and not empty. -/
theorem find?_eq_some_iff (table : SparseTable Key Value) {key : Key} {value : Value} :
    table.find? key = some value ↔ table.read key = value ∧ value ≠ ∅ := by
  have hStored := table.cells_ne_empty key
  simp only [find?, read]
  cases hCell : table.cells[key]? <;> grind

theorem nodup_keys (table : SparseTable Key Value) : table.keys.Nodup :=
  ExtTreeMap.nodup_keys

theorem toList_ordered (table : SparseTable Key Value) :
    table.toList.Pairwise fun first second => compare first.1 second.1 = .lt :=
  ExtTreeMap.ordered_keys_toList

theorem toList_eq_nil_iff (table : SparseTable Key Value) : table.toList = [] ↔ table = ∅ := by
  rw [toList, ExtTreeMap.toList_eq_nil_iff]
  constructor
  · intro hCells
    cases table
    subst hCells
    rfl
  · rintro rfl
    rfl

variable [LawfulEqOrd Key]

/-- A key is stored exactly if its value is not empty. -/
theorem mem_keys (table : SparseTable Key Value) {key : Key} :
    key ∈ table.keys ↔ table.read key ≠ ∅ := by
  have hStored := table.cells_ne_empty key
  simp only [keys, read, ExtTreeMap.mem_keys, ExtTreeMap.mem_iff_isSome_getElem?]
  cases hCell : table.cells[key]? <;> grind

theorem mem_toList (table : SparseTable Key Value) {key : Key} {value : Value} :
    (key, value) ∈ table.toList ↔ table.read key = value ∧ value ≠ ∅ := by
  rw [← find?_eq_some_iff]
  exact ExtTreeMap.mem_toList_iff_getElem?_eq_some

variable [DecidableEq Value]

/-- Changes the value at one key. -/
def update (table : SparseTable Key Value) (key : Key) (change : Value → Value) :
    SparseTable Key Value where
  cells := table.cells.alter key fun stored => nonempty? (change (stored.getD ∅))
  cells_ne_empty other := by
    rw [ExtTreeMap.getElem?_alter]
    split
    · exact nonempty?_ne _
    · exact table.cells_ne_empty other

/-- A change at one key is read there and nowhere else. If it leaves the empty value, the key
is no longer stored. -/
theorem read_update [DecidableEq Key] (table : SparseTable Key Value) (key other : Key)
    (change : Value → Value) :
    (table.update key change).read other =
      if key = other then change (table.read key) else table.read other := by
  simp only [read, update, ExtTreeMap.getElem?_alter, LawfulEqOrd.compare_eq_iff_eq]
  split <;> simp

/-- Changes the stored values at all keys alike. The empty value is never passed to
`change`, so a key without a value stays without one. -/
def mapStored (table : SparseTable Key Value) (change : Value → Value) :
    SparseTable Key Value where
  cells := table.cells.filterMap fun _ stored => nonempty? (change stored)
  cells_ne_empty other := by
    rw [ExtTreeMap.getElem?_filterMap']
    cases table.cells[other]? <;> simp [nonempty?_ne]

/-- A change that keeps the empty value acts on the whole table at once, although it is only
applied to what is stored. -/
theorem read_mapStored (table : SparseTable Key Value) {change : Value → Value}
    (hEmpty : change ∅ = ∅) (key : Key) :
    (table.mapStored change).read key = change (table.read key) := by
  simp only [read, mapStored, ExtTreeMap.getElem?_filterMap']
  cases table.cells[key]? <;> simp [hEmpty]

end SparseTable

end MapOverlay
