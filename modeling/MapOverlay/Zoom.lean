/-! Zoom levels run from `1`, where one tile spans the whole extent of an axis, to
`17`. A value of the type carries the proof that it lies between them. -/
namespace MapOverlay

/-- A zoom level. Each level halves the side of a tile of the level before it. -/
structure Zoom where
  level : Nat
  one_le : 1 ≤ level := by decide
  le_seventeen : level ≤ 17 := by decide
deriving DecidableEq

namespace Zoom

/-- The level with the largest tiles. -/
def coarsest : Zoom := ⟨1, by decide, by decide⟩

/-- The level with the smallest tiles. -/
def finest : Zoom := ⟨17, by decide, by decide⟩

theorem ext_level {first second : Zoom} (h : first.level = second.level) : first = second := by
  cases first
  cases second
  simp_all

/-- A number that is no zoom level. -/
structure OutOfRange where
  level : Nat
deriving DecidableEq

def OutOfRange.message (refused : OutOfRange) : String :=
  s!"zoom level {refused.level} is outside {coarsest.level}..={finest.level}"

/-- Accepts exactly the numbers from the coarsest to the finest level. -/
def ofNat (level : Nat) : Except OutOfRange Zoom :=
  if h : 1 ≤ level ∧ level ≤ 17 then .ok ⟨level, h.1, h.2⟩ else .error ⟨level⟩

@[simp] theorem ofNat_level (zoom : Zoom) : ofNat zoom.level = .ok zoom := by
  simp [ofNat, zoom.one_le, zoom.le_seventeen]

instance : ToString Zoom where
  toString zoom := s!"z{zoom.level}"

instance : Ord Zoom where
  compare := compareOn level

instance : Std.TransOrd Zoom :=
  inferInstanceAs (Std.TransCmp (compareOn level))

instance : Std.LawfulEqOrd Zoom where
  eq_of_compare h := ext_level (Std.LawfulEqOrd.eq_of_compare (α := Nat) h)

/-- The levels from the coarsest to `last`, ascending and with `last` included. -/
def upTo (last : Zoom) : List Zoom :=
  List.ofFn fun step : Fin last.level =>
    ⟨step + 1, Nat.le_add_left 1 step, Nat.le_trans step.isLt last.le_seventeen⟩

@[simp] theorem mem_upTo {zoom last : Zoom} : zoom ∈ last.upTo ↔ zoom.level ≤ last.level := by
  rw [upTo, List.mem_ofFn]
  constructor
  · rintro ⟨step, rfl⟩
    exact step.isLt
  · intro hLevel
    have hPositive := zoom.one_le
    exact ⟨⟨zoom.level - 1, by omega⟩, ext_level (by simp only; omega)⟩

@[simp] theorem length_upTo (last : Zoom) : last.upTo.length = last.level := by
  simp [upTo]

/-- Advances through levels that are still to be visited: leaves out the next
`skipped` of them and answers the one that follows. Visited levels do not return,
and a run that ends too early is used up without an answer. -/
def visit (skipped : Nat) (run : List Zoom) : Option Zoom × List Zoom :=
  (run[skipped]?, run.drop (skipped + 1))

end Zoom

end MapOverlay
