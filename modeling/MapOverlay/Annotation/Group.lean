/-! Annotations are owned by groups. A group is shown, hidden and replaced as one. -/
namespace MapOverlay

/-- The identity of a group of annotations. -/
structure Group where
  number : UInt32
deriving DecidableEq

namespace Group

instance : Ord Group where
  compare := compareOn number

instance : Std.TransOrd Group :=
  inferInstanceAs (Std.TransCmp (compareOn number))

instance : Std.LawfulEqOrd Group where
  eq_of_compare {first second} h := by
    have hNumber : first.number = second.number :=
      Std.LawfulEqOrd.eq_of_compare (α := UInt32) h
    cases first
    cases second
    simp_all

instance : ToString Group where
  toString group := s!"group {group.number}"

/-- A group in diagnostic output. -/
def describe (group : Group) : String :=
  s!"GroupId({group.number})"

end Group

end MapOverlay
