/-! Misuse that stops an operation. None of these is an ordinary outcome: the first two
come from a caller's collections, the others from positions that do not belong to the
collection they are used with. -/
namespace MapOverlay

inductive Fault where
  /-- A point with an infinite or NaN coordinate lies in no tile. -/
  | nonFiniteCoordinate
  /-- A collection has an item whose position does not fit into 32 bits. -/
  | collectionTooLarge
  /-- A mark position that its collection does not have. -/
  | markOutOfRange (position : Nat)
  /-- A line position that its collection does not have. -/
  | lineOutOfRange (position : Nat)
deriving DecidableEq

namespace Fault

def message : Fault → String
  | nonFiniteCoordinate => "tile coordinates must be finite"
  | collectionTooLarge => "collection too large to index"
  | markOutOfRange position => s!"mark position {position} out of range"
  | lineOutOfRange position => s!"line position {position} out of range"

end Fault

end MapOverlay
