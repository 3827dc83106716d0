/-! Which side of a sprite is held at the pivot of a mark. An anchor is a set of
sides kept in the low bits of a byte, and the empty set stands for the centre. -/
namespace MapOverlay

structure Anchor where
  bits : UInt8
deriving DecidableEq, Inhabited

namespace Anchor

def center : Anchor := ⟨0⟩
def left : Anchor := ⟨1⟩
def right : Anchor := ⟨2⟩
def top : Anchor := ⟨4⟩
def bottom : Anchor := ⟨8⟩

/-- The union of two sets of sides. -/
def union (first second : Anchor) : Anchor :=
  ⟨first.bits ||| second.bits⟩

/-- All the sides that have a meaning. -/
def sides : Anchor :=
  ((left.union right).union top).union bottom

/-- Every side of `wanted` is in the set. Bits without a meaning count as well. -/
def contains (anchor wanted : Anchor) : Bool :=
  anchor.bits &&& wanted.bits == wanted.bits

/-- Drops the bits without a meaning. -/
def truncate (anchor : Anchor) : Anchor :=
  ⟨anchor.bits &&& sides.bits⟩

/-- Refuses a byte that has a bit without a meaning. -/
def ofBits? (bits : UInt8) : Option Anchor :=
  if sides.contains ⟨bits⟩ then some ⟨bits⟩ else none

/-- No bit is set. A bit without a meaning already makes the set nonempty. -/
def isCenter (anchor : Anchor) : Bool :=
  anchor.bits == 0

end Anchor

end MapOverlay
