import MapOverlay.Index.Replace
import MapOverlay.Pyramid
import Std.Data.ExtTreeMap
import Std.Data.ExtTreeSet

/-! The annotations over a map: the collections of every group, which groups are
shown, and the index that finds what a tile shows. -/
namespace MapOverlay

open Std

/-- The collections of all groups, the groups that are shown, and an index of what falls in
which tile. -/
structure Overlay (M L : Type) where
  pyramid : Pyramid
  /-- A group that was given an empty collection is present, unlike one that was
  never given any. -/
  markSets : ExtTreeMap Group (Array M)
  lineSets : ExtTreeMap Group (Array L)
  shown : ExtTreeSet Group
  index : PlacementIndex

namespace Overlay

variable {M L : Type}

/-- An overlay without groups. -/
def empty (pyramid : Pyramid) : Overlay M L :=
  { pyramid, markSets := ∅, lineSets := ∅, shown := ∅, index := ∅ }

/-- The marks of a group, none if it was never given any. -/
def marks (overlay : Overlay M L) (group : Group) : Array M :=
  overlay.markSets[group]?.getD #[]

/-- The lines of a group, none if it was never given any. -/
def lines (overlay : Overlay M L) (group : Group) : Array L :=
  overlay.lineSets[group]?.getD #[]

def isShown (overlay : Overlay M L) (group : Group) : Bool :=
  overlay.shown.contains group

/-- The shown groups, ascending. -/
def shownGroups (overlay : Overlay M L) : List Group :=
  overlay.shown.toList

theorem mem_shownGroups (overlay : Overlay M L) {group : Group} :
    group ∈ overlay.shownGroups ↔ overlay.isShown group :=
  ExtTreeSet.mem_toList

theorem nodup_shownGroups (overlay : Overlay M L) : overlay.shownGroups.Nodup :=
  ExtTreeSet.distinct_toList.imp ReflCmp.ne_of_cmp_ne_eq

/-- Gives a group its marks and takes back those it had. -/
def setMarks [Pinned M] (overlay : Overlay M L) (group : Group) (marks : Array M) :
    Except Fault (Overlay M L) := do
  let index ← overlay.index.replaceMarks overlay.pyramid group marks
  return { overlay with markSets := overlay.markSets.insert group marks, index }

/-- Gives a group its lines and takes back those it had. -/
def setLines [Traced L] (overlay : Overlay M L) (group : Group) (lines : Array L) :
    Except Fault (Overlay M L) := do
  let index ← overlay.index.replaceLines overlay.pyramid group lines
  return { overlay with lineSets := overlay.lineSets.insert group lines, index }

/-- Shows or hides a group. The index covers hidden groups too and does not change. -/
def setShown (overlay : Overlay M L) (group : Group) (shown : Bool) : Overlay M L :=
  { overlay with
    shown := if shown then overlay.shown.insert group else overlay.shown.erase group }

/-- Forgets a group with its collections. Shown again later, it starts out hidden. -/
def clear (overlay : Overlay M L) (group : Group) : Overlay M L :=
  { overlay with
    markSets := overlay.markSets.erase group
    lineSets := overlay.lineSets.erase group
    shown := overlay.shown.erase group
    index := overlay.index.remove group }

end Overlay

end MapOverlay
