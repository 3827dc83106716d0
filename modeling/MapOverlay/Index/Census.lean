import MapOverlay.Index.Basic

/-! Counting what an index holds. -/
namespace MapOverlay

/-- The size of an index in four numbers. -/
structure Census where
  /-- Tiles that show anything. -/
  tiles : Nat
  /-- Pairs of a tile and a group that it shows something of. -/
  shares : Nat
  /-- Stored mark positions. A mark counts once for each tile. -/
  markPositions : Nat
  /-- Stored line positions. A line counts once for each tile. -/
  linePositions : Nat
deriving DecidableEq

namespace PlacementIndex

/-- All nonempty shares, ascending by tile and then by group. -/
def shares (index : PlacementIndex) : List Share :=
  index.rows.toList.flatMap fun (_, row) => row.toList.map (·.2)

def census (index : PlacementIndex) : Census where
  tiles := index.size
  shares := index.shares.length
  markPositions := (index.shares.flatMap (·.marks)).length
  linePositions := (index.shares.flatMap (·.lines)).length

/-- An index in diagnostic output. -/
def describe (index : PlacementIndex) : String :=
  let census := index.census
  s!"TileIndex \x7b tiles: {census.tiles}, entries: {census.shares}, " ++
    s!"mark_refs: {census.markPositions}, line_refs: {census.linePositions}, .. \x7d"

end PlacementIndex

end MapOverlay
