import MapOverlay.Pyramid
import MapOverlay.Tile.Grid
import Std.Data.ExtTreeSet

/-! Which tiles of a pyramid show a point or a path. -/
namespace MapOverlay.Pyramid

/-- The tiles that a point falls in, one for each level. -/
def tilesAt (pyramid : Pyramid) (point : Point) : Except Fault (List Tile) :=
  pyramid.levels.mapM (Tile.containing point)

/-- A finite point has its tile at every level, from the coarsest on. -/
theorem tilesAt_of_finite (pyramid : Pyramid) {point : Point} (hFinite : point.isFinite) :
    pyramid.tilesAt point = .ok (pyramid.levels.map (Tile.locate point)) := by
  have hLocate : Tile.containing point = fun zoom => .ok (Tile.locate point zoom) :=
    funext (Tile.containing_of_finite hFinite)
  rw [tilesAt, hLocate]
  exact List.mapM_pure

/-- Every pyramid has a first level, where the fault comes up, so the other levels are not
asked. -/
theorem tilesAt_of_not_finite (pyramid : Pyramid) {point : Point}
    (hFinite : point.isFinite = false) :
    pyramid.tilesAt point = .error .nonFiniteCoordinate := by
  have hLevels : pyramid.levels ≠ [] := by
    have hLength := pyramid.finest.length_upTo
    have hPositive := pyramid.finest.one_le
    intro hNil
    simp only [levels] at hNil
    simp [hNil] at hLength
    omega
  obtain ⟨first, rest, hSplit⟩ := List.exists_cons_of_ne_nil hLevels
  simp only [tilesAt, hSplit, List.mapM_cons, Tile.containing_of_not_finite hFinite]
  rfl

/-- The tiles that hold a vertex of a path, each of them once however many vertices
fall in it. A tile that the path merely crosses between two vertices is left out. -/
def tilesAlong (pyramid : Pyramid) (vertices : List Point) : Except Fault (List Tile) := do
  let visited ← vertices.mapM pyramid.tilesAt
  return (Std.ExtTreeSet.ofList visited.flatten).toList

/-- A path of finite points has the tiles of all its vertices, ascending and each once. -/
theorem tilesAlong_of_finite (pyramid : Pyramid) {vertices : List Point}
    (hFinite : ∀ vertex ∈ vertices, vertex.isFinite) :
    pyramid.tilesAlong vertices = .ok (Std.ExtTreeSet.ofList
      (vertices.flatMap fun vertex => pyramid.levels.map (Tile.locate vertex))).toList := by
  have hVisited : vertices.mapM pyramid.tilesAt =
      .ok (vertices.map fun vertex => pyramid.levels.map (Tile.locate vertex)) := by
    induction vertices with
    | nil => rfl
    | cons first rest ih =>
        rw [List.mapM_cons, tilesAt_of_finite pyramid (hFinite first List.mem_cons_self),
          ih fun vertex hMem => hFinite vertex (List.mem_cons_of_mem _ hMem)]
        rfl
  simp only [tilesAlong, hVisited, List.flatMap_def]
  rfl

end MapOverlay.Pyramid
