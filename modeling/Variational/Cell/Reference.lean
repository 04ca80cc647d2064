import Variational.Scalar

/-! The six reference cells: topology and geometry. Vertex `i` of a simplex is the origin or the unit
point on axis `i - 1`, and facet `k` of a simplex is the one opposite vertex `k`. Vertices of a box
count in binary with the first axis fastest. -/
namespace Variational

inductive ReferenceCell where
  | point
  | interval
  | triangle
  | quadrilateral
  | tetrahedron
  | hexahedron
  deriving DecidableEq, Repr, Inhabited

namespace ReferenceCell

def all : List ReferenceCell :=
  [point, interval, triangle, quadrilateral, tetrahedron, hexahedron]

/-- The position of a cell in the list of all cells. -/
def number : ReferenceCell → Nat
  | point => 0
  | interval => 1
  | triangle => 2
  | quadrilateral => 3
  | tetrahedron => 4
  | hexahedron => 5

def ofNumber? (n : Nat) : Option ReferenceCell := all[n]?

theorem ofNumber?_number (c : ReferenceCell) : ofNumber? c.number = some c := by
  cases c <;> rfl

def name : ReferenceCell → String
  | point => "vertex"
  | interval => "interval"
  | triangle => "triangle"
  | quadrilateral => "quadrilateral"
  | tetrahedron => "tetrahedron"
  | hexahedron => "hexahedron"

/-- Cells are read by name; the zero-dimensional cell has two names. -/
def ofName? : String → Option ReferenceCell
  | "vertex" => some point
  | "point" => some point
  | "interval" => some interval
  | "triangle" => some triangle
  | "quadrilateral" => some quadrilateral
  | "tetrahedron" => some tetrahedron
  | "hexahedron" => some hexahedron
  | _ => none

theorem ofName?_name (c : ReferenceCell) : ofName? c.name = some c := by
  cases c <;> rfl

def dim : ReferenceCell → Nat
  | point => 0
  | interval => 1
  | triangle => 2
  | quadrilateral => 2
  | tetrahedron => 3
  | hexahedron => 3

def isSimplex : ReferenceCell → Bool
  | quadrilateral => false
  | hexahedron => false
  | _ => true

/-- Coordinates of the vertices, all of them zero or one. -/
def corners : ReferenceCell → List (List Nat)
  | point => [[]]
  | interval => [[0], [1]]
  | triangle => [[0, 0], [1, 0], [0, 1]]
  | quadrilateral => [[0, 0], [1, 0], [0, 1], [1, 1]]
  | tetrahedron => [[0, 0, 0], [1, 0, 0], [0, 1, 0], [0, 0, 1]]
  | hexahedron =>
    [[0, 0, 0], [1, 0, 0], [0, 1, 0], [1, 1, 0], [0, 0, 1], [1, 0, 1], [0, 1, 1], [1, 1, 1]]

/-- Vertex numbers of each edge. -/
def edges : ReferenceCell → List (List Nat)
  | point => []
  | interval => [[0, 1]]
  | triangle => [[1, 2], [0, 2], [0, 1]]
  | quadrilateral => [[0, 1], [0, 2], [1, 3], [2, 3]]
  | tetrahedron => [[2, 3], [1, 3], [1, 2], [0, 3], [0, 2], [0, 1]]
  | hexahedron =>
    [[0, 1], [0, 2], [0, 4], [1, 3], [1, 5], [2, 3], [2, 6], [3, 7], [4, 5], [4, 6], [5, 7], [6, 7]]

/-- Vertex numbers of each face. -/
def faces : ReferenceCell → List (List Nat)
  | point => []
  | interval => []
  | triangle => [[0, 1, 2]]
  | quadrilateral => [[0, 1, 2, 3]]
  | tetrahedron => [[1, 2, 3], [0, 2, 3], [0, 1, 3], [0, 1, 2]]
  | hexahedron =>
    [[0, 1, 2, 3], [0, 1, 4, 5], [0, 2, 4, 6], [1, 3, 5, 7], [2, 3, 6, 7], [4, 5, 6, 7]]

/-- Vertex numbers of every entity, by dimension and entity number. -/
def topology (c : ReferenceCell) : List (List (List Nat)) :=
  let vertices := List.range c.corners.length
  [vertices.map fun v => [v], c.edges, c.faces, [vertices]].take (c.dim + 1)

/-- Number of entities of each dimension up to that of the cell. -/
def entityCounts (c : ReferenceCell) : List Nat := c.topology.map List.length

@[simp] theorem length_topology (c : ReferenceCell) : c.topology.length = c.dim + 1 := by
  cases c <;> rfl

@[simp] theorem length_entityCounts (c : ReferenceCell) : c.entityCounts.length = c.dim + 1 := by
  simp [entityCounts]

/-- Vertex numbers of the entities of codimension one; a point has none. -/
def facets (c : ReferenceCell) : List (List Nat) :=
  match c.dim with
  | 0 => []
  | d + 1 => c.topology.getD d []

section Geometry

variable {α : Type} [Scalar α]

def vertices (c : ReferenceCell) : List (List α) := c.corners.map (·.map Nat.cast)

/-- The mean of the vertices. -/
def midpoint (c : ReferenceCell) : List α :=
  (List.range c.dim).map fun i =>
    Scalar.sum (c.vertices.map fun v => v.getD i 0) / (c.corners.length : α)

/-- The outward unit normal to a facet of a simplex. Other cells have no stored normals, and a facet
that does not exist has none. -/
def facetNormal? (c : ReferenceCell) (facet : Nat) : Option (List α) :=
  if !c.isSimplex || c.dim == 0 then some []
  else if facet == 0 then some (List.replicate c.dim (1 / Scalar.sqrt (c.dim : α)))
  else if facet ≤ c.dim then
    some ((List.range c.dim).map fun i => if i + 1 == facet then -1 else 0)
  else none

/-- The unit tangent of an edge, from its first vertex to its second. -/
def edgeTangent? (c : ReferenceCell) (edge : Nat) : Option (List α) := do
  let e ← c.edges[edge]?
  let first ← e[0]?
  let second ← e[1]?
  let p ← (c.vertices : List (List α))[first]?
  let q ← (c.vertices : List (List α))[second]?
  let t := List.zipWith (· - ·) q p
  let norm := Scalar.sqrt (Scalar.dot t t)
  return t.map (· / norm)

end Geometry

end ReferenceCell
end Variational
