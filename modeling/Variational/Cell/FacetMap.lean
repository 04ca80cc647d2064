import Variational.Error

/-! Facets inside their cells: where points of a reference facet lie on the cell, and which vertices
the origin and the unit points of the reference facet are sent to. -/
namespace Variational.FacetMap

variable {α : Type} [Scalar α]

/-- The simplex with facets of the dimension of the first point. -/
def simplexAbove (points : List (List α)) : Result ReferenceCell :=
  match points.head?.elim 1 (·.length + 1) with
  | 1 => .ok .interval
  | 2 => .ok .triangle
  | 3 => .ok .tetrahedron
  | dim => .error (.unsupportedCell (.simplexDimension dim))

/-- The affine combination of vertices with the barycentric coordinates that belong to `p`. -/
def combine (dim : Nat) (vertices : List (List α)) (p : List α) : List α :=
  let w := (1 - Scalar.sum p) :: p
  (List.range dim).map fun j => Scalar.sum (List.zipWith (fun wi v => wi * v.getD j 0) w vertices)

/-- Points of a reference simplex on a facet of the simplex one dimension up. A facet of the interval
is one vertex, which is the answer for any points. -/
def onSimplex (points : List (List α)) (facet : Nat) : Result (List (List α)) := do
  let cell ← simplexAbove points
  match cell.facets[facet]? with
  | none => .error (.invalidFacet facet .plain)
  | some vs =>
    let vertices := vs.map fun v => (cell.vertices : List (List α)).getD v []
    if cell = .interval then return vertices else return points.map (combine cell.dim vertices)

/-- Points of a reference facet on the given facet of a cell. On the sides of a product cell the last
coordinate runs along the second factor and the others lie on a facet of the first. -/
def apply (points : List (List α)) (facet : Nat) : FacetKind → Result (List (List α))
  | .plain => onSimplex points facet
  | .horizontal =>
    if facet < 2 then .ok (points.map (· ++ [(facet : α)]))
    else .error (.invalidFacet facet .horizontal)
  | .vertical => do
    let mapped ← onSimplex (points.map (·.dropLast)) facet
    match mapped with
    | [m] => return points.map fun p => m ++ p.getLast?.toList
    | _ => return List.zipWith (fun m p => m ++ p.getLast?.toList) mapped points

/-- The origin and the unit points of a space. -/
def frame (dim : Nat) : List (List α) :=
  List.replicate dim 0 ::
    (List.range dim).map fun k => (List.range dim).map fun i => if i = k then 1 else 0

/-- Equal coordinates up to rounding. -/
def near (p q : List α) : Bool :=
  p.length == q.length &&
    (List.zipWith (fun x y => Scalar.below (Scalar.abs (x - y)) (Scalar.tenth 12)) p q).all id

/-- The vertices of the cell at the images of the origin and the unit points of the reference
facet. -/
def vertices (α : Type) [Scalar α] (cell : Cell) (kind : FacetKind) (facet : Nat) :
    Result (List Nat) := do
  let images ← apply (frame (cell.dim - 1) : List (List α)) facet kind
  images.mapM fun p =>
    match cell.vertices.findIdx? (near · p) with
    | some v => .ok v
    | none => .error (.invalidFacet facet kind)

end Variational.FacetMap
