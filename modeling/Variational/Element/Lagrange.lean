import Variational.Element.Polynomial

/-! Scalar elements with point evaluations as dofs: Lagrange elements, continuous and discontinuous,
Crouzeix-Raviart elements, and the bubbles of a Lagrange element. -/
namespace Variational.Lagrange

variable {α : Type} [Scalar α]

/-- The numbers strictly between zero and `n`. -/
def between (n : Nat) : List Nat := (List.range (n - 1)).map (· + 1)

/-- Multi-indices of the interior lattice points of a simplex, the first index fastest. -/
def simplexSteps : (dim degree : Nat) → List (List Nat)
  | 0, _ => [[]]
  | d + 1, n => (between n).flatMap fun k => (simplexSteps d (n - k)).map (· ++ [k])

/-- Multi-indices of the interior lattice points of a box, the first index fastest. -/
def boxSteps : (dim degree : Nat) → List (List Nat)
  | 0, _ => [[]]
  | d + 1, n => (between n).flatMap fun k => (boxSteps d n).map (· ++ [k])

/-- Multi-indices of the lattice points inside an entity of the given dimension. -/
def steps (cell : ReferenceCell) (dim degree : Nat) : List (List Nat) :=
  if cell.isSimplex then simplexSteps dim degree else boxSteps dim degree

/-- Positions, among the vertices of an entity, of the end points of its axes. -/
def axisVertices (cell : ReferenceCell) (dim : Nat) : List Nat :=
  (List.range dim).map fun k => if cell.isSimplex then k + 1 else Nat.pow 2 k

/-- The equally spaced points inside an entity with the given vertices. -/
def lattice (cell : ReferenceCell) (degree dim : Nat) (vertices : List (List α)) :
    List (List α) :=
  let origin := vertices.headD []
  let axes := (axisVertices cell dim).map fun v =>
    List.zipWith (· - ·) (vertices.getD v []) origin
  (steps cell dim degree).map fun index =>
    (List.zip index axes).foldl
      (fun p (n, axis) => List.zipWith (fun x y => x + (n : α) / (degree : α) * y) p axis) origin

/-- The lattice points of all entities in order. -/
def points (cell : ReferenceCell) (degree : Nat) : List (List α) :=
  cell.topology.zipIdx.flatMap fun (entities, d) => entities.flatMap fun entity =>
    lattice cell degree d (entity.map fun v => (cell.vertices : List (List α)).getD v [])

@[specialize] def continuous (cell : ReferenceCell) (degree : Nat) : Result (PolynomialElement α) :=
  if degree = 0 then .error (.tabulatorUnsupported "Lagrange" cell degree)
  else PolynomialElement.ofPoints "Lagrange" cell degree (points cell degree)
    (EntityDofs.uniform cell.entityCounts fun d => (steps cell d degree).length)

/-- The same basis with all dofs inside the cell; constants have theirs at the midpoint. -/
@[specialize] def discontinuous (cell : ReferenceCell) (degree : Nat) :
    Result (PolynomialElement α) :=
  let nodes : List (List α) := if degree = 0 then [cell.midpoint] else points cell degree
  PolynomialElement.ofPoints "Discontinuous Lagrange" cell degree nodes
    (EntityDofs.inside cell.entityCounts nodes.length)

/-- The mean of some of the vertices of a cell. -/
def centre (cell : ReferenceCell) (vs : List Nat) : List α :=
  (List.range cell.dim).map fun j =>
    Scalar.sum (vs.map fun v => ((cell.vertices : List (List α)).getD v []).getD j 0)
      / (vs.length : α)

/-- Linear functions with dofs at the midpoints of the facets. -/
@[specialize] def crouzeixRaviart (cell : ReferenceCell) (degree : Nat) :
    Result (PolynomialElement α) :=
  if degree = 1 ∧ (cell = .triangle ∨ cell = .tetrahedron) then
    PolynomialElement.ofPoints "Crouzeix-Raviart" cell degree (cell.facets.map (centre cell))
      (EntityDofs.uniform cell.entityCounts fun d => if d + 1 = cell.dim then 1 else 0)
  else .error (.tabulatorUnsupported "Crouzeix-Raviart" cell degree)

/-- The basis functions of the Lagrange element that belong to the interior of the cell. -/
@[specialize] def bubble (cell : ReferenceCell) (degree : Nat) : Result (PolynomialElement α) := do
  let e ← continuous cell degree
  let interior := EntityDofs.on e.entityDofs cell.dim 0
  if interior.isEmpty then .error (.tabulatorUnsupported "Bubble" cell degree)
  e.subset "Bubble" interior (EntityDofs.inside cell.entityCounts interior.length)

end Variational.Lagrange
