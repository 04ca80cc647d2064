import Variational.Cell.FacetMap
import Variational.Element.Polynomial

/-! Vector valued elements of the lowest order on the triangle and the tetrahedron. Elements with
continuous normal components have their dofs on facets, those with continuous tangential components on
edges. -/
namespace Variational

inductive VectorFamily where
  | raviartThomas
  | nedelecFirstKind
  | brezziDouglasMarini
  | nedelecSecondKind
  deriving DecidableEq, Repr

namespace VectorFamily

variable {α : Type} [Scalar α]

def name : VectorFamily → String
  | raviartThomas => "Raviart-Thomas"
  | nedelecFirstKind => "Nedelec 1st kind H(curl)"
  | brezziDouglasMarini => "Brezzi-Douglas-Marini"
  | nedelecSecondKind => "Nedelec 2nd kind H(curl)"

/-- The normal components are continuous. -/
def isNormal : VectorFamily → Bool
  | raviartThomas => true
  | brezziDouglasMarini => true
  | _ => false

/-- All linear fields belong to the space. -/
def isFull : VectorFamily → Bool
  | brezziDouglasMarini => true
  | nedelecSecondKind => true
  | _ => false

def difference (p q : List α) : List α := List.zipWith (· - ·) p q

def norm (v : List α) : α := Scalar.sqrt (Scalar.dot v v)

def cross : List α → List α → List α
  | [a, b, c], [x, y, z] => [b * z - c * y, c * x - a * z, a * y - b * x]
  | _, _ => []

/-- The length of an edge or the area of a triangle. -/
def measure : List (List α) → α
  | [p, q] => norm (difference q p)
  | [p, q, r] => norm (cross (difference q p) (difference r p)) / 2
  | _ => 0

/-- The outward normal to a facet, as long as the facet is large. -/
def scaledNormal (cell : ReferenceCell) (facet : Nat) : List α :=
  let corners := (cell.facets.getD facet []).map fun v =>
    (cell.vertices : List (List α)).getD v []
  ((cell.facetNormal? facet).getD []).map (· * measure corners)

/-- The field with one in component `c`. -/
def unit (dim c : Nat) : List α := (List.range dim).map fun i => if i = c then 1 else 0

/-- The linear fields that a family of incomplete degree adds to the constants. -/
def extraFields (f : VectorFamily) (dim : Nat) : List (List α → List α) :=
  match f, dim with
  | raviartThomas, _ => [id]
  | _, 2 => [fun p => [-(p.getD 1 0), p.getD 0 0]]
  | _, _ =>
    [fun p => [0, p.getD 2 0, -(p.getD 1 0)],
     fun p => [-(p.getD 2 0), 0, p.getD 0 0],
     fun p => [p.getD 1 0, -(p.getD 0 0), 0]]

/-- Coefficients of fields that span the space, in the expansion set of degree one. -/
@[specialize] def span (f : VectorFamily) (cell : ReferenceCell) : Result (List (List (List α))) :=
  if f.isFull then
    let n := Expansion.count cell 1
    .ok <| (List.range cell.dim).flatMap fun c => (List.range n).map fun k =>
      (List.range cell.dim).map fun i => if i = c then unit n k else List.replicate n 0
  else
    let constants := (List.range cell.dim).map fun c => fun _ : List α => unit cell.dim c
    (constants ++ f.extraFields cell.dim).mapM (Expansion.project cell 1 cell.dim)

/-- The two Gauss points of the unit interval. -/
def edgeNodes : List α :=
  let g := 1 / 2 / Scalar.sqrt 3
  [1 / 2 - g, 1 / 2 + g]

/-- Points of the reference facet where normal components are taken. -/
def facetNodes (f : VectorFamily) (dim : Nat) : List (List α) :=
  if !f.isFull then [List.replicate (dim - 1) (1 / (dim : α))]
  else if dim = 2 then edgeNodes.map fun s => [s]
  else [[1 / 6, 1 / 6], [2 / 3, 1 / 6], [1 / 6, 2 / 3]]

/-- Normal components at points of the facets. -/
def normalFunctionals (f : VectorFamily) (cell : ReferenceCell) : Result (List (Functional α)) := do
  let byFacet ← (List.range cell.facets.length).mapM fun facet => do
    let points ← FacetMap.apply (f.facetNodes cell.dim) facet .plain
    return points.map fun p => ⟨p, scaledNormal cell facet⟩
  return byFacet.flatten

/-- Tangential components at points of the edges. -/
def tangentialFunctionals (f : VectorFamily) (cell : ReferenceCell) : List (Functional α) :=
  cell.edges.flatMap fun edge =>
    let ends := edge.map fun v => (cell.vertices : List (List α)).getD v []
    let origin := ends.getD 0 []
    let tangent := difference (ends.getD 1 []) origin
    let nodes : List α := if f.isFull then edgeNodes else [1 / 2]
    nodes.map fun s => ⟨List.zipWith (fun x t => x + s * t) origin tangent, tangent⟩

/-- Number of dofs on each facet or edge. -/
def dofsPerEntity (f : VectorFamily) (cell : ReferenceCell) : Nat :=
  if !f.isFull then 1 else if f.isNormal then cell.dim else 2

@[specialize] def create (f : VectorFamily) (cell : ReferenceCell) (degree : Nat) :
    Result (PolynomialElement α) := do
  if ¬ (degree = 1 ∧ (cell = .triangle ∨ cell = .tetrahedron)) then
    .error (.tabulatorUnsupported f.name cell degree)
  let functionals ←
    if f.isNormal then f.normalFunctionals cell else .ok (f.tangentialFunctionals cell)
  let carrier := if f.isNormal then cell.dim - 1 else 1
  let entityDofs := EntityDofs.uniform cell.entityCounts fun d =>
    if d = carrier then f.dofsPerEntity cell else 0
  let map := if f.isNormal then ValueMap.contravariantPiola else .covariantPiola
  PolynomialElement.create f.name cell degree [cell.dim] (← f.span cell) functionals entityDofs map 1

end VectorFamily
end Variational
