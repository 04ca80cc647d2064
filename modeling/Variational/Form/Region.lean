import Variational.Cell.FacetMap
import Variational.Quadrature.Rule

/-! Regions of integration: the cell, or each of its facets, with a quadrature rule in the coordinates of
the cell. -/
namespace Variational.Region

variable {α : Type} [Scalar α]

/-- The cell that all facets of a simplex look like. -/
def simplexFacet : ReferenceCell → Result ReferenceCell
  | .interval => .ok .point
  | .triangle => .ok .interval
  | .tetrahedron => .ok .triangle
  | c => .error (.unsupportedIntegral (.boundary c))

/-- A rule on a reference facet carried to a facet of the cell. -/
def onFacet (rule : Rule α) (dim facet : Nat) (kind : FacetKind) : Result (Rule α) := do
  let points ← FacetMap.apply rule.points facet kind
  if points.length ≠ rule.nodes.length then .error .outOfRange
  return ⟨dim, List.zipWith Node.mk points rule.weights⟩

def interior (cell : Cell) (m : Nat) : Result (List (Rule α)) := return [← Rule.onCell cell m]

/-- Boundary integrals exist on simplices and on simplices extruded along an interval. -/
def boundary (cell : Cell) (m : Nat) : Result (List (Rule α)) := do
  match cell with
  | .simple c =>
    let facet ← simplexFacet c
    let rule ← Rule.onCell facet m
    cell.boundary.mapM fun (kind, f) => onFacet rule cell.dim f kind
  | .product (.simple a) b =>
    if b.dim ≠ 1 then .error (.unsupportedIntegral (.boundary cell))
    let base ← simplexFacet a
    let vertical ← Rule.onCell (.product base b) m
    let horizontal ← Rule.onCell a m
    cell.boundary.mapM fun (kind, f) =>
      onFacet (if kind = .horizontal then horizontal else vertical) cell.dim f kind
  | .product _ _ => .error (.unsupportedIntegral (.boundary cell))

end Variational.Region
