import Variational.Element.Basic

/-! Dof maps: the dofs of an element by mesh entity, the numbers that a mesh gives them in all, and the
dofs on the closure of a facet. -/
namespace Variational

structure DofMap where
  signature : String
  cell : Cell
  /-- Number of dofs on a cell. -/
  localDimension : Nat
  entityDofs : EntityDofs
  parts : List DofMap

namespace DofMap

/-- The dof map with the given parts. -/
def ofLayout (l : Layout) (parts : List DofMap) : DofMap :=
  ⟨s!"Dof map for {l.signature}", l.cell, l.dimension, l.entityDofs, parts⟩

mutual

/-- The dof map of an element, with the dof maps of its parts. -/
def ofElement {α : Type} [Scalar α] : Element α → DofMap
  | .mixed es => ofLayout (.mixed (Element.layouts es)) (ofElements es)
  | e => ofLayout e.layout []

def ofElements {α : Type} [Scalar α] : List (Element α) → List DofMap
  | [] => []
  | e :: es => ofElement e :: ofElements es

end

/-- Number of dofs on each entity of a dimension: the most that one of them has. -/
def numEntityDofs (m : DofMap) (dim : Nat) : Nat :=
  ((m.entityDofs.getD dim []).map List.length).foldr max 0

/-- Whether the mesh needs its entities of a dimension. -/
def needsEntities (m : DofMap) (dim : Nat) : Bool := 0 < m.numEntityDofs dim

/-- Number of dofs on a mesh with the given numbers of entities. -/
def globalDimension (m : DofMap) (numEntities : List Nat) : Nat :=
  let blocks := (List.range m.entityDofs.length).map fun d => m.numEntityDofs d * numEntities.getD d 0
  blocks.foldr (· + ·) 0

/-- The dofs on the closure of a facet of a reference cell: those on the entities below the dimension of
the cell all of whose vertices belong to the facet. -/
def facetDofs (m : DofMap) (facet : Nat) : Result (List Nat) := do
  let some c := m.cell.reference? | .error (.unsupportedCell (.facetDofs m.cell))
  let some vertices := c.facets[facet]? | .error (.invalidFacet facet .plain)
  let closure := (c.topology.take c.dim).zipIdx.flatMap fun (entities, d) =>
    entities.zipIdx.filterMap fun (vs, e) => if vs.all (vertices.contains ·) then some (d, e) else none
  let dofs ← closure.mapM fun (d, e) => inRange ((m.entityDofs[d]?).bind (·[e]?))
  return dofs.flatten

/-- Number of dofs on the closure of the first facet. -/
def numFacetDofs (m : DofMap) : Result Nat :=
  match m.facetDofs 0 with
  | .ok dofs => .ok dofs.length
  | .error .outOfRange => .error .outOfRange
  | .error _ => .ok 0

end DofMap
end Variational
