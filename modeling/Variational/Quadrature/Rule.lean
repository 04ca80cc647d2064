import Variational.Error
import Variational.Quadrature.Gauss

/-! Quadrature rules on cells: Gauss-Jacobi rules collapsed onto the simplices, and products of rules
on boxes and product cells. -/
namespace Variational

structure Node (α : Type) where
  point : List α
  weight : α

/-- Nodes in a space of the given dimension. -/
structure Rule (α : Type) where
  dim : Nat
  nodes : List (Node α)

namespace Rule

variable {α : Type} [Scalar α]

def points (r : Rule α) : List (List α) := r.nodes.map (·.point)

def weights (r : Rule α) : List α := r.nodes.map (·.weight)

/-- The rule on a point: one node without coordinates and with weight one. -/
def degenerate : Rule α := ⟨0, [⟨[], 1⟩]⟩

/-- The product rule; nodes of the first rule vary slowest. -/
@[specialize] def product (r s : Rule α) : Rule α :=
  ⟨r.dim + s.dim,
   r.nodes.flatMap fun p => s.nodes.map fun q => ⟨p.point ++ q.point, p.weight * q.weight⟩⟩

@[specialize] def interval (m : Nat) : Rule α :=
  ⟨1, (Gauss.rule 0 m).map fun (x, w) => ⟨[(1 + x) / 2], w / 2⟩⟩

/-- The square rule collapsed onto the triangle. -/
@[specialize] def triangle (m : Nat) : Rule α :=
  let inner := Gauss.rule 1 m
  ⟨2, (Gauss.rule 0 m).flatMap fun (x, u) => inner.map fun (y, v) =>
    ⟨[(1 + x) / 4 * (1 - y), (1 + y) / 2], u * v / 8⟩⟩

/-- The cube rule collapsed onto the tetrahedron. -/
@[specialize] def tetrahedron (m : Nat) : Rule α :=
  let middle := Gauss.rule 1 m
  let inner := Gauss.rule 2 m
  ⟨3, (Gauss.rule 0 m).flatMap fun (x, u) => middle.flatMap fun (y, v) => inner.map fun (z, t) =>
    ⟨[(1 + x) / 8 * (1 - y) * (1 - z), (1 + y) / 4 * (1 - z), (1 + z) / 2], u * v * t / 64⟩⟩

/-- The rule with `m` points in each direction. Only a point has a rule without points in a
direction. -/
@[specialize] def onReference (cell : ReferenceCell) (m : Nat) : Result (Rule α) :=
  if m = 0 ∧ cell ≠ .point then .error (.noQuadraturePoints cell)
  else .ok <| match cell with
    | .point => degenerate
    | .interval => interval m
    | .triangle => triangle m
    | .quadrilateral => (interval m).product (interval m)
    | .tetrahedron => tetrahedron m
    | .hexahedron => ((interval m).product (interval m)).product (interval m)

/-- Rules on product cells are products of the rules on their factors. -/
@[specialize] def onCell (cell : Cell) (m : Nat) : Result (Rule α) :=
  match cell with
  | .simple c => onReference c m
  | .product a b => return (← onCell a m).product (← onCell b m)

end Rule
end Variational
