import Variational.Form.Algebra
import Variational.Tensor.Monomial
import Variational.Tensor.MultiIndex

/-! The tensor representation of a product: the element tensor is the contraction of a reference tensor,
which depends on the reference elements alone, with a geometry tensor, which depends on the cell, the
constants and the coefficients. -/
namespace Variational

/-- What a secondary index runs over. -/
inductive SecondaryAxis where
  /-- The dofs of a coefficient function. -/
  | coefficient (n : Nat)
  /-- The reference components of a basis function of the product. -/
  | component (basis : Nat)
  /-- The reference directions of a derivative of a basis function. -/
  | derivative (basis position : Nat)
  deriving DecidableEq, Repr

structure ReferenceTensor (α : Type) where
  /-- Primary indices: the dofs of the test and trial functions. -/
  primary : MultiIndex
  /-- Secondary indices, which are contracted with the geometry tensor. -/
  secondary : MultiIndex
  axes : List SecondaryAxis
  /-- The entries on each region of integration, in row-major order of both multi-indices. -/
  values : List (Array α)

namespace ReferenceTensor

variable {α : Type}

def numRegions (t : ReferenceTensor α) : Nat := t.values.length

/-- The entry at the given positions in the two multi-indices. -/
def value [Scalar α] (t : ReferenceTensor α) (region i a : Nat) : α :=
  ((t.values[region]?).bind (·[i * t.secondary.size + a]?)).getD 0

end ReferenceTensor

/-- One entry of a geometry tensor, at a position in the secondary multi-index. -/
structure GeometryEntry (α : Type) where
  position : Nat
  monomials : List (Monomial α)

structure Term (α : Type) where
  reference : ReferenceTensor α
  /-- The entries that do not vanish identically. They are scaled by the determinant of the cell map,
  or on the boundary by that of the facet map. -/
  geometry : List (GeometryEntry α)
  integral : IntegralKind
  /-- Number of quadrature points in each direction. -/
  numPoints : Nat

end Variational
