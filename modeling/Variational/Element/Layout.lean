import Variational.Element.Descriptor
import Variational.Element.Polynomial

/-! What an element looks like from outside, apart from its values, and how the outside of a composite
element follows from the outsides of its parts. -/
namespace Variational

structure Layout where
  family : String
  cell : Cell
  degree : Nat
  valueShape : List Nat
  /-- Number of basis functions. -/
  dimension : Nat
  entityDofs : EntityDofs
  map : ValueMap
  /-- The text that identifies the element. -/
  signature : String
  deriving Repr, DecidableEq

namespace EntityDofs

/-- Number of entities of each dimension. -/
def counts (e : EntityDofs) : List Nat := e.map List.length

/-- Append the dofs of another element, numbered from `offset` on, entity by entity. -/
def merge (offset : Nat) (e f : EntityDofs) : EntityDofs :=
  List.zipWith (List.zipWith fun dofs new => dofs ++ new.map (· + offset)) e f

/-- Keep the dofs in a list and number them by their positions in it. -/
def keep (indices : List Nat) (e : EntityDofs) : EntityDofs :=
  e.map (·.map (·.filterMap fun d => indices.idxOf? d))

/-- Pairs of dofs on a pair of entities, numbered with the second factor of dimension `n` fastest. -/
def pairs (n : Nat) (as bs : List Nat) : List Nat :=
  as.flatMap fun i => bs.map fun j => i * n + j

/-- The dofs on products of entities; a product has the sum of the two dimensions. -/
def product (n : Nat) (e f : EntityDofs) : EntityDofs :=
  (List.range (e.length + f.length - 1)).map fun d =>
    (List.range e.length).flatMap fun da => (e.getD da []).flatMap fun as =>
      if da ≤ d then (f.getD (d - da) []).map fun bs => pairs n as bs else []

/-- The lowest dimension of an entity that has dofs. -/
def formDegree (e : EntityDofs) : Nat :=
  (e.findIdx? fun entities => entities.any fun dofs => !dofs.isEmpty).getD 0

end EntityDofs

namespace Layout

/-- Number of components of a value. -/
def valueSize (l : Layout) : Nat := l.valueShape.foldr (· * ·) 1

def formDegree (l : Layout) : Nat := EntityDofs.formDegree l.entityDofs

def ofPolynomial {α : Type} [Scalar α] (e : PolynomialElement α) : Layout where
  family := e.family
  cell := .simple e.cell
  degree := e.degree
  valueShape := e.valueShape
  dimension := e.dimension
  entityDofs := e.entityDofs
  map := e.map
  signature := e.signature

/-- A constant on the cell. -/
def reals {α : Type} [Scalar α] (e : PolynomialElement α) : Layout :=
  { ofPolynomial e with family := "Real", signature := s!"FiniteElement('Real', {e.cell.name}, 0)" }

/-- Values at `n` points inside a cell. -/
def quadrature (cell : Cell) (degree n : Nat) : Layout where
  family := "Quadrature"
  cell := cell
  degree := degree
  valueShape := []
  dimension := n
  entityDofs := EntityDofs.inside cell.entityCounts n
  map := .identity
  signature := s!"FiniteElement('Quadrature', {cell.name}, {degree})"

/-- The dofs of all parts, those of each part numbered after those of the parts before. -/
def mergeAll : Nat → EntityDofs → List Layout → EntityDofs
  | _, dofs, [] => dofs
  | offset, dofs, l :: ls =>
    mergeAll (offset + l.dimension) (EntityDofs.merge offset dofs l.entityDofs) ls

/-- Basis functions and components of the parts are stacked; each part keeps its own map. -/
def mixed (parts : List Layout) : Layout where
  family := "Mixed"
  cell := (parts.head?.map (·.cell)).getD (.simple .point)
  degree := (parts.map (·.degree)).foldr max 0
  valueShape := [(parts.map valueSize).foldr (· + ·) 0]
  dimension := (parts.map (·.dimension)).foldr (· + ·) 0
  entityDofs := match parts with
    | [] => []
    | l :: ls => mergeAll l.dimension l.entityDofs ls
  map := .identity
  signature := "MixedElement(" ++ ", ".intercalate (parts.map (·.signature)) ++ ")"

def restricted (l : Layout) (indices : List Nat) (domain : Domain) : Layout :=
  { l with
    dimension := indices.length
    entityDofs := EntityDofs.keep indices l.entityDofs
    signature := s!"RestrictedElement({l.signature}, {domain.name})" }

/-- Dofs of the second element are numbered after those of the first. -/
def enriched (a b : Layout) : Layout where
  family := "EnrichedElement"
  cell := a.cell
  degree := max a.degree b.degree
  valueShape := a.valueShape
  dimension := a.dimension + b.dimension
  entityDofs := EntityDofs.merge a.dimension a.entityDofs b.entityDofs
  map := a.map
  signature := s!"EnrichedElement({a.signature}, {b.signature})"

/-- The shape of products of values, of which at least one is a scalar. -/
def productShape (a b : Layout) : List Nat :=
  if a.valueSize = 1 then (if b.valueSize = 1 then [] else b.valueShape) else a.valueShape

/-- Basis function `i * n + j` is the product of functions `i` and `j`, where `n` is the dimension of
the second factor. -/
def product (a b : Layout) : Layout where
  family := "OuterProductElement"
  cell := .product a.cell b.cell
  degree := a.degree + b.degree
  valueShape := productShape a b
  dimension := a.dimension * b.dimension
  entityDofs := EntityDofs.product b.dimension a.entityDofs b.entityDofs
  map := .identity
  signature := s!"OuterProductElement({a.signature}, {b.signature})"

/-- A scalar element placed in one component of a vector field. -/
def wrapped (l : Layout) (space : SobolevSpace) : Layout :=
  { l with
    valueShape := [l.cell.dim]
    map := match space with
      | .hdiv => .contravariantPiola
      | .hcurl => .covariantPiola
    signature := s!"{space.name}({l.signature})" }

end Layout
end Variational
