import Variational.Cell.Reference

/-! Cells: the reference cells and their products. A product cell is extruded, its facets divide into
the side facets and the bottom and top, and it has no common numbering of all facets. -/
namespace Variational

inductive Cell where
  | simple (cell : ReferenceCell)
  | product (a b : Cell)
  deriving DecidableEq, Repr, Inhabited

/-- How a facet sits on its cell. -/
inductive FacetKind where
  /-- A facet of a reference cell. -/
  | plain
  /-- The bottom or the top of a product cell. -/
  | horizontal
  /-- A side of a product cell. -/
  | vertical
  deriving DecidableEq, Repr, Inhabited

namespace FacetKind

def name : FacetKind → String
  | plain => "facet"
  | horizontal => "horiz_facet"
  | vertical => "vert_facet"

def ofName? : String → Option FacetKind
  | "facet" => some plain
  | "horiz_facet" => some horizontal
  | "vert_facet" => some vertical
  | _ => none

theorem ofName?_name (k : FacetKind) : ofName? k.name = some k := by cases k <;> rfl

end FacetKind

namespace Cell

instance : Coe ReferenceCell Cell := ⟨simple⟩

def name : Cell → String
  | simple c => c.name
  | product a b => s!"OuterProductCell({a.name}, {b.name})"

/-- The topological dimension. -/
def dim : Cell → Nat
  | simple c => c.dim
  | product a b => a.dim + b.dim

def reference? : Cell → Option ReferenceCell
  | simple c => some c
  | product _ _ => none

/-- Coefficients of the product of two polynomials with natural coefficients. -/
def convolve (xs ys : List Nat) : List Nat :=
  (List.range (xs.length + ys.length - 1)).map fun n =>
    ((List.range (n + 1)).map fun i => xs.getD i 0 * ys.getD (n - i) 0).foldr (· + ·) 0

/-- Number of entities of each dimension. Those of a product cell are the coefficients of the product
polynomial, except that its facets are counted by kind and the entry for them is zero. -/
def entityCounts : Cell → List Nat
  | simple c => c.entityCounts
  | product a b =>
    let counts := convolve a.entityCounts b.entityCounts
    if 2 ≤ counts.length then counts.set (counts.length - 2) 0 else counts

/-- Vertex coordinates, all zero or one; the vertices of the first factor vary slowest. -/
def corners : Cell → List (List Nat)
  | simple c => c.corners
  | product a b => a.corners.flatMap fun v => b.corners.map (v ++ ·)

def vertices {α : Type} [Scalar α] (c : Cell) : List (List α) := c.corners.map (·.map Nat.cast)

def numVertices (c : Cell) : Nat := c.corners.length

/-- Number of facets of one kind. -/
def numFacets : Cell → FacetKind → Nat
  | simple c, .plain => c.facets.length
  | product a _, .vertical => a.numFacets .plain
  | product _ b, .horizontal => if b.dim = 1 then 2 else 0
  | _, _ => 0

/-- The facets that a boundary integral runs over, in order: on a product cell the sides come before
the bottom and the top. -/
def boundary (c : Cell) : List (FacetKind × Nat) :=
  let kinds : List FacetKind := match c with
    | simple _ => [.plain]
    | product _ _ => [.vertical, .horizontal]
  kinds.flatMap fun k => (List.range (c.numFacets k)).map fun f => (k, f)

/-- Reference cells come before products; products are ordered by their factors. -/
def compare : Cell → Cell → Ordering
  | simple c, simple d => Ord.compare c.number d.number
  | simple _, product _ _ => .lt
  | product _ _, simple _ => .gt
  | product a b, product c d => (a.compare c).then (b.compare d)

/-- Entity counts of a cell given by name; a name without a topology has none. -/
def entityCountsOfName? (s : String) : Option (List Nat) :=
  (ReferenceCell.ofName? s).map (·.entityCounts)

@[simp] theorem dim_simple (c : ReferenceCell) : (simple c).dim = c.dim := rfl
@[simp] theorem dim_product (a b : Cell) : (product a b).dim = a.dim + b.dim := rfl

theorem length_convolve (xs ys : List Nat) :
    (convolve xs ys).length = xs.length + ys.length - 1 := by simp [convolve]

theorem length_entityCounts (c : Cell) : c.entityCounts.length = c.dim + 1 := by
  induction c with
  | simple c => simp [entityCounts]
  | product a b ha hb =>
    simp only [entityCounts]
    split <;> simp [length_convolve, ha, hb] <;> omega

end Cell
end Variational
