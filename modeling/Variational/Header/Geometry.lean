import Variational.Cell.FacetMap
import Variational.Code.Statement

/-! Code for the geometry of a physical cell: the Jacobian of the affine map from the reference cell with
its determinant and inverse, and the ratio of the measures of a facet and its reference facet. -/
namespace Variational.Geometry
open Code

/-- The corner at the unit point of an axis. -/
def axisVertex (cell : Cell) (axis : Nat) : Result Nat :=
  match cell.corners.findIdx? (· == (List.range cell.dim).map fun k => if k = axis then 1 else 0) with
  | some v => .ok v
  | none => .error (.unsupportedCell (.noAxisVertex cell axis))

variable {α : Type}

/-- Entry of the Jacobian. -/
def jacobian (i j : Nat) : Expr α := (Symbol.jacobian i j).expr

def determinant : Expr α := .name "detJ"

/-- Component `i` of the edge from one vertex of the cell to another. -/
def edge (i first second : Nat) : Expr α := .minus (.entry2 "x" second i) (.entry2 "x" first i)

/-- The minor of the Jacobian without row `a` and column `b`, with its sign, by cyclic indices. -/
def cofactor (a b : Nat) : Expr α :=
  let row (k : Nat) := (a + k) % 3
  let column (k : Nat) := (b + k) % 3
  .parens (.minus (.times (jacobian (row 1) (column 1)) (jacobian (row 2) (column 2)))
    (.times (jacobian (row 1) (column 2)) (jacobian (row 2) (column 1))))

/-- The determinant and the rows of the inverse of a Jacobian of size one to three. -/
def inversion : Nat → Result (Expr α × List (List (Expr α)))
  | 1 => .ok (jacobian 0 0, [[.binary .div true .one determinant]])
  | 2 =>
    let quotient (e : Expr α) : Expr α := .binary .div true e determinant
    .ok (.minus (.times (jacobian 0 0) (jacobian 1 1)) (.times (jacobian 0 1) (jacobian 1 0)),
      [[quotient (jacobian 1 1), quotient (.neg (jacobian 0 1))],
       [quotient (.neg (jacobian 1 0)), quotient (jacobian 0 0)]])
  | 3 =>
    .ok (.sum ((List.range 3).map fun b => .times (jacobian 0 b) (cofactor 0 b)),
      (List.range 3).map fun i => (List.range 3).map fun j => .divide (cofactor j i) determinant)
  | dim => .error (.unsupportedCell (.noJacobian dim))

/-- Declarations of the entries of a matrix, row by row. -/
def declareMatrix (symbol : Nat → Nat → Symbol) (rows : List (List (Expr α))) : List (Statement α) :=
  rows.zipIdx.flatMap fun (row, i) => row.zipIdx.map fun (e, j) => .constant (symbol i j).name e

/-- The statements that declare the Jacobian, its determinant and its inverse. A point has only a
determinant. -/
def cellMap (cell : Cell) : Result (List (Statement α)) := do
  let start := [.comment "Extract vertex coordinates",
    .verbatim "const double * const * x = c.coordinates;", .blank]
  if cell.dim = 0 then return start ++ [.constant "detJ" .one]
  let vertices ← (List.range cell.dim).mapM (axisVertex cell)
  let (det, inverse) ← inversion cell.dim
  let entries := (List.range cell.dim).map fun i => vertices.map (edge i 0)
  return start ++
    [.comment "Compute Jacobian of affine map from reference cell"] ++
    declareMatrix .jacobian entries ++
    [.blank, .comment "Compute determinant of Jacobian", .constant "detJ" det, .blank,
     .comment "Compute inverse of Jacobian"] ++
    declareMatrix .inverseJacobian inverse ++ [.blank]

/-- The scalar product of two edges of a facet. -/
def edgeProduct (dim a b : Nat) : Expr α :=
  let component (k i : Nat) : Expr α := .entry (.name s!"e{k}") (.natural i)
  .sum ((List.range dim).map fun i => .times (component a i) (component b i))

/-- The ratio of measures from the Gram determinant of the edges at the first vertex. -/
def facetCase (cell : Cell) (vertices : List Nat) : Result (List (Statement α)) := do
  let origin :: others := vertices | .error .outOfRange
  let dot (a b : Nat) : Expr α := edgeProduct cell.dim a b
  let edges := others.zipIdx.map fun (v, k) => Statement.array s!"e{k}"
    ((List.range cell.dim).map fun i => .expr (edge i origin v))
  let det (e : Expr α) : Statement α := .assign (.name "det") e
  match others.length with
  | 0 => return edges ++ [det .one]
  | 1 => return edges ++ [det (.call "std::sqrt" (dot 0 0))]
  | 2 =>
    let gram : Expr α := .minus (.times (.name "g00") (.name "g11")) (.times (.name "g01") (.name "g01"))
    return edges ++ [.constant "g00" (dot 0 0), .constant "g01" (dot 0 1), .constant "g11" (dot 1 1),
      det (.call "std::sqrt" gram)]
  | n => .error (.unsupportedIntegral (.facetDimension n cell))

variable [Scalar α]

/-- The statements that set the determinant of the facet map for the number of a facet. -/
def facetMap (cell : Cell) : Result (List (Block α)) := do
  let cases ← cell.boundary.mapM fun (kind, f) => do
    facetCase cell (← FacetMap.vertices α cell kind f)
  return [.plain [.comment "Compute facet determinant", .declare "det" (.halves 0)],
    .switch "facet" true cases, .plain [.blank]]

end Variational.Geometry
