import Variational.Polynomial.Derivative

/-! Elements with polynomial basis functions on a reference cell, stored as coefficients in an
expansion set. The basis dual to a list of point functionals comes from inverting the matrix of the
functionals on a spanning set. -/
namespace Variational

/-- Numbers of the dofs on each entity, by dimension and entity number. -/
abbrev EntityDofs := List (List (List Nat))

/-- Values of basis functions, by basis function, component and point. -/
abbrev Table (α : Type) := List (List (List α))

namespace EntityDofs

/-- Consecutive numbers from `start` on, in blocks of the given lengths. -/
def blocks (start : Nat) : List Nat → List (List Nat)
  | [] => []
  | n :: ns => List.range' start n :: blocks (start + n) ns

/-- Consecutive numbers, with `perEntity d` of them on each entity of dimension `d`. -/
def uniformFrom (start dim : Nat) (perEntity : Nat → Nat) : List Nat → EntityDofs
  | [] => []
  | n :: ns =>
    blocks start (List.replicate n (perEntity dim)) ::
      uniformFrom (start + n * perEntity dim) (dim + 1) perEntity ns

/-- Consecutive numbers on entities with the given counts, with `perEntity d` of them on each entity of
dimension `d`. -/
def uniform (counts : List Nat) (perEntity : Nat → Nat) : EntityDofs :=
  uniformFrom 0 0 perEntity counts

/-- All of `n` dofs in the interior of the cell. -/
def inside (counts : List Nat) (n : Nat) : EntityDofs :=
  uniform counts fun d => if d + 1 = counts.length then n else 0

/-- The dofs of one entity. -/
def on (e : EntityDofs) (dim entity : Nat) : List Nat := (e.getD dim []).getD entity []

end EntityDofs

/-- How values on the reference cell are carried to a physical cell. -/
inductive ValueMap where
  | identity
  | covariantPiola
  | contravariantPiola
  deriving DecidableEq, Repr

/-- The functional that adds up the components at a point with weights. -/
structure Functional (α : Type) where
  point : List α
  weights : List α

/-- The value of a scalar at a point. -/
def Functional.at {α : Type} [Scalar α] (point : List α) : Functional α := ⟨point, [1]⟩

structure PolynomialElement (α : Type) where
  family : String
  cell : ReferenceCell
  degree : Nat
  /-- The degree of the expansion set that the coefficients refer to. -/
  embeddedDegree : Nat
  map : ValueMap
  valueShape : List Nat
  /-- Coefficients by dof, component and member of the expansion set. -/
  coefficients : List (List (List α))
  entityDofs : EntityDofs

namespace PolynomialElement

variable {α : Type} [Scalar α]

def valueSize (e : PolynomialElement α) : Nat := e.valueShape.foldr (· * ·) 1

def dimension (e : PolynomialElement α) : Nat := e.coefficients.length

def signature (e : PolynomialElement α) : String :=
  s!"FiniteElement('{e.family}', {e.cell.name}, {e.degree})"

/-- The weighted sum of rows of length `n`. A row of weight zero is left out, so that its entries need
not be finite. -/
@[specialize] def combine (n : Nat) (weights : List α) (rows : List (List α)) : List α :=
  (List.zip weights rows).foldl
    (fun acc (w, row) => if w == 0 then acc else List.zipWith (fun a x => a + w * x) acc row)
    (List.replicate n 0)

/-- A functional on a member of a span, from the values of the expansion set at its point. The weight
of a component goes to its coefficients, and all terms are added in one sum. -/
@[specialize] def applyFunctional (f : Functional α) (values : List α) (member : List (List α)) : α :=
  Scalar.sum (List.zipWith (fun w row => List.zipWith (fun c v => w * c * v) row values) f.weights
    member).flatten

/-- A member of a span has a coefficient for each component and each of `n` polynomials. -/
def covers (valueSize n : Nat) (member : List (List α)) : Bool :=
  valueSize ≤ member.length && (member.take valueSize).all (n ≤ ·.length)

/-- Coefficients of the basis dual to the functionals in the space that is spanned. -/
@[specialize] def dualBasis (family : String) (cell : ReferenceCell) (degree valueSize : Nat)
    (span : List (List (List α))) (functionals : List (Functional α)) (embeddedDegree : Nat) :
    Result (List (List (List α))) := do
  if functionals.length ≠ span.length then
    .error (.incompatibleElements (.functionalCount family functionals.length span.length))
  if let some f := functionals.find? (·.weights.length != valueSize) then
    .error (.incompatibleElements (.functionalWeights family f.weights.length valueSize))
  let values ← Expansion.values cell embeddedDegree (functionals.map (·.point))
  let n := Expansion.count cell embeddedDegree
  if !span.all (covers valueSize n) then .error .outOfRange
  let matrix := span.map fun member =>
    List.zipWith (fun f v => applyFunctional f v member) functionals values
  match LinearSystem.inverse matrix with
  | none => .error (.singularMatrix (.dual family degree))
  | some inverse =>
    let components := (List.range valueSize).map fun c => span.map fun member => member.getD c []
    return inverse.map fun weights => components.map fun rows => combine n weights rows

/-- The element whose basis functions are dual to the functionals: dof `i` belongs to functional
`i`. -/
@[specialize] def create (family : String) (cell : ReferenceCell) (degree : Nat)
    (valueShape : List Nat) (span : List (List (List α))) (functionals : List (Functional α))
    (entityDofs : EntityDofs) (map : ValueMap) (embeddedDegree : Nat) :
    Result (PolynomialElement α) := do
  let coefficients ← dualBasis family cell degree (valueShape.foldr (· * ·) 1) span functionals
    embeddedDegree
  return { family, cell, degree, embeddedDegree, map, valueShape, coefficients, entityDofs }

/-- The whole expansion set as a span of scalar functions. -/
def fullSpan (cell : ReferenceCell) (degree : Nat) : List (List (List α)) :=
  (LinearSystem.identity (Expansion.count cell degree)).map fun row => [row]

/-- The scalar element of full degree that is dual to evaluation at points. -/
@[specialize] def ofPoints (family : String) (cell : ReferenceCell) (degree : Nat)
    (points : List (List α)) (entityDofs : EntityDofs) : Result (PolynomialElement α) :=
  create family cell degree [] (fullSpan cell degree) (points.map Functional.at) entityDofs .identity
    degree

/-- Coefficients of one component in the expansion set of another degree. -/
def liftRow (cell : ReferenceCell) (degree target : Nat) (row : List α) : Result (List α) :=
  let n := Expansion.count cell target
  let slots := (Expansion.embedding cell degree target).take row.length
  if slots.length = row.length ∧ slots.all (· < n) then
    .ok ((List.zip slots row).foldl (fun acc (i, x) => acc.set i x) (List.replicate n 0))
  else .error .outOfRange

/-- All coefficients in the expansion set of a higher degree. -/
def lift (e : PolynomialElement α) (target : Nat) : Result (List (List (List α))) :=
  e.coefficients.mapM (·.mapM (liftRow e.cell e.embeddedDegree target))

/-- The element spanned by some of the basis functions. -/
def subset (e : PolynomialElement α) (family : String) (dofs : List Nat) (entityDofs : EntityDofs) :
    Result (PolynomialElement α) := do
  let coefficients ← dofs.mapM fun d => inRange e.coefficients[d]?
  return { e with family, coefficients, entityDofs }

/-- A derivative of the basis functions at points. -/
@[specialize] def tabulate (e : PolynomialElement α) (derivative : List Nat)
    (points : List (List α)) : Result (Table α) := do
  let values ← Expansion.derivative e.cell e.embeddedDegree derivative points
  return e.coefficients.map (·.map fun row => values.map fun v => Scalar.dot row v)

end PolynomialElement
end Variational
