import Variational.LinearSystem
import Variational.Polynomial.Expansion
import Variational.Quadrature.Rule

/-! Derivatives of the expansion sets of any order, and projection onto a set. Beyond the first order
a derivative is a matrix applied to the remaining derivative: entry `(i, j)` of the matrix of a
direction is the coefficient of member `j` in the derivative of member `i`. -/
namespace Variational.Expansion

variable {α : Type} [Scalar α]

/-- The values of the members at points, by point. -/
@[specialize] def values (cell : ReferenceCell) (degree : Nat) (points : List (List α)) :
    Result (List (List α)) := return (← tabulate cell degree points).map (·.map (·.value))

/-- The first derivatives in one direction, by point. -/
@[specialize] def slopes (cell : ReferenceCell) (degree direction : Nat) (points : List (List α)) :
    Result (List (List α)) :=
  if direction < cell.dim then
    return (← tabulate cell degree points).map (·.map fun j => j.gradient.getD direction 0)
  else .error .outOfRange

/-- Integrals of all products of a member of the first list with a member of the second. Members are
given by their values at the nodes. -/
@[specialize] def pairings (weights : List α) (us vs : List (List α)) : List (List α) :=
  us.map fun u =>
    let wu := List.zipWith (· * ·) weights u
    vs.map fun v => Scalar.dot wu v

/-- The matrix of the derivative in one direction: the solution of the mass system. -/
@[specialize] def derivativeMatrix (cell : ReferenceCell) (degree direction : Nat) :
    Result (List (List α)) := do
  let n := count cell degree
  let rule ← Rule.onReference cell (degree + 1)
  let psi := LinearSystem.columns n (← values cell degree rule.points)
  let dpsi := LinearSystem.columns n (← slopes cell degree direction rule.points)
  let mass := pairings rule.weights psi psi
  match LinearSystem.solve mass (LinearSystem.columns n (pairings rule.weights dpsi psi)) with
  | some x => return LinearSystem.columns n x
  | none => .error (.singularMatrix (.mass degree cell))

/-- The matrices of all directions. -/
@[specialize] def derivativeMatrices (cell : ReferenceCell) (degree : Nat) :
    Result (List (List (List α))) :=
  (List.range cell.dim).mapM (derivativeMatrix cell degree)

/-- The directions that a multi-index of derivatives names, each as often as it says. -/
def directions (derivative : List Nat) : List Nat :=
  derivative.zipIdx.flatMap fun (n, d) => List.replicate n d

/-- Derivatives along a list of directions, by point. -/
@[specialize] def along (cell : ReferenceCell) (degree : Nat) (points : List (List α)) :
    List Nat → Result (List (List α))
  | [] => values cell degree points
  | [d] => slopes cell degree d points
  | d :: rest => do
    let inner ← along cell degree points rest
    let matrix ← derivativeMatrix cell degree d
    return inner.map fun v => matrix.map fun row => Scalar.dot row v

/-- The derivative with the given multi-index, of all members, by point. -/
@[specialize] def derivative (cell : ReferenceCell) (degree : Nat) (derivative : List Nat)
    (points : List (List α)) : Result (List (List α)) :=
  along cell degree points (directions derivative)

/-- Coefficients of the components of a function, by integration against the set. The set is
orthogonal, and a member integrates against itself to `1 / 2 ^ dim`. -/
@[specialize] def project (cell : ReferenceCell) (degree valueSize : Nat) (f : List α → List α) :
    Result (List (List α)) := do
  let rule ← Rule.onReference cell (degree + 2)
  let table ← values cell degree rule.points
  let images := rule.points.map f
  if images.any (valueSize < ·.length) then .error .outOfRange
  let scale : α := (Nat.pow 2 cell.dim : α)
  return (List.range valueSize).map fun c =>
    let weighted := List.zipWith (fun w v => scale * w * v.getD c 0) rule.weights images
    (LinearSystem.columns (count cell degree) table).map fun t => Scalar.dot weighted t

end Variational.Expansion
