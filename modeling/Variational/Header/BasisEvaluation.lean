import Variational.Code.Statement
import Variational.Element.Polynomial

/-! Code that evaluates the basis functions of an element on the triangle: the expansion set by its
recurrences in collapsed coordinates on the square, then its products with the coefficients. -/
namespace Variational.BasisEvaluation
open Code

variable {α : Type} [Scalar α]

def tableName (e : PolynomialElement α) (component : Nat) : String :=
  if e.valueSize = 1 then "coefficients" else s!"coefficients_{component}"

/-- One table of coefficients for each component. -/
def coefficientTables (e : PolynomialElement α) : Result (List (Statement α)) := do
  let tables ← (List.range e.valueSize).mapM fun c => do
    let rows ← e.coefficients.mapM fun row => inRange row[c]?
    let dims := [e.dimension, Expansion.count e.cell e.embeddedDegree]
    return [.table "const static" (tableName e c) dims (rows.map .flat), .blank]
  return .comment "Table of coefficients" :: tables.flatten

/-- From the reference triangle to the square; the collapsed vertex goes to its left side. -/
def coordinateMap : List (Statement α) :=
  let twice (i : Nat) : Expr α :=
    .minus (.times (.halves 4) (.entry (.name "coordinates") (.natural i))) .one
  let x : Expr α := .name "x"
  let y : Expr α := .name "y"
  [.comment "Get coordinates on the biunit reference triangle",
   .declare "x" (twice 0),
   .declare "y" (twice 1),
   .blank,
   .comment "Map coordinates to the reference square",
   .choose (.minus y .one) "DOLFIN_EPS" "x" (.halves (-2))
     (.minus (.divide (.binary .mul true (.halves 4) (.parens (.plus .one x))) (.parens (.minus .one y)))
       .one),
   .blank]

/-- Powers of half of `1 - y`. -/
def scalings (degree : Nat) : List (Statement α) :=
  let half : Expr α := .halves 1
  let step (i : Nat) : Initial α := .expr (.times (.entry (.name "scalings") (.natural i))
    (.parens (.minus half (.binary .mul true half (.name "y")))))
  [.comment "Generate scalings",
   .array "scalings" (.expr .one :: (List.range degree).map step),
   .blank]

/-- The Jacobi polynomials up to degree `n` in a variable, each from the two before it in the array. -/
def recurrence (a : α) (n : Nat) (var array : String) : List (Initial α) :=
  let x : Expr α := .name var
  let p (k : Nat) : Expr α := .entry (.name array) (.natural k)
  let linear := Jacobi.linear a 0
  let first : Initial α := .joined [⟨linear.constant, [], false⟩, ⟨linear.slope, [x], false⟩]
  let later (r : Jacobi.Step α) (k : Nat) : Initial α := .folded
    [⟨r.constant, [p (k + 1)], true⟩, ⟨r.slope, [x, p (k + 1)], true⟩, ⟨r.previous, [p k], true⟩]
  let all := .expr .one :: first :: (Jacobi.steps a 0 n).zipIdx.map fun (r, k) => later r k
  all.take (n + 1)

def firstFactors (degree : Nat) : List (Statement α) :=
  [.comment "Compute psitilde_a",
   .array "psitilde_a" (recurrence 0 degree "x" "psitilde_a"),
   .blank]

def secondFactors (degree : Nat) : List (Statement α) :=
  let arrays := (List.range (degree + 1)).map fun i =>
    let name := s!"psitilde_bs_{i}"
    .array name (recurrence (2 * (i : α) + 1) (degree - i) "y" name)
  .comment "Compute psitilde_bs" :: arrays ++ [.blank]

/-- The members of the expansion set as scaled products of the factors. -/
def basisValues (degree : Nat) : List (Statement α) :=
  let value : Nat × Nat → Initial α := fun (i, j) =>
    let norm := Scalar.sqrt (((i : α) + 1 / 2) * ((i : α) + j + 1))
    let at_ (array : String) (k : Nat) : Expr α := .entry (.name array) (.natural k)
    .expr (.times (.binary .mul true (.binary .mul true (at_ "psitilde_a" i) (at_ "scalings" i))
      (at_ s!"psitilde_bs_{i}" j)) (.literal norm))
  [.comment "Compute basisvalues",
   .array "basisvalues" ((Expansion.triangleModes degree).map value),
   .blank]

/-- The sum over the expansion set of coefficients times members, for each component. -/
def dotProduct (e : PolynomialElement α) : List (Statement α) :=
  let n := Expansion.count e.cell e.embeddedDegree
  let component (c : Nat) : List (Statement α) :=
    let target : Expr α :=
      if e.valueSize = 1 then .name "*values" else .entry (.name "values") (.natural c)
    let coefficient := Expr.entry (.entry (.name (tableName e c)) (.name "i")) (.name "j")
    [.assign target (.halves 0),
     .loop [("j", n)] target true (.times coefficient (.entry (.name "basisvalues") (.name "j")))]
  .comment "Compute value" :: (List.range e.valueSize).flatMap component

/-- The body of the function that writes the components of basis function `i` at a point to
`values`. -/
def body (e : PolynomialElement α) : Result (List (Statement α)) :=
  match e.cell with
  | .triangle => do
    let n := e.embeddedDegree
    return (← coefficientTables e) ++ coordinateMap ++ scalings n ++ firstFactors n ++ secondFactors n ++
      basisValues n ++ dotProduct e
  | .tetrahedron => .error (.notImplemented .tetrahedronBasis)
  | cell => .error (.unsupportedCell (.noEvaluation cell))

end Variational.BasisEvaluation
