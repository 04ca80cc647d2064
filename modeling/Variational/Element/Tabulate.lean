import Variational.Cell.FacetMap
import Variational.Element.Basic

/-! Values and derivatives of the basis functions of any element at points of its cell. -/
namespace Variational.Element

variable {α : Type} [Scalar α]

/-- Put the components of a row at an offset among `size` components, the others zero. -/
def placeRow (numPoints offset size : Nat) (row : List (List α)) : Result (List (List α)) :=
  let zero := List.replicate numPoints (0 : α)
  if offset + row.length ≤ size then
    .ok (List.replicate offset zero ++ row ++ List.replicate (size - offset - row.length) zero)
  else .error .outOfRange

/-- Stack the tables of the parts, each in its own components. -/
def stack (numPoints size : Nat) : Nat → List (Table α × Nat) → Result (Table α)
  | _, [] => .ok []
  | offset, (table, width) :: rest => do
    let first ← table.mapM (placeRow numPoints offset size)
    return first ++ (← stack numPoints size (offset + width) rest)

/-- The products of the components of two rows. Component `max i j` holds the product of components
`i` and `j`, unless all products go to one component. -/
def multiplyRows (numPoints size : Nat) (component : Option Nat) (ra rb : List (List α)) :
    Result (List (List α)) :=
  let products := ra.zipIdx.flatMap fun (u, i) => rb.zipIdx.map fun (v, j) =>
    (component.getD (max i j), List.zipWith (· * ·) u v)
  if products.all (·.1 < size) then
    .ok (products.foldl (fun row (c, values) => row.set c values)
      (List.replicate size (List.replicate numPoints 0)))
  else .error .outOfRange

/-- One at the node where a point lies and zero elsewhere. -/
def tabulateNodes (nodes : List (Node α)) (derivative : List Nat) (points : List (List α)) :
    Result (Table α) := do
  if derivative.any (0 < ·) then .error (.invalidTabulation .noDerivatives)
  let positions ← points.mapM fun p =>
    match nodes.findIdx? fun n => FacetMap.near n.point p with
    | some i => .ok i
    | none => .error (.invalidTabulation .notANode)
  return (List.range nodes.length).map fun i => [positions.map fun j => if i = j then 1 else 0]

mutual

/-- A derivative of the basis functions at points. The multi-index says how often to differentiate in
each direction. -/
@[specialize] def tabulate (derivative : List Nat) (points : List (List α)) :
    Element α → Result (Table α)
  | polynomial e => e.tabulate derivative points
  | reals e => e.tabulate derivative points
  | time e => e.tabulate derivative points
  | quadrature _ _ nodes => tabulateNodes nodes derivative points
  | mixed parts => do
    let tables ← tabulateAll derivative points parts
    stack points.length (Layout.mixed (layouts parts)).valueSize 0 tables
  | restricted e indices _ => do
    let table ← tabulate derivative points e
    indices.mapM fun i => inRange table[i]?
  | enriched a b => do
    let first ← tabulate derivative points a
    return first ++ (← tabulate derivative points b)
  | product a b wrapping => do
    let da := a.cell.dim
    let dim := da + b.cell.dim
    if derivative.length ≠ dim then
      .error (.invalidTabulation (.derivativeLength derivative dim))
    if points.any (·.length < da) then .error .outOfRange
    let ta ← tabulate (derivative.take da) (points.map (·.take da)) a
    let tb ← tabulate (derivative.drop da) (points.map (·.drop da)) b
    let size := (product a b wrapping).valueSize
    let rows := ta.flatMap fun ra => tb.map fun rb => (ra, rb)
    rows.mapM fun (ra, rb) =>
      multiplyRows points.length size (wrapping.map (·.component)) ra rb

/-- The tables of several elements, with their numbers of components. -/
@[specialize] def tabulateAll (derivative : List Nat) (points : List (List α)) :
    List (Element α) → Result (List (Table α × Nat))
  | [] => .ok []
  | e :: es => do
    let table ← tabulate derivative points e
    return (table, e.valueSize) :: (← tabulateAll derivative points es)

end

end Variational.Element
