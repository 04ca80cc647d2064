import Variational.Element.Resolve
import Variational.Element.Tabulate
import Variational.Form.Basic
import Variational.Form.Plan
import Variational.Form.Region

/-! From sums of products to forms. Every product becomes a term: its reference tensor comes from
quadrature on each region of integration, its geometry tensor from the maps of values and derivatives to
the physical cell, summed over the free indices. -/
namespace Variational

variable {α : Type} [Scalar α]

namespace ReferenceTensor

/-- Values by basis function and component, each the list over the points. -/
abbrev Rows (α : Type) := Array (Array (List α))

/-- A basis function of the product with the derivative of its element that is needed. -/
abbrev Key := Nat × List Nat

/-- The derivatives that occur, in the order in which the secondary indices ask for them. -/
def keys (dim : Nat) (plans : List (Plan α)) (secondary : MultiIndex) : List Key :=
  (secondary.indices.flatMap fun a =>
    plans.zipIdx.map fun (p, b) => (b, p.derivative dim a)).eraseDups

@[specialize] def tabulateKeys (plans : List (Plan α)) (points : List (List α)) (ks : List Key) :
    Result (List (Key × Rows α)) :=
  ks.mapM fun key => do
    let p ← inRange plans[key.1]?
    let table ← p.element.tabulate key.2 points
    return (key, (table.map List.toArray).toArray)

/-- The tables of the factors for one value of the secondary index. -/
def factors (dim : Nat) (plans : List (Plan α)) (tables : List (Key × Rows α)) (a : List Nat) :
    List (Plan α × Rows α) :=
  plans.zipIdx.map fun (p, b) => (p, (tables.lookup (b, p.derivative dim a)).getD #[])

/-- The weighted sum over the points of the product of the factors. -/
@[specialize] def entry (weights : List α) (factors : List (Plan α × Rows α)) (i a : List Nat) :
    Result α := do
  let rows ← factors.mapM fun (p, table) =>
    inRange ((table[p.dofAt i a]?).bind (·[p.referenceComponent a]?))
  return Scalar.sum (rows.foldl (List.zipWith (· * ·)) weights)

/-- The entries on one region. -/
@[specialize] def onRegion (dim : Nat) (plans : List (Plan α)) (primary secondary : MultiIndex)
    (rule : Rule α) : Result (Array α) := do
  let tables ← tabulateKeys plans rule.points (keys dim plans secondary)
  let columns := secondary.indices.map fun a => (a, factors dim plans tables a)
  let rows ← primary.indices.mapM fun i =>
    columns.mapM fun (a, fs) => entry rule.weights fs i a
  return rows.flatten.toArray

end ReferenceTensor

namespace GeometryEntry

/-- The value of an index, given values of the free ones. -/
def indexValue (assignment : List (Nat × Nat)) : Index → Nat
  | .fixed n => n
  | .free label => (assignment.lookup label).getD 0

/-- The contribution of one basis function: the dof of a coefficient, the map of its component and the
map of its derivatives. -/
def planFactor? (assignment : List (Nat × Nat)) (a : List Nat) (p : Plan α) :
    Option (Monomial α) := do
  let dof := match p.argument, p.dof with
    | .function n, .secondary axis => [Symbol.coefficient n (a.getD axis 0)]
    | _, _ => []
  let c := p.component.elim 0 (indexValue assignment)
  let value ← ValueBlock.factor? p.blocks c (p.referenceComponent a)
  let derivatives := p.derivatives.map fun (index, axis) =>
    Symbol.inverseJacobian (a.getD axis 0) (indexValue assignment index)
  return ⟨1, 0, dof⟩ * value * ⟨1, 0, derivatives⟩

/-- The monomial of a product for one value of the secondary index and of the free indices. -/
def monomial? (p : Product α) (plans : List (Plan α)) (assignment : List (Nat × Nat))
    (a : List Nat) : Option (Monomial α) := do
  let factors ← plans.mapM (planFactor? assignment a)
  let number := ⟨p.factor, 0, p.constants.map fun c => .constant c.number⟩
  return factors.foldl (· * ·) number

/-- All assignments of values to the free indices. -/
def assignments (ranges : Ranges) : List (List (Nat × Nat)) :=
  (MultiIndex.tuples (ranges.map (·.2))).map fun values => List.zip (ranges.map (·.1)) values

/-- The entries that do not vanish identically. -/
def ofProduct (p : Product α) (d : Draft α) (secondary : MultiIndex) : List (GeometryEntry α) :=
  let all := assignments d.ranges
  secondary.indices.zipIdx.filterMap fun (a, position) =>
    match Monomial.simplify (all.filterMap fun values => monomial? p d.plans values a) with
    | [] => none
    | ms => some ⟨position, ms⟩

end GeometryEntry

namespace Product

/-- The smallest label of a free index that occurs only once. -/
def unpaired? (p : Product α) : Option Nat :=
  let labels := p.basis.flatMap fun b => b.indices.filterMap Index.label?
  (labels.filter fun l => labels.count l == 1).min?

/-- Plans for the basis functions of a product, in order. -/
def plan (cell : Cell) (p : Product α) : Resolve α (Draft α) :=
  let trialPosition := if (p.find? .test).isSome then 1 else 0
  p.basis.foldlM (fun d b => do
    let e ← Element.resolve b.element
    Resolve.ofResult (d.add cell trialPosition b e)) Draft.empty

/-- The term of a product whose basis functions are planned. -/
@[specialize] def term (cell : Cell) (numPoints : Option Nat) (p : Product α) (d : Draft α) :
    Result (Term α) := do
  let m := numPoints.getD d.numPoints
  let primary : MultiIndex := ⟨d.primaryDims⟩
  let secondary : MultiIndex := ⟨d.extents⟩
  let regions ← match p.integral with
    | .interior => Region.interior cell m
    | .boundary => Region.boundary cell m
  let values ← regions.mapM (ReferenceTensor.onRegion cell.dim d.plans primary secondary)
  return {
    reference := ⟨primary, secondary, d.axes, values⟩
    geometry := GeometryEntry.ofProduct p d secondary
    integral := p.integral
    numPoints := m }

@[specialize] def build (cell : Cell) (numPoints : Option Nat) (p : Product α) :
    Resolve α (Term α) := do
  if let some label := p.unpaired? then throw (.unpairedIndex (Index.free label).name)
  let d ← p.plan cell
  Resolve.ofResult (p.term cell numPoints d)

end Product

namespace Sum

/-- The element of the first basis function with a role. -/
def elementOf (s : Sum α) (a : Argument) : Resolve α (Option (Element α)) :=
  match s.find? a with
  | some b => some <$> Element.resolve b.element
  | none => pure none

/-- The cell of the first basis function. Only the empty sum may do without. -/
def cellOf (s : Sum α) (name : String) : Resolve α (Option Cell) :=
  match s.basis with
  | b :: _ => (fun e => some e.cell) <$> Element.resolve b.element
  | [] => if s.products.isEmpty then pure none else throw (.noBasisFunctions name)

/-- The terms of the products of a sum; without a cell there are none. -/
@[specialize] def buildTerms (numPoints : Option Nat) (s : Sum α) :
    Option Cell → Resolve α (List (Term α))
  | some cell => s.products.mapM (·.build cell numPoints)
  | none => pure []

/-- The form with the given terms, which all have to have one rank. -/
def assemble (name : String) (s : Sum α) (test trial : Option (Element α))
    (coefficients : List (Option (Element α))) (cell : Option Cell) (terms : List (Term α)) :
    Result (Form α) :=
  let interior := terms.filter (·.integral = .interior)
  let boundary := terms.filter (·.integral = .boundary)
  let ordered := interior ++ boundary
  let ranks := ordered.map (·.reference.primary.rank)
  if ranks.all (ranks.head? == some ·) then .ok {
    name, interior, boundary, coefficients, cell
    dims := (ordered.head?.map (·.reference.primary.dims)).getD []
    numCoefficients := s.numFunctions
    numConstants := s.numConstants
    arguments := [test, trial].filterMap id
    format := .header }
  else .error (.rankMismatch name ranks)

/-- The form of a sum. Its arguments and coefficients have the elements of the first basis functions
with their roles. -/
@[specialize] def build (numPoints : Option Nat) (name : String) (s : Sum α) :
    Resolve α (Form α) := do
  let test ← s.elementOf .test
  let trial ← s.elementOf .trial
  let coefficients ← (List.range s.numFunctions).mapM fun n => s.elementOf (.function n)
  let cell ← s.cellOf name
  let terms ← s.buildTerms numPoints cell
  Resolve.ofResult (s.assemble name test trial coefficients cell terms)

/-- One form for each sum. A single form has the given name; several ones are numbered. -/
@[specialize] def buildAll (numPoints : Option Nat) (name : String) :
    List (Sum α) → Resolve α (List (Form α))
  | [s] => return [← s.build numPoints name]
  | sums => sums.zipIdx.mapM fun (s, i) => s.build numPoints s!"{name}_{i}"

end Sum
end Variational
