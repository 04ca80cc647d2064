import Variational.Element.Basic

/-! Building elements from elements, with the conditions under which that makes sense. -/
namespace Variational.Element

variable {α : Type} [Scalar α]

/-- All parts live on the cell of the first part and have its numbers of entities. -/
def checkParts (first : Layout) : List Layout → Result Unit
  | [] => .ok ()
  | l :: ls =>
    if l.cell ≠ first.cell then .error (.incompatibleElements (.mixedCells first.cell l.cell))
    else if EntityDofs.counts l.entityDofs ≠ EntityDofs.counts first.entityDofs then
      .error (.incompatibleElements (.entityStructures "mixed element"))
    else checkParts first ls

/-- The direct sum of a list of elements. -/
def mix (parts : List (Element α)) : Result (Element α) :=
  match layouts parts with
  | [] => .error (.incompatibleElements .noSubElements)
  | l :: ls => do
    checkParts l ls
    return mixed parts

/-- The sum of the spaces of two elements with values of one kind on one cell. -/
def enrich (a b : Element α) : Result (Element α) := do
  let la := a.layout
  let lb := b.layout
  if la.cell ≠ lb.cell then .error (.incompatibleElements (.enrichedCells la.cell lb.cell))
  if la.valueShape ≠ lb.valueShape ∨ la.map ≠ lb.map then
    .error (.incompatibleElements (.enrichedValues la.signature lb.signature))
  if EntityDofs.counts la.entityDofs ≠ EntityDofs.counts lb.entityDofs then
    .error (.incompatibleElements (.entityStructures "enriched element"))
  match a.expansion?, b.expansion? with
  | some x, some y =>
    if x.cell = y.cell then
      let _ ← joinExpansions (.enriched la lb) x y
  | _, _ => pure ()
  return enriched a b

/-- The product of two elements, of which at least one has scalar values. -/
def tensor (a b : Element α) : Result (Element α) :=
  let la := a.layout
  let lb := b.layout
  if la.valueSize ≠ 1 ∧ lb.valueSize ≠ 1 then
    .error (.incompatibleElements (.vectorFactors la.signature lb.signature))
  else .ok (product a b none)

/-- The component that the form degrees of the factors allow for a field in the given space. -/
def wrappingComponent? (space : SobolevSpace) (a b : Layout) : Option Nat :=
  let da := a.cell.dim
  let db := b.cell.dim
  match space with
  | .hdiv =>
    if a.formDegree = da ∧ b.formDegree + 1 = db then some (da + db - 1)
    else if da = 1 ∧ a.formDegree = 0 ∧ b.formDegree = db then some 0
    else none
  | .hcurl =>
    if da = 1 ∧ a.formDegree = 1 ∧ b.formDegree = 0 then some 0
    else if db = 1 ∧ a.formDegree = 0 ∧ b.formDegree = 1 then some (da + db - 1)
    else none

/-- Turn a scalar product element into a vector field. -/
def wrap (space : SobolevSpace) (e : Element α) : Result (Element α) :=
  match e with
  | product a b wrapping =>
    let l := e.layout
    if l.valueShape ≠ [] ∨ wrapping.isSome then
      .error (.incompatibleElements (.wrappedTwice l.signature))
    else match wrappingComponent? space a.layout b.layout with
      | some c => .ok (product a b (some ⟨space, c⟩))
      | none => .error (.incompatibleElements (.noWrapping l.signature space.name))
  | e => .error (.incompatibleElements (.wrapsProductsOnly space.name e.signature))

/-- The basis functions that a restriction keeps: those of the interior of the cell, or those of all
entities up to a dimension. -/
def selectIndices (l : Layout) (domain : Domain) : Result (List Nat) :=
  match domain with
  | .interior =>
    if l.cell.dim = 0 then .error (.unsupportedRestrictionDomain domain.name)
    else inRange ((l.entityDofs[l.cell.dim]?).bind (·[0]?))
  | .upTo c => .ok ((l.entityDofs.take (c.dim + 1)).flatMap List.flatten)
  | .other _ => .error (.unsupportedRestrictionDomain domain.name)

/-- Values at the points of the rule that integrates polynomials of a degree. -/
@[specialize] def atQuadraturePoints (cell : Cell) (degree : Nat) : Result (Element α) := do
  let rule ← Rule.onCell cell ((degree + 2) / 2)
  return quadrature cell degree rule.nodes

end Variational.Element
