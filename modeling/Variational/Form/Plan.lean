import Variational.Element.Basic
import Variational.Tensor.Term

/-! How the basis functions of a product enter the tensors: which index gives the dof of each of them,
and which secondary axes its components and derivatives run over. -/
namespace Variational

/-- Components that are carried to the physical cell together. -/
structure ValueBlock where
  offset : Nat
  size : Nat
  map : ValueMap
  deriving DecidableEq, Repr

namespace Element

variable {α : Type} [Scalar α]

mutual

/-- The blocks of an element; each part of a sum has its own. -/
def blocksFrom (offset : Nat) : Element α → List ValueBlock
  | mixed parts => blocksOfParts offset parts
  | e => [⟨offset, e.valueSize, e.layout.map⟩]

def blocksOfParts (offset : Nat) : List (Element α) → List ValueBlock
  | [] => []
  | e :: es => blocksFrom offset e ++ blocksOfParts (offset + e.valueSize) es

end

def blocks (e : Element α) : List ValueBlock := blocksFrom 0 e

end Element

/-- The coefficient of reference component `s` in physical component `c`, if it can be other than
zero. -/
def ValueBlock.factor? {α : Type} [Scalar α] (blocks : List ValueBlock) (c s : Nat) :
    Option (Monomial α) := do
  let block ← blocks.find? fun b => b.offset ≤ c && c < b.offset + b.size
  if s < block.offset ∨ block.offset + block.size ≤ s then none
  let i := c - block.offset
  let j := s - block.offset
  match block.map with
  | .identity => if i = j then some .one else none
  | .contravariantPiola => some ⟨1, 1, [.jacobian i j]⟩
  | .covariantPiola => some ⟨1, 0, [.inverseJacobian j i]⟩

/-- Where the dof of a basis function comes from. -/
inductive DofSource where
  | primary (position : Nat)
  | secondary (axis : Nat)
  deriving DecidableEq, Repr

structure Plan (α : Type) where
  element : Element α
  argument : Argument
  dof : DofSource
  component : Option Index
  componentAxis : Option Nat
  /-- Physical direction and secondary axis of each derivative. -/
  derivatives : List (Index × Nat)
  blocks : List ValueBlock

namespace Plan

variable {α : Type}

def dofAt (p : Plan α) (i a : List Nat) : Nat :=
  match p.dof with
  | .primary n => i.getD n 0
  | .secondary n => a.getD n 0

def referenceComponent (p : Plan α) (a : List Nat) : Nat := p.componentAxis.elim 0 (a.getD · 0)

/-- How often to differentiate in each reference direction. -/
def derivative (p : Plan α) (dim : Nat) (a : List Nat) : List Nat :=
  (List.range dim).map fun d => p.derivatives.countP fun (_, axis) => a.getD axis 0 == d

end Plan

/-- The ranges of the free indices met so far, by increasing label. -/
abbrev Ranges := List (Nat × Nat)

namespace Ranges

def insert (label range : Nat) : Ranges → Ranges
  | [] => [(label, range)]
  | (l, r) :: rest =>
    if label < l then (label, range) :: (l, r) :: rest
    else if label = l then (label, range) :: rest
    else (l, r) :: insert label range rest

def rangeOf? (rs : Ranges) (label : Nat) : Option Nat := rs.lookup label

/-- An index has to fit the range it runs over, and a label runs over one range. -/
def check (rs : Ranges) (index : Index) (range : Nat) : Result Ranges :=
  match index with
  | .fixed n => if n < range then .ok rs else .error (.unsupportedIntegral (.indexRange n range))
  | .free label =>
    match rs.rangeOf? label with
    | some other =>
      if other = range then .ok rs
      else .error (.unsupportedIntegral (.twoRanges index.name other range))
    | none => .ok (rs.insert label range)

end Ranges

/-- The plans made so far, with the secondary axes and the free indices that they use. -/
structure Draft (α : Type) where
  plans : List (Plan α)
  axes : List SecondaryAxis
  /-- The extent of each axis. -/
  extents : List Nat
  ranges : Ranges

namespace Draft

variable {α : Type} [Scalar α]

def empty : Draft α := ⟨[], [], [], []⟩

/-- One more axis; its number is the number of axes before. -/
def addAxis (d : Draft α) (axis : SecondaryAxis) (extent : Nat) : Draft α :=
  { d with axes := d.axes ++ [axis], extents := d.extents ++ [extent] }

/-- Axes for derivatives in the given directions, from the given position on. -/
def addDerivatives (dim basis : Nat) : (position : Nat) → List Index → Draft α →
    Result (List (Index × Nat) × Draft α)
  | _, [], d => .ok ([], d)
  | position, i :: is, d => do
    let ranges ← d.ranges.check i dim
    let axis := d.axes.length
    let d := { d with ranges }.addAxis (.derivative basis position) dim
    let (rest, d) ← addDerivatives dim basis (position + 1) is d
    return ((i, axis) :: rest, d)

/-- The component index of a basis function: a scalar needs none, and nothing has more than one. -/
def componentOf (l : Layout) : List Index → Result (Option Index)
  | [] =>
    if l.valueSize = 1 then .ok none
    else .error (.unsupportedIntegral (.componentCount l.signature))
  | [i] => .ok (some i)
  | _ => .error (.unsupportedIntegral (.componentCount l.signature))

/-- Where the dof of a basis function comes from. A coefficient function has an axis of its own; the
trial function comes after the test function if the product has one. -/
def addDof (trialPosition dimension : Nat) (argument : Argument) (d : Draft α) :
    DofSource × Draft α :=
  match argument with
  | .test => (.primary 0, d)
  | .trial => (.primary trialPosition, d)
  | .function n => (.secondary d.axes.length, d.addAxis (.coefficient n) dimension)

/-- The component index has to fit the number of components. -/
def checkComponent (size : Nat) (component : Option Index) (d : Draft α) : Result (Draft α) :=
  match component with
  | some i => return { d with ranges := ← d.ranges.check i size }
  | none => .ok d

/-- Values of more than one component have an axis for them. -/
def addComponent (basis size : Nat) (d : Draft α) : Option Nat × Draft α :=
  if 1 < size then (some d.axes.length, d.addAxis (.component basis) size) else (none, d)

/-- Plan one more basis function with its resolved element. -/
def add (cell : Cell) (trialPosition : Nat) (d : Draft α) (b : BasisFunction) (e : Element α) :
    Result (Draft α) := do
  let l := e.layout
  let basis := d.plans.length
  if l.cell ≠ cell then .error (.incompatibleElements (.otherCell l.signature cell))
  let (dof, d) := d.addDof trialPosition l.dimension b.argument
  let component ← componentOf l b.components
  let d ← d.checkComponent l.valueSize component
  let (componentAxis, d) := d.addComponent basis l.valueSize
  let (derivatives, d) ← d.addDerivatives cell.dim basis 0 b.derivatives
  let plan := ⟨e, b.argument, dof, component, componentAxis, derivatives, e.blocks⟩
  return { d with plans := d.plans ++ [plan] }

/-- Dimensions of the test and trial spaces that occur. -/
def primaryDims (d : Draft α) : List Nat :=
  [Argument.test, .trial].filterMap fun a =>
    (d.plans.find? fun p => p.argument = a).map (·.element.dimension)

/-- Number of points in each direction that integrates the product exactly. -/
def numPoints (d : Draft α) : Nat := ((d.plans.map (·.element.degree)).foldr (· + ·) 0 + 2) / 2

end Draft
end Variational
