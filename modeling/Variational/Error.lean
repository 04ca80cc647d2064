import Variational.Cell

/-! Everything that can go wrong between reading a cell name and writing a header, as causes, and the
wording of each cause in one place. -/
namespace Variational

/-- Why an operation does not support a cell. -/
inductive CellProblem where
  | unknownName (name : String)
  | simplexDimension (dim : Nat)
  | noElements (family : String) (cell : ReferenceCell)
  | needsFactors (family : String) (cell : Cell)
  | facetDofs (cell : Cell)
  | noShape (cell : Cell)
  | noAxisVertex (cell : Cell) (axis : Nat)
  | noJacobian (dim : Nat)
  | noEvaluation (cell : ReferenceCell)
  deriving DecidableEq, Repr

/-- Why elements cannot be combined, or data do not make an element. Elements are given by their
signatures. -/
inductive Incompatibility where
  | functionalCount (family : String) (count dimension : Nat)
  | functionalWeights (family : String) (weights valueSize : Nat)
  | noSubElements
  | mixedCells (a b : Cell)
  | entityStructures (context : String)
  | enrichedCells (a b : Cell)
  | enrichedValues (a b : String)
  | vectorFactors (a b : String)
  | wrappedTwice (element : String)
  | noWrapping (element space : String)
  | wrapsProductsOnly (space element : String)
  | otherCell (element : String) (cell : Cell)
  deriving DecidableEq, Repr

/-- Why an element has no values to give. -/
inductive TabulationProblem where
  | derivativeLength (derivative : List Nat) (dim : Nat)
  | noDerivatives
  | notANode
  deriving DecidableEq, Repr

/-- Why an integral has no tensor representation. -/
inductive IntegralProblem where
  | indexRange (index range : Nat)
  | twoRanges (index : String) (first second : Nat)
  | boundary (cell : Cell)
  | componentCount (element : String)
  | noCell (form : String)
  | facetDimension (dim : Nat) (cell : Cell)
  deriving DecidableEq, Repr

/-- A matrix that should have an inverse. -/
inductive SquareMatrix where
  | mass (degree : Nat) (cell : ReferenceCell)
  | dual (family : String) (degree : Nat)
  deriving DecidableEq, Repr

/-- Code that is not generated. -/
inductive MissingCode where
  | tetrahedronBasis
  | familyBasis (family : String)
  deriving DecidableEq, Repr

inductive Error where
  | unsupportedFamily (family : String)
  | unsupportedElementType (descriptor : String)
  | unsupportedRestriction (descriptor : String)
  | unsupportedRestrictionDomain (domain : String)
  | unknownFacetKind (name : String)
  | unknownTargetFormat (name : String)
  | rankMismatch (form : String) (ranks : List Nat)
  | emptyFormList
  | unsupportedCell (problem : CellProblem)
  | tabulatorUnsupported (family : String) (cell : ReferenceCell) (degree : Nat)
  | invalidFacet (facet : Nat) (kind : FacetKind)
  | noQuadraturePoints (cell : ReferenceCell)
  | incompatibleElements (problem : Incompatibility)
  | invalidTabulation (problem : TabulationProblem)
  | unsupportedIntegral (problem : IntegralProblem)
  | unpairedIndex (index : String)
  | noBasisFunctions (form : String)
  | singularMatrix (matrix : SquareMatrix)
  | notImplemented (missing : MissingCode)
  /-- The output file cannot be created. -/
  | notWritable
  /-- A number that names no vertex, direction, coordinate, component or dof. -/
  | outOfRange
  deriving DecidableEq, Repr

/-- Computations that may fail. -/
abbrev Result := Except Error

/-- A list of numbers in brackets. -/
def bracketed (ns : List Nat) : String := "[" ++ ", ".intercalate (ns.map toString) ++ "]"

def CellProblem.message : CellProblem → String
  | unknownName name => name
  | simplexDimension dim => s!"simplex of dimension {dim}"
  | noElements family cell => s!"{family} elements cannot be created on a {cell.name}"
  | needsFactors family cell =>
    s!"{family} elements are not defined on {cell.name}; use a tensor product element"
  | facetDofs cell => s!"facet dofs are tabulated per facet kind on {cell.name}"
  | noShape (.simple _) => "UFC has no shape for a vertex"
  | noShape cell => s!"UFC has no shape for {cell.name}"
  | noAxisVertex cell axis => s!"{cell.name} has no vertex on axis {axis}"
  | noJacobian dim => s!"no Jacobian for cells of dimension {dim}"
  | noEvaluation cell =>
    s!"basis functions can only be evaluated on triangles, not on {cell.name}"

def Incompatibility.message : Incompatibility → String
  | functionalCount family count dimension =>
    s!"{family}: {count} functionals for a space of dimension {dimension}"
  | functionalWeights family weights valueSize =>
    s!"{family}: functional with {weights} weights for value size {valueSize}"
  | noSubElements => "a mixed element needs at least one sub-element"
  | mixedCells a b => s!"mixed element with sub-elements on {a.name} and {b.name}"
  | entityStructures context => s!"{context}: sub-elements have different entity structures"
  | enrichedCells a b => s!"cannot enrich an element on {a.name} with an element on {b.name}"
  | enrichedValues a b => s!"cannot enrich {a} with {b}: the values are mapped differently"
  | vectorFactors a b => s!"tensor product of two vector valued elements {a} and {b}"
  | wrappedTwice element => s!"only scalar tensor product elements can be wrapped: {element}"
  | noWrapping element space => s!"{element} cannot be turned into an {space} element"
  | wrapsProductsOnly space element =>
    s!"{space} can only wrap tensor product elements, not {element}"
  | otherCell element cell => s!"{element} is not defined on {cell.name}"

/-- The coordinates of a point that is no node are left out of the text. -/
def TabulationProblem.message : TabulationProblem → String
  | derivativeLength derivative dim =>
    s!"derivative {bracketed derivative} on a cell of dimension {dim}"
  | noDerivatives => "quadrature elements have no derivatives"
  | notANode => "[..] is not a point of the quadrature element"

def IntegralProblem.message : IntegralProblem → String
  | indexRange index range => s!"index {index} out of range {range}"
  | twoRanges index first second => s!"index {index} runs over both {first} and {second} values"
  | boundary cell => s!"boundary integrals on {cell.name}"
  | componentCount element =>
    s!"a basis function of {element} needs exactly one component index"
  | noCell form => s!"form {form} has no cell"
  | facetDimension dim cell => s!"facets of dimension {dim} on {cell.name}"

def SquareMatrix.message : SquareMatrix → String
  | mass degree cell => s!"mass matrix of degree {degree} on {cell.name}"
  | dual family degree => s!"dual matrix of {family} of degree {degree}"

def MissingCode.message : MissingCode → String
  | tetrahedronBasis => "evaluation of basis functions on tetrahedra"
  | familyBasis family => s!"evaluation of basis functions of {family} elements"

def Error.message : Error → String
  | unsupportedFamily family => s!"Unsupported element family: {family}"
  | unsupportedElementType descriptor => s!"Unsupported element type: {descriptor}"
  | unsupportedRestriction descriptor => s!"Unable to restrict element: {descriptor}"
  | unsupportedRestrictionDomain domain => s!"Restriction to domain {domain} is not supported"
  | unknownFacetKind name => s!"Unknown facet kind: {name}"
  | unknownTargetFormat name => s!"Unknown target format: {name}"
  | rankMismatch form ranks =>
    s!"Form {form} must be linear in each of its arguments, found ranks {bracketed ranks}"
  | emptyFormList => "No forms specified"
  | unsupportedCell problem => s!"Unsupported cell: {problem.message}"
  | tabulatorUnsupported family cell degree =>
    s!"Tabulator cannot create {family} of degree {degree} on {cell.name}"
  | invalidFacet facet kind => s!"Invalid facet {facet} for facet kind {kind.name}"
  | noQuadraturePoints cell =>
    s!"Invalid quadrature: cannot create a rule with no points on {cell.name}"
  | incompatibleElements problem => s!"Incompatible elements: {problem.message}"
  | invalidTabulation problem => s!"Invalid tabulation: {problem.message}"
  | unsupportedIntegral problem => s!"Unsupported integral: {problem.message}"
  | unpairedIndex index => s!"Free index {index} appears only once in a product"
  | noBasisFunctions form => s!"Form {form} has products but no basis functions"
  | singularMatrix matrix => s!"Singular matrix: {matrix.message}"
  | notImplemented missing => s!"Not implemented: {missing.message}"
  | notWritable => "The output file cannot be created"
  | outOfRange => "Number out of range"

/-- The value, or an index error when there is none. -/
def inRange {β : Type} (o : Option β) : Result β := o.elim (.error .outOfRange) .ok

@[simp] theorem inRange_some {β : Type} (b : β) : inRange (some b) = .ok b := rfl
@[simp] theorem inRange_none {β : Type} : inRange (none : Option β) = .error .outOfRange := rfl

/-- Cells are read by name. -/
def ReferenceCell.parse (s : String) : Result ReferenceCell :=
  (ofName? s).elim (.error (.unsupportedCell (.unknownName s))) .ok

def FacetKind.parse (s : String) : Result FacetKind :=
  (ofName? s).elim (.error (.unknownFacetKind s)) .ok

end Variational
