import Variational.Header.DofMapClass
import Variational.Header.ElementClass
import Variational.Header.Geometry
import Variational.Header.TensorCode

/-! The classes of a form: its elements and dof maps with all their parts, its integrals, and the form
itself. -/
namespace Variational.FormClass
open Code

variable {α : Type}

def integralSuffix : IntegralKind → String
  | .interior => "cell_integral"
  | .boundary => "exterior_facet_integral"

def integralName (f : Form α) (kind : IntegralKind) : String := s!"{f.name}_{integralSuffix kind}_0"

def integralDoc : IntegralKind → List String
  | .interior =>
    ["This class defines the interface for the tabulation of the cell",
     "tensor corresponding to the local contribution to a form from",
     "the integral over a cell."]
  | .boundary =>
    ["This class defines the interface for the tabulation of the",
     "exterior facet tensor corresponding to the local contribution to",
     "a form from the integral over an exterior facet."]

section Integrals

variable [Scalar α]

/-- The statements before those of the tensor: the map of the cell and the scale factor. -/
def scaling (cell : Cell) : IntegralKind → Result (List (Block α))
  | .interior => do
    let map ← Geometry.cellMap cell
    return [.plain (map ++ [.comment "Set scale factor",
      .constant "det" (.call "std::abs" Geometry.determinant), .blank])]
  | .boundary => do
    let map ← Geometry.cellMap cell
    return .plain map :: (← Geometry.facetMap cell)

def tabulateTensor (kind : IntegralKind) (body : Body α) : Member α :=
  match kind with
  | .interior =>
    ⟨"Tabulate the tensor for the contribution from a local cell",
      "virtual void tabulate_tensor(double* A,\n" ++
      "                             const double * const * w,\n" ++
      "                             const ufc::cell& c) const", body⟩
  | .boundary =>
    ⟨"Tabulate the tensor for the contribution from a local exterior facet",
      "virtual void tabulate_tensor(double* A,\n" ++
      "                             const double * const * w,\n" ++
      "                             const ufc::cell& c,\n" ++
      "                             unsigned int facet) const", body⟩

/-- The class of an integral, if the form has terms of its kind. -/
def integral (f : Form α) (kind : IntegralKind) : Result (List (Item α)) := do
  if (f.terms kind).isEmpty then return []
  let some cell := f.cell | .error (.unsupportedIntegral (.noCell f.name))
  let geometry ← scaling cell kind
  let body := .run (geometry ++ [.plain (TensorCode.body f kind)])
  return [.define {
    doc := integralDoc kind
    name := integralName f kind
    base := integralSuffix kind
    fields := []
    initial := .idle
    members := [tabulateTensor kind body] }]

end Integrals

/-- Create one of the integrals. -/
def createIntegral (f : Form α) (kind : IntegralKind) : Body α :=
  .returns (if (f.terms kind).isEmpty then .number 0 else .create (integralName f kind))

def numIntegrals (f : Form α) (kind : IntegralKind) : Body α :=
  .returns (.number (if (f.terms kind).isEmpty then 0 else 1))

/-- Create the element or dof map of an argument or coefficient. -/
def createNumbered (f : Form α) (kind : String) : Body α :=
  .select "i" (f.elements.map fun (n, _) => (n, .create s!"{f.name}_{kind}_{n}")) (.number 0)

variable [Scalar α]

def define (f : Form α) : Class α where
  doc := [
    "This class defines the interface for the assembly of the global",
    "tensor corresponding to a form with r + n arguments, that is, a",
    "mapping",
    "",
    "    a : V1 x V2 x ... Vr x W1 x W2 x ... x Wn -> R",
    "",
    "with arguments v1, v2, ..., vr, w1, w2, ..., wn. The rank r",
    "global tensor A is defined by",
    "",
    "    A = a(V1, V2, ..., Vr, w1, w2, ..., wn),",
    "",
    "where each argument Vj represents the application to the",
    "sequence of basis functions of Vj and w1, w2, ..., wn are given",
    "fixed functions (coefficients)."]
  name := f.name
  base := "form"
  fields := []
  initial := .idle
  members := [
    ⟨"Return a string identifying the form",
      "virtual const char* signature() const", .returns (.quoted f.signature)⟩,
    ⟨"Return the rank of the global tensor (r)",
      "virtual unsigned int rank() const", .returns (.number f.rank)⟩,
    ⟨"Return the number of coefficients (n)",
      "virtual unsigned int num_coefficients() const",
      .returns (.number (f.numCoefficients + f.numConstants))⟩,
    ⟨"Return the number of cell integrals",
      "virtual unsigned int num_cell_integrals() const", numIntegrals f .interior⟩,
    ⟨"Return the number of exterior facet integrals",
      "virtual unsigned int num_exterior_facet_integrals() const", numIntegrals f .boundary⟩,
    ⟨"Return the number of interior facet integrals",
      "virtual unsigned int num_interior_facet_integrals() const", .returns (.number 0)⟩,
    ⟨"Create a new finite element for argument function i",
      "virtual ufc::finite_element* create_finite_element(unsigned int i) const",
      createNumbered f "finite_element"⟩,
    ⟨"Create a new dof map for argument function i",
      "virtual ufc::dof_map* create_dof_map(unsigned int i) const", createNumbered f "dof_map"⟩,
    ⟨"Create a new cell integral on sub domain i",
      "virtual ufc::cell_integral* create_cell_integral(unsigned int i) const",
      createIntegral f .interior⟩,
    ⟨"Create a new exterior facet integral on sub domain i",
      "virtual ufc::exterior_facet_integral* create_exterior_facet_integral(unsigned int i) const",
      createIntegral f .boundary⟩,
    ⟨"Create a new interior facet integral on sub domain i",
      "virtual ufc::interior_facet_integral* create_interior_facet_integral(unsigned int i) const",
      .returns (.number 0)⟩]

/-- Everything that a header holds for one form. -/
def items (f : Form α) : Result (List (Item α)) := do
  let elements ← ElementClass.scheme.items s!"{f.name}_finite_element" []
    (f.elements.flatMap fun (n, e) => e.flatten [n])
  let dofMaps ← DofMapClass.scheme.items s!"{f.name}_dof_map" []
    (f.dofMaps.flatMap fun (n, m) => m.flatten [n])
  let interior ← integral f .interior
  let boundary ← integral f .boundary
  return elements ++ dofMaps ++ interior ++ boundary ++ [.define (define f)]

end Variational.FormClass
