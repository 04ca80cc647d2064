import Variational.Header.BasisEvaluation
import Variational.Header.Naming

/-! The class of a finite element. -/
namespace Variational.ElementClass
open Code

/-- The name of the shape of a cell in generated code. Product cells are known by their numbers of
vertices. -/
def shape : Cell → Result String
  | .simple .point => .error (.unsupportedCell (.noShape (.simple .point)))
  | .simple c => .ok c.name
  | .product a b =>
    let cell := Cell.product a b
    match cell.dim, cell.numVertices with
    | 2, 4 => .ok "quadrilateral"
    | 3, 8 => .ok "hexahedron"
    | 3, 6 => .ok "prism"
    | _, _ => .error (.unsupportedCell (.noShape cell))

variable {α : Type} [Scalar α]

/-- The evaluation of the basis functions, or code that fails with the reason why there is none. -/
def evaluation (e : Element α) : Result (Body α) :=
  let statements := match e.expansion? with
    | some x => BasisEvaluation.body x
    | none => .error (.notImplemented (.familyBasis e.layout.family))
  match statements with
  | .ok ss => .ok (.runPrecise ss)
  | .error .outOfRange => .error .outOfRange
  | .error problem => .ok (.throws problem.message)

/-- The number of components along each axis of a value; a scalar has one component. -/
def valueDimensions (valueShape : List Nat) : Body α :=
  .select "i" (valueShape.zipIdx.map fun (d, i) => (i, .number d))
    (.number (if valueShape.isEmpty then 1 else 0))

def define (name : String) (parts : List String) (e : Element α) : Result (Class α) := do
  let l := e.layout
  let shape ← shape l.cell
  let evaluate ← evaluation e
  let subElements := Naming.instances name parts
  return {
    doc := ["This class defines the interface for a finite element."]
    name
    base := "finite_element"
    fields := []
    initial := .idle
    members := [
      ⟨"Return a string identifying the finite element",
        "virtual const char* signature() const", .returns (.quoted l.signature)⟩,
      ⟨"Return the cell shape",
        "virtual ufc::shape cell_shape() const", .returns (.plain s!"ufc::{shape}")⟩,
      ⟨"Return the dimension of the finite element function space",
        "virtual unsigned int space_dimension() const", .returns (.number l.dimension)⟩,
      ⟨"Return the rank of the value space",
        "virtual unsigned int value_rank() const", .returns (.number l.valueShape.length)⟩,
      ⟨"Return the dimension of the value space for axis i",
        "virtual unsigned int value_dimension(unsigned int i) const", valueDimensions l.valueShape⟩,
      ⟨"Evaluate basis function i at the given point of the reference cell",
        "virtual void evaluate_basis(unsigned int i,\n" ++
        "                            double* values,\n" ++
        "                            const double* coordinates) const", evaluate⟩,
      ⟨"Return the number of sub elements (for a mixed element)",
        "virtual unsigned int num_sub_elements() const", .returns (.number subElements.length)⟩,
      ⟨"Create a new finite element for sub element i (for a mixed element)",
        "virtual ufc::finite_element* create_sub_element(unsigned int i) const",
        .select "i" subElements (.plain "0")⟩] }

def scheme : Naming.Scheme α (Element α) := ⟨Element.signature, Element.numParts, define⟩

end Variational.ElementClass
