import Variational.Header.Naming

/-! The class of a dof map. The dofs of a mesh are numbered in blocks: all those on entities of one
dimension come before those of the next, and each entity has a fixed number of them. -/
namespace Variational.DofMapClass
open Code

/-- The dofs on the entities of one dimension. -/
structure Level where
  dim : Nat
  /-- Number of dofs on each entity. -/
  size : Nat
  /-- The local dofs on each entity of the cell. -/
  entities : List (List Nat)
  deriving DecidableEq, Repr

/-- The levels that have dofs. -/
def levels (m : DofMap) : List Level :=
  (m.entityDofs.zipIdx.map fun (entities, d) => ⟨d, m.numEntityDofs d, entities⟩).filter
    fun l => 0 < l.size

variable {α : Type}

namespace Level

/-- Number of dofs of the mesh on this level. -/
def extent (l : Level) : Expr α :=
  .times (.natural l.size) (.entry (.name "m.num_entities") (.natural l.dim))

/-- Global number of the dof at a position on a mesh entity. -/
def global (l : Level) (entity position : Nat) : Expr α :=
  let index := Expr.entry (.entry (.name "c.entity_indices") (.natural l.dim)) (.natural entity)
  .plus (.plus (.name "offset") (.times (.natural l.size) index)) (.natural position)

/-- Set the global numbers of the local dofs and move on to the next block. -/
def statements (l : Level) : List (Statement α) :=
  .blank ::
    (l.entities.zipIdx.flatMap fun (dofs, e) => dofs.zipIdx.map fun (dof, k) =>
      .assign (.entry (.name "dofs") (.natural dof)) (l.global e k)) ++
    [.loop [] (.name "offset") true l.extent]

end Level

/-- The number of dofs of the mesh. -/
def globalDimension (m : DofMap) : Expr α :=
  match levels m with
  | [] => .natural 0
  | ls => .sum (ls.map Level.extent)

def numbering (m : DofMap) : List (Statement α) :=
  .verbatim "unsigned int offset = 0;" :: (levels m).flatMap Level.statements

/-- The dofs on each facet. Facets of a product cell have no common numbering. -/
def facets (m : DofMap) : Result (List (List Nat)) :=
  match m.cell.reference? with
  | some c => (List.range c.facets.length).mapM m.facetDofs
  | none => .ok []

def facetNumbering (facets : List (List Nat)) : Body α :=
  if facets.isEmpty then .throws "Facet dofs are not available for this cell"
  else .run [.switch "facet" false (facets.map fun dofs => dofs.zipIdx.map fun (dof, k) =>
    .assign (.entry (.name "dofs") (.natural k)) (.natural dof))]

/-- A value for each dimension. -/
def byDimension (m : DofMap) (f : Nat → Value) (otherwise : Value) : Body α :=
  .select "d" ((List.range m.entityDofs.length).map fun d => (d, f d)) otherwise

def define (name : String) (parts : List String) (m : DofMap) : Result (Class α) := do
  let facets ← facets m
  let numFacetDofs ← m.numFacetDofs
  let subMaps := Naming.instances name parts
  let total : Expr α := .name "__global_dimension"
  return {
    doc := ["This class defines the interface for a local-to-global mapping of",
      "degrees of freedom (dofs)."]
    name
    base := "dof_map"
    fields := ["unsigned int __global_dimension;"]
    initial := .run [.plain [.assign total (.natural 0)]]
    members := [
      ⟨"Return a string identifying the dof map",
        "virtual const char* signature() const", .returns (.quoted m.signature)⟩,
      ⟨"Return true iff mesh entities of topological dimension d are needed",
        "virtual bool needs_mesh_entities(unsigned int d) const",
        byDimension m (fun d => .truth (m.needsEntities d)) (.truth false)⟩,
      ⟨"Initialize dof map for mesh (return true iff init_cell() is needed)",
        "virtual bool init_mesh(const ufc::mesh& m)",
        .run [.plain [.assign total (globalDimension m), .verbatim "return false;"]]⟩,
      ⟨"Initialize dof map for given cell",
        "virtual void init_cell(const ufc::mesh& m,\n                       const ufc::cell& c)",
        .idle⟩,
      ⟨"Finish initialization of dof map for cells",
        "virtual void init_cell_finalize()", .idle⟩,
      ⟨"Return the dimension of the global finite element function space",
        "virtual unsigned int global_dimension() const", .returns (.plain "__global_dimension")⟩,
      ⟨"Return the dimension of the local finite element function space",
        "virtual unsigned int local_dimension() const", .returns (.number m.localDimension)⟩,
      ⟨"Return the number of dofs on each cell facet",
        "virtual unsigned int num_facet_dofs() const", .returns (.number numFacetDofs)⟩,
      ⟨"Return the number of dofs associated with each cell entity of dimension d",
        "virtual unsigned int num_entity_dofs(unsigned int d) const",
        byDimension m (fun d => .number (m.numEntityDofs d)) (.number 0)⟩,
      ⟨"Tabulate the local-to-global mapping of dofs on a cell",
        "virtual void tabulate_dofs(unsigned int* dofs,\n" ++
        "                           const ufc::mesh& m,\n" ++
        "                           const ufc::cell& c) const", .run [.plain (numbering m)]⟩,
      ⟨"Tabulate the local-to-local mapping from facet dofs to cell dofs",
        "virtual void tabulate_facet_dofs(unsigned int* dofs,\n" ++
        "                                 unsigned int facet) const", facetNumbering facets⟩,
      ⟨"Return the number of sub dof maps (for a mixed element)",
        "virtual unsigned int num_sub_dof_maps() const", .returns (.number subMaps.length)⟩,
      ⟨"Create a new dof_map for sub dof map i (for a mixed element)",
        "virtual ufc::dof_map* create_sub_dof_map(unsigned int i) const",
        .select "i" subMaps (.plain "0")⟩] }

def scheme : Naming.Scheme α DofMap := ⟨DofMap.signature, DofMap.numParts, define⟩

end Variational.DofMapClass
