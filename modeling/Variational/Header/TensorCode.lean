import Variational.Code.Statement
import Variational.Form.Basic

/-! Code that computes the element tensor of an integral: constants, the reference tensors as static
tables, the entries of the geometry tensors, and their contraction. Only the entries of a reference tensor
that meet an entry of its geometry tensor are written. -/
namespace Variational.TensorCode
open Code

variable {α : Type}

/-- Constants are passed after the coefficients, one in each slot. -/
def constants (f : Form α) : List (Statement α) :=
  if f.numConstants = 0 then []
  else
    .comment "Extract constants" ::
      (List.range f.numConstants).map
        (fun n => .constant (Symbol.constant n).name (.entry2 "w" (f.numCoefficients + n) 0)) ++ [.blank]

/-- The terms that contribute, with their numbers. -/
def written (terms : List (Term α)) : List (Term α × Nat) :=
  terms.zipIdx.filter fun (t, _) => !t.geometry.isEmpty

section Tables

variable [Scalar α]

/-- The entries of a row of the reference tensor that are written. -/
def row (t : Term α) (region i : Nat) : List α :=
  t.geometry.map fun g => t.reference.value region i g.position

/-- The table of a term; on the boundary it has one more index, over the facets. -/
def table (t : Term α) (number : Nat) : Statement α :=
  let rows := t.reference.primary.size
  let region (r : Nat) : List (List α) := (List.range rows).map (row t r)
  let extents := [rows, t.geometry.length]
  match t.integral with
  | .interior => .table "static const" s!"A0_{number}" extents ((region 0).map .flat)
  | .boundary =>
    .table "static const" s!"A0_{number}" (t.reference.numRegions :: extents)
      ((List.range t.reference.numRegions).map fun r => .stacked (region r))

def tables (terms : List (Term α)) : List (Statement α) :=
  .comment "Reference tensors" :: (written terms).flatMap fun (t, n) => [table t n, .blank]

end Tables

/-- The name of an entry of the geometry tensor of a term. -/
def entryName (number : Nat) (a : List Nat) : String :=
  if a.isEmpty then s!"G{number}" else s!"G{number}_" ++ MultiIndex.label "_" a

/-- The names of the entries of a term, with the entries. -/
def namedEntries (t : Term α) (number : Nat) : List (String × GeometryEntry α) :=
  let indices := t.reference.secondary.indices
  t.geometry.map fun g => (entryName number (indices.getD g.position []), g)

def geometry [Scalar α] (terms : List (Term α)) : List (Statement α) :=
  .comment "Compute geometry tensors" ::
    ((written terms).flatMap fun (t, n) =>
      let entries := namedEntries t n
      (entries.map fun (name, g) =>
        .constant name (.times (.name "det") (.parens (Monomial.sumExpr g.monomials)))) ++
      [.array s!"G_{n}" (entries.map fun (name, _) => .expr (.name name))]) ++
    [.blank]

/-- The sum over all terms of the contractions of reference and geometry tensor. -/
def contraction (f : Form α) (kind : IntegralKind) : List (Statement α) :=
  let target : Expr α := .entry (.name "A") (.name "i")
  let outer := ("i", f.tensorSize)
  [.comment "Compute element tensor", .loop [outer] target false (.halves 0)] ++
    (written (f.terms kind)).map fun (t, n) =>
      let reference : Expr α := match kind with
        | .interior => .name s!"A0_{n}"
        | .boundary => .entry (.name s!"A0_{n}") (.name "facet")
      .loop [outer, ("a", t.geometry.length)] target true
        (.times (.entry (.entry reference (.name "i")) (.name "a"))
          (.entry (.name s!"G_{n}") (.name "a")))

/-- What follows the geometry of the cell. -/
def body [Scalar α] (f : Form α) (kind : IntegralKind) : List (Statement α) :=
  constants f ++ tables (f.terms kind) ++ geometry (f.terms kind) ++ contraction f kind

end Variational.TensorCode
