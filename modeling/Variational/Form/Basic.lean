import Variational.Element.DofMap
import Variational.Tensor.Term

/-! Forms in tensor representation. -/
namespace Variational

/-- Output formats. -/
inductive Format where
  | header
  | report
  | dump
  deriving DecidableEq, Repr

namespace Format

def name : Format → String
  | header => "C++"
  | report => "LaTeX"
  | dump => "raw"

def extension : Format → String
  | header => "h"
  | report => "tex"
  | dump => "raw"

def ofName? : String → Option Format
  | "C++" => some header
  | "c++" => some header
  | "LaTeX" => some report
  | "latex" => some report
  | "raw" => some dump
  | _ => none

/-- The format with a name; without a name it is a C++ header. -/
def select : Option String → Result Format
  | none => .ok header
  | some s => (ofName? s).elim (.error (.unknownTargetFormat s)) .ok

end Format

structure Form (α : Type) where
  name : String
  /-- The space dimension of each argument. -/
  dims : List Nat
  interior : List (Term α)
  boundary : List (Term α)
  numCoefficients : Nat
  numConstants : Nat
  /-- The elements of the test and trial functions. -/
  arguments : List (Element α)
  /-- The element of each coefficient function that is used. -/
  coefficients : List (Option (Element α))
  /-- The cell, if the form has a basis function. -/
  cell : Option Cell
  format : Format

namespace Form

variable {α : Type}

def rank (f : Form α) : Nat := f.dims.length

def terms (f : Form α) : IntegralKind → List (Term α)
  | .interior => f.interior
  | .boundary => f.boundary

/-- Number of entries of the element tensor. -/
def tensorSize (f : Form α) : Nat := (MultiIndex.mk f.dims).size

/-- The elements of arguments and coefficients with their numbers; coefficients that are not used have
none. -/
def elements (f : Form α) : List (Nat × Element α) :=
  (f.arguments.map some ++ f.coefficients).zipIdx.filterMap fun (e, i) => e.map fun e => (i, e)

variable [Scalar α]

def dofMaps (f : Form α) : List (Nat × DofMap) :=
  f.elements.map fun (i, e) => (i, DofMap.ofElement e)

def signature (f : Form α) : String :=
  s!"Form {f.name} of rank {f.rank} on " ++
    " x ".intercalate (f.elements.map fun (_, e) => e.signature)

end Form
end Variational
