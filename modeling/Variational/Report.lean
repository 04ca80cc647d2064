import Variational.Code.Combination
import Variational.OutputOptions
import Variational.Text.Lines

/-! The LaTeX report on a list of forms: elements, geometry tensors and reference tensors. -/
namespace Variational.Report

/-- An argument in braces. -/
def braced (s : String) : String := "\x7b" ++ s ++ "\x7d"

/-- A command with an argument. -/
def command (name argument : String) : String := "\\" ++ name ++ braced argument

/-- Characters with a meaning of their own in text are escaped. -/
def escaped (s : String) : String :=
  String.join (s.toList.map fun c =>
    if "_&%$#\x7b\x7d".toList.contains c then "\\" ++ c.toString else c.toString)

/-- A symbol in math mode. -/
def symbol : Symbol → String
  | .jacobian i j => "J_" ++ braced s!"{i}{j}"
  | .inverseJacobian i j => "K_" ++ braced s!"{i}{j}"
  | s => s.name

/-- Division by a power of the determinant. -/
def overDeterminant : Nat → String
  | 0 => ""
  | 1 => " / \\det J"
  | 2 => " / (\\det J)^2"
  | p => "/(" ++ " ".intercalate (List.replicate p "detJ") ++ ")"

/-- A monomial in math mode. The coefficient is left out when it is one and there are symbols. -/
def monomial (places : Nat) (m : Monomial Float) : String :=
  let number := if m.coefficient == 1 && !m.symbols.isEmpty then []
    else [Scientific.literal m.coefficient places]
  " ".intercalate (number ++ m.symbols.map symbol) ++ overDeterminant m.detPower

def axis : SecondaryAxis → String
  | .coefficient n => "dofs of $w_" ++ braced (toString n) ++ "$"
  | .component b => "component of $\\phi_" ++ braced (toString b) ++ "$"
  | .derivative b k => s!"derivative {k} of $\\phi_" ++ braced (toString b) ++ "$"

/-- Lines of an aligned environment. -/
def aligned (title : String) (rows : List String) : List String :=
  [command "paragraph" title, command "begin" "align*"] ++ rows ++ [command "end" "align*", ""]

def scale : IntegralKind → String
  | .interior => "|\\det J|"
  | .boundary => "|\\det J_f|"

/-- The label of an index. -/
def label (index : List Nat) : String := MultiIndex.label "" index

/-- The label of an entry of the geometry tensor. -/
def geometryLabel (secondary : List Nat) : String := "G_" ++ braced (label secondary)

/-- The label of an entry of the reference tensor. -/
def referenceLabel (primary secondary : List Nat) : String :=
  "A^0_" ++ braced (label primary ++ ", " ++ label secondary)

def geometryRow (places : Nat) (t : Term Float) (a : List Nat) (g : GeometryEntry Float) : String :=
  let value := " + ".intercalate (g.monomials.map (monomial places))
  geometryLabel a ++ " &= " ++ scale t.integral ++ " \\left(" ++ value ++ "\\right) \\\\"

/-- The entries of a reference tensor on one region that are not negligible. -/
def referenceRows (places : Nat) (t : Term Float) (region : Nat) : List String :=
  let secondary := t.reference.secondary.indices
  t.reference.primary.indices.zipIdx.flatMap fun (index, i) => t.geometry.filterMap fun g =>
    let v := t.reference.value region i g.position
    if Code.Piece.isZero v then none
    else some (referenceLabel index (secondary.getD g.position []) ++ " &= " ++
      Scientific.literal v places ++ " \\\\")

def termSection (places : Nat) (regions : List String) (t : Term Float) (number : Nat) :
    List String :=
  let r := t.reference
  let secondary := r.secondary.indices
  let axes := if r.axes.isEmpty then []
    else ["The secondary indices run over: " ++ ", ".intercalate (r.axes.map axis) ++ "."]
  [command "subsection" s!"Term {number} ({t.integral.name})",
   "",
   s!"The reference tensor has {r.primary.rank} primary and {r.secondary.rank} secondary indices " ++
     s!"and was computed with {t.numPoints} quadrature points per direction."] ++
    axes ++ [""] ++
    aligned "Geometry tensor"
      (t.geometry.map fun g => geometryRow places t (secondary.getD g.position []) g) ++
    ((regions.take r.numRegions).zipIdx.flatMap fun (region, k) =>
      aligned ("Reference tensor (" ++ escaped region ++ ")") (referenceRows places t k))

/-- The names of the regions that an integral runs over. -/
def regions (cell : Option Cell) : IntegralKind → List String
  | .interior => ["cell"]
  | .boundary => match cell with
    | some c => c.boundary.map fun (kind, f) => s!"{kind.name} {f}"
    | none => ["cell"]

def formSection (places : Nat) (f : Form Float) : List String :=
  let tensorShape := if f.dims.isEmpty then "1" else " \\times ".intercalate (f.dims.map toString)
  let elements := if f.elements.isEmpty then []
    else [command "subsection*" "Elements", "", command "begin" "enumerate"] ++
      (f.elements.map fun (n, e) => s!"\\item[{n}] " ++ command "texttt" (escaped e.signature)) ++
      [command "end" "enumerate", ""]
  [command "section" ("Form " ++ escaped f.name),
   "",
   command "begin" "itemize",
   s!"\\item Rank: {f.rank}",
   s!"\\item Coefficients: {f.numCoefficients}",
   s!"\\item Constants: {f.numConstants}",
   "\\item Cell: " ++ f.cell.elim "none" (fun c => escaped c.name),
   "\\item Element tensor: $" ++ tensorShape ++ "$",
   command "end" "itemize",
   ""] ++ elements ++
    ([IntegralKind.interior, .boundary].flatMap fun kind =>
      (f.terms kind).zipIdx.flatMap fun (t, n) => termSection places (regions f.cell kind) t n)

def lines (o : OutputOptions) (forms : List (Form Float)) : List String :=
  ["% This report was automatically generated by formc."] ++
    (Lines.of o.license).map ("% " ++ ·) ++
    ["",
     "\\documentclass[a4paper]" ++ braced "article",
     command "usepackage" "amsmath",
     "",
     command "title" (escaped (o.fileName forms)),
     command "begin" "document",
     "\\maketitle",
     ""] ++
    forms.flatMap (formSection o.places) ++ [command "end" "document"]

end Variational.Report
