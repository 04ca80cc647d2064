import Variational.Dump
import Variational.Form.Build
import Variational.Header
import Variational.Report

/-! From sums of products to the text of a file. -/
namespace Variational

/-- The text for a list of forms, which may not be empty. -/
def Format.generate (format : Format) (o : OutputOptions) (forms : List (Form Float)) :
    Result String := do
  if forms.isEmpty then .error .emptyFormList
  let lines ← match format with
    | .header => Header.lines o forms
    | .report => pure (Report.lines o forms)
    | .dump => pure (Dump.lines o forms)
  return String.join (lines.map (· ++ "\n"))

/-- A file in the output directory. -/
structure OutputFile where
  name : String
  text : String
  deriving DecidableEq, Repr

namespace OutputFile

/-- The most bytes that the name of a file has. -/
def maxNameLength : Nat := 255

/-- The most bytes that a path has. -/
def maxPathLength : Nat := 4095

/-- The name of the file that a path leads to from a directory without subdirectories, if it can be
created there. A component that is a single dot stays in the directory. -/
def place? (path : String) : Option String :=
  match (path.splitOn "/").reverse with
  | [] => none
  | name :: up =>
    if up.getLast? != some "" && up.all (fun c => c = "." || c = "") && !name.contains '\x00' &&
        name.utf8ByteSize ≤ maxNameLength && path.utf8ByteSize ≤ maxPathLength
    then some name else none

end OutputFile

/-- The file for a list of forms, in the format of the first one; no forms need no file. -/
def OutputOptions.file? (o : OutputOptions) : List (Form Float) → Result (Option OutputFile)
  | [] => .ok none
  | f :: fs => do
    let text ← f.format.generate o (f :: fs)
    match OutputFile.place? (o.fileName (f :: fs) ++ "." ++ f.format.extension) with
    | some name => return some ⟨name, text⟩
    | none => .error .notWritable

structure CompilerOptions where
  /-- The name of the forms and of the file. -/
  name : String := "form"
  format : Format := .header
  license : String := ({} : OutputOptions).license
  /-- The number of quadrature points in each direction, if it is not chosen for each term. -/
  numPoints : Option Nat := none
  /-- Number of digits after the point of a literal. -/
  places : Nat := 15
  deriving DecidableEq, Repr

namespace CompilerOptions

def output (o : CompilerOptions) : OutputOptions := ⟨some o.name, o.license, o.places⟩

/-- One form for each sum. -/
def build (o : CompilerOptions) (sums : List (Sum Float)) : Resolve Float (List (Form Float)) := do
  let forms ← Sum.buildAll o.numPoints o.name sums
  return forms.map fun f => { f with format := o.format }

/-- The file for a list of sums; there is none for no sums. -/
def compile (o : CompilerOptions) (sums : List (Sum Float)) :
    Resolve Float (Option OutputFile) := do
  let forms ← o.build sums
  Resolve.ofResult (o.output.file? forms)

end CompilerOptions
end Variational
