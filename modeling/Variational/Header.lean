import Variational.Header.FormClass
import Variational.OutputOptions
import Variational.Text.Uppercase

/-! The C++ header for a list of forms. -/
namespace Variational.Header

/-- The comment at the top. -/
def banner (license : String) : List String :=
  ["// This code conforms with the UFC specification version 1.0",
   "// and was automatically generated by formc version 0.1.0-dev."] ++
    (if license.isEmpty then []
     else "//" :: (Lines.of license).map fun l => Lines.trimEnd ("// " ++ l)) ++
    [""]

/-- What stands around the classes. -/
def preamble (guard : String) : List String :=
  ["#ifndef " ++ guard,
   "#define " ++ guard,
   "",
   "#include <cmath>",
   "#include <stdexcept>",
   "#include <ufc.h>",
   "",
   "#ifndef DOLFIN_EPS",
   "#define DOLFIN_EPS 3.0e-16",
   "#endif",
   ""]

/-- The classes of all forms. -/
def items {α : Type} [Scalar α] (forms : List (Form α)) : Result (List (Code.Item α)) :=
  return (← forms.mapM FormClass.items).flatten

def lines (o : OutputOptions) (forms : List (Form Float)) : Result (List String) := do
  let items ← items forms
  let guard := "__" ++ Uppercase.ofString (o.fileName forms) ++ "_H"
  return banner o.license ++ preamble guard ++ items.flatMap (·.lines o.places) ++ ["#endif"]

end Variational.Header
