import Variational.Form.Basic

/-! Options that all output formats share. -/
namespace Variational

structure OutputOptions where
  /-- The name of the file without its extension. -/
  name : Option String := none
  /-- The text at the top of the file. -/
  license : String := "This code is released under the BSD 3-Clause license."
  /-- Number of digits after the point of a literal. -/
  places : Nat := 15
  deriving DecidableEq, Repr

/-- Without a name of its own a file is named for its first form. -/
def OutputOptions.fileName {α : Type} (o : OutputOptions) (forms : List (Form α)) : String :=
  o.name.getD ((forms.head?.map (·.name)).getD "form")

end Variational
