import Variational.Element.DofMap

/-! Nested elements and dof maps as flat lists. Each node has the path that leads to it as its label, and
comes after everything inside it. A sum of one part is not opened. -/
namespace Variational

/-- A node of a tree with the label of its place. -/
structure Labelled (β : Type) where
  label : List Nat
  node : β
  deriving Repr

namespace Element

variable {α : Type}

mutual

def flatten (label : List Nat) : Element α → List (Labelled (Element α))
  | mixed [e] => [⟨label, mixed [e]⟩]
  | mixed es => flattenParts label 0 es ++ [⟨label, mixed es⟩]
  | e => [⟨label, e⟩]

def flattenParts (label : List Nat) (i : Nat) : List (Element α) → List (Labelled (Element α))
  | [] => []
  | e :: es => flatten (label ++ [i]) e ++ flattenParts label (i + 1) es

end

/-- Number of parts, where an element that is not mixed is its own part. -/
def numParts : Element α → Nat
  | mixed es => es.length
  | _ => 1

end Element

namespace DofMap

mutual

def flatten (label : List Nat) : DofMap → List (Labelled DofMap)
  | ⟨s, c, n, e, [m]⟩ => [⟨label, ⟨s, c, n, e, [m]⟩⟩]
  | ⟨s, c, n, e, ms⟩ => flattenParts label 0 ms ++ [⟨label, ⟨s, c, n, e, ms⟩⟩]

def flattenParts (label : List Nat) (i : Nat) : List DofMap → List (Labelled DofMap)
  | [] => []
  | m :: ms => flatten (label ++ [i]) m ++ flattenParts label (i + 1) ms

end

/-- Number of parts, where a dof map without parts is its own part. -/
def numParts (m : DofMap) : Nat := if m.parts.isEmpty then 1 else m.parts.length

end DofMap
end Variational
