import Variational.Code.Class
import Variational.Element.Nesting
import Variational.Tensor.MultiIndex

/-! Names of generated classes. A node of a nested element or dof map is named by its label, and nodes
with one signature share one class. -/
namespace Variational.Naming
open Code

/-- The name of the class of the node with a label. -/
def ofLabel (stem : String) (label : List Nat) : String := stem ++ "_" ++ MultiIndex.label "_" label

/-- The names of the parts of a node; a single part has no name of its own. -/
def ofParts (stem : String) (label : List Nat) (numParts : Nat) : List String :=
  if numParts = 1 then [] else (List.range numParts).map fun i => ofLabel stem (label ++ [i])

/-- A kind of node that gets classes. -/
structure Scheme (α β : Type) where
  signature : β → String
  numParts : β → Nat
  /-- The class with a name for a node whose parts have the given names. -/
  define : String → List String → β → Result (Class α)

/-- A class for the first node with each signature and another name for it for every later one. The
signatures that have a class are kept with its name. -/
def Scheme.items {α β : Type} (s : Scheme α β) (stem : String) :
    List (String × String) → List (Labelled β) → Result (List (Item α))
  | _, [] => .ok []
  | known, x :: xs => do
    let name := ofLabel stem x.label
    match known.lookup (s.signature x.node) with
    | some first => return .rename first name :: (← s.items stem known xs)
    | none =>
      let c ← s.define name (ofParts stem x.label (s.numParts x.node)) x.node
      return .define c :: (← s.items stem ((s.signature x.node, name) :: known) xs)

/-- The members that create the parts of a node. A node without named parts is its own part. -/
def instances (name : String) (parts : List String) : List (Nat × Value) :=
  (if parts.isEmpty then [name] else parts).zipIdx.map fun (c, i) => (i, .create c)

end Variational.Naming
