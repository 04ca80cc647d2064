import Variational.Element.Polynomial

/-! Elements on the unit time interval with nodes at Gauss-Lobatto or right Gauss-Radau points. -/
namespace Variational

inductive TimeFamily where
  | lobatto
  | radau
  deriving DecidableEq, Repr

namespace TimeFamily

variable {α : Type} [Scalar α]

def name : TimeFamily → String
  | lobatto => "Lobatto"
  | radau => "Radau"

def ofName? : String → Option TimeFamily
  | "Lobatto" => some lobatto
  | "Radau" => some radau
  | _ => none

/-- The nodes in increasing order. Those of Lobatto inside the interval are roots of the derivative of
a Legendre polynomial. -/
@[specialize] def nodes (f : TimeFamily) (degree : Nat) : List α :=
  let reference : List α := match f with
    | lobatto => -1 :: Gauss.points 1 1 (degree - 1) ++ [1]
    | radau => Gauss.points 1 0 degree ++ [1]
  reference.map fun x => (x + 1) / 2

/-- The end nodes of Lobatto belong to the end points; all other nodes are interior. -/
def entityDofs (f : TimeFamily) (degree : Nat) : EntityDofs :=
  match f with
  | lobatto => [[[0], [degree]], [List.range' 1 (degree - 1)]]
  | radau => [[[], []], [List.range (degree + 1)]]

@[specialize] def create (f : TimeFamily) (degree : Nat) : Result (PolynomialElement α) :=
  if f = lobatto ∧ degree = 0 then .error (.tabulatorUnsupported f.name .interval degree)
  else PolynomialElement.ofPoints f.name .interval degree
    ((f.nodes degree).map fun x => [x]) (f.entityDofs degree)

end TimeFamily
end Variational
