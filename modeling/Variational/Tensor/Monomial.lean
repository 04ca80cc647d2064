import Variational.Scalar

/-! Polynomials in the entries of the Jacobian and its inverse, constants, dofs of coefficients and the
inverse determinant: the entries of geometry tensors. -/
namespace Variational

inductive Symbol where
  /-- Entry `(i, j)` of the Jacobian of the map from the reference cell. -/
  | jacobian (i j : Nat)
  /-- Entry `(i, j)` of the inverse of the Jacobian. -/
  | inverseJacobian (i j : Nat)
  | constant (n : Nat)
  /-- Dof `j` of coefficient function `n`. -/
  | coefficient (n j : Nat)
  deriving DecidableEq, Repr

namespace Symbol

/-- Symbols are ordered by kind and then by their numbers. -/
def key : Symbol → Nat × Nat × Nat
  | jacobian i j => (0, i, j)
  | inverseJacobian i j => (1, i, j)
  | constant n => (2, n, 0)
  | coefficient n j => (3, n, j)

def compare (s t : Symbol) : Ordering :=
  (Ord.compare s.key.1 t.key.1).then <|
    (Ord.compare s.key.2.1 t.key.2.1).then (Ord.compare s.key.2.2 t.key.2.2)

def name : Symbol → String
  | jacobian i j => s!"J_{i}{j}"
  | inverseJacobian i j => s!"K_{i}{j}"
  | constant n => s!"c{n}"
  | coefficient n j => s!"w[{n}][{j}]"

end Symbol

/-- A product of symbols with a coefficient, divided by a power of the determinant. -/
structure Monomial (α : Type) where
  coefficient : α
  detPower : Nat
  symbols : List Symbol
  deriving Repr

namespace Monomial

variable {α : Type} [Scalar α]

def one : Monomial α := ⟨1, 0, []⟩

instance : Mul (Monomial α) where
  mul m n := ⟨m.coefficient * n.coefficient, m.detPower + n.detPower, m.symbols ++ n.symbols⟩

/-- Lexicographic order of lists of symbols. -/
def compareSymbols : List Symbol → List Symbol → Ordering
  | [], [] => .eq
  | [], _ :: _ => .lt
  | _ :: _, [] => .gt
  | s :: ss, t :: ts => (s.compare t).then (compareSymbols ss ts)

/-- Monomials are ordered by the power of the determinant and then by their symbols. -/
def compare (m n : Monomial α) : Ordering :=
  (Ord.compare m.detPower n.detPower).then (compareSymbols m.symbols n.symbols)

def insertSymbol (s : Symbol) : List Symbol → List Symbol
  | [] => [s]
  | t :: ts => if s.compare t = .gt then t :: insertSymbol s ts else s :: t :: ts

def sortSymbols (ss : List Symbol) : List Symbol := ss.foldr insertSymbol []

/-- Add a monomial to a sorted list, to the like one if there is one. -/
def collect (ms : List (Monomial α)) (m : Monomial α) : List (Monomial α) :=
  match ms with
  | [] => [⟨0 + m.coefficient, m.detPower, m.symbols⟩]
  | n :: ns => match m.compare n with
    | .lt => ⟨0 + m.coefficient, m.detPower, m.symbols⟩ :: n :: ns
    | .eq => { n with coefficient := n.coefficient + m.coefficient } :: ns
    | .gt => n :: collect ns m

/-- Like terms are added up and terms that cancel are dropped; the result is sorted. -/
def simplify (ms : List (Monomial α)) : List (Monomial α) :=
  let sorted := ms.map fun m => { m with symbols := sortSymbols m.symbols }
  (sorted.foldl collect []).filter fun m => !(m.coefficient == 0)

end Monomial
end Variational
