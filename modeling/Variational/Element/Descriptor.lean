import Variational.Cell

/-! Symbolic descriptions of elements, as they appear in forms and as keys of the element cache. -/
namespace Variational

/-- The part of a cell that an element is restricted to. -/
inductive Domain where
  | interior
  /-- All entities up to the dimension of the given cell. -/
  | upTo (cell : Cell)
  /-- A domain that nothing can be restricted to. -/
  | other (name : String)
  deriving DecidableEq, Repr

def Domain.name : Domain → String
  | interior => "interior"
  | upTo cell => cell.name
  | other name => name

/-- The space of vector fields that a scalar product element is placed in. -/
inductive SobolevSpace where
  | hdiv
  | hcurl
  deriving DecidableEq, Repr

def SobolevSpace.name : SobolevSpace → String
  | hdiv => "HDiv"
  | hcurl => "HCurl"

inductive Descriptor where
  /-- An element of a named family; not every family has a degree. -/
  | simple (family : String) (cell : Cell) (degree : Option Nat)
  | mixed (elements : List Descriptor)
  | restricted (element : Descriptor) (domain : Domain)
  | enriched (a b : Descriptor)
  | product (a b : Descriptor)
  | wrapped (space : SobolevSpace) (element : Descriptor)
  | other (name : String)
  deriving Repr, Inhabited

/-- Full names of the families that have a short one. -/
def canonicalFamily : String → String
  | "CG" => "Lagrange"
  | "Q" => "Lagrange"
  | "P" => "Lagrange"
  | "DG" => "Discontinuous Lagrange"
  | "DP" => "Discontinuous Lagrange"
  | "DQ" => "Discontinuous Lagrange"
  | "CR" => "Crouzeix-Raviart"
  | "RT" => "Raviart-Thomas"
  | "DRT" => "Discontinuous Raviart-Thomas"
  | "BDM" => "Brezzi-Douglas-Marini"
  | "BDFM" => "Brezzi-Douglas-Fortin-Marini"
  | "N1curl" => "Nedelec 1st kind H(curl)"
  | "N2curl" => "Nedelec 2nd kind H(curl)"
  | "R" => "Real"
  | "B" => "Bubble"
  | family => family

/-- Families that elements may be asked from. -/
def supportedFamilies : List String :=
  ["Brezzi-Douglas-Marini", "Brezzi-Douglas-Fortin-Marini", "Crouzeix-Raviart",
   "Discontinuous Lagrange", "Discontinuous Raviart-Thomas", "Lagrange", "Lobatto",
   "Nedelec 1st kind H(curl)", "Nedelec 2nd kind H(curl)", "Radau", "Raviart-Thomas", "Real",
   "Bubble", "Quadrature", "OuterProductElement", "EnrichedElement"]

namespace Descriptor

/-- An element of a family given by its short or full name. -/
def ofFamily (family : String) (cell : Cell) (degree : Nat) : Descriptor :=
  simple (canonicalFamily family) cell (some degree)

/-- Copies of a scalar element, by default as many as the cell has dimensions. -/
def vector (family : String) (cell : Cell) (degree : Nat) (dim : Option Nat) : Descriptor :=
  mixed (List.replicate (dim.getD cell.dim) (ofFamily family cell degree))

/-- The full family name at the root; nothing below it changes. -/
def canonicalRoot : Descriptor → Descriptor
  | simple family cell degree => simple (canonicalFamily family) cell degree
  | d => d

def family : Descriptor → String
  | simple family _ _ => family
  | mixed _ => "Mixed"
  | restricted e _ => e.family
  | enriched _ _ => "EnrichedElement"
  | product _ _ => "OuterProductElement"
  | wrapped _ e => e.family
  | other name => name

/-- The larger of two degrees, where a missing one is the smallest. -/
def maxDegree : Option Nat → Option Nat → Option Nat
  | some m, some n => some (max m n)
  | some m, none => some m
  | none, n => n

mutual

/-- The degree; that of a composite element is the highest one among its parts, and that of a product
the sum. -/
def degree : Descriptor → Option Nat
  | simple _ _ degree => degree
  | mixed es => degreeOfList es
  | restricted e _ => e.degree
  | enriched a b => maxDegree a.degree b.degree
  | product a b => do return (← a.degree) + (← b.degree)
  | wrapped _ e => e.degree
  | other _ => none

def degreeOfList : List Descriptor → Option Nat
  | [] => none
  | e :: es => maxDegree e.degree (degreeOfList es)

end

/-- The cell; a mixed element lives where its first part does. -/
def cell : Descriptor → Option Cell
  | simple _ cell _ => some cell
  | mixed [] => none
  | mixed (e :: _) => e.cell
  | restricted e _ => e.cell
  | enriched a _ => a.cell
  | product a b => do return .product (← a.cell) (← b.cell)
  | wrapped _ e => e.cell
  | other _ => none

/-- The parts of a mixed element. -/
def parts : Descriptor → List Descriptor
  | mixed es => es
  | _ => []

mutual

def name : Descriptor → String
  | simple family cell (some degree) => s!"FiniteElement('{family}', {cell.name}, {degree})"
  | simple family cell none => s!"FiniteElement('{family}', {cell.name}, None)"
  | mixed es => "MixedElement(" ++ ", ".intercalate (names es) ++ ")"
  | restricted e domain => e.name ++ "|_\x7b" ++ domain.name ++ "\x7d"
  | enriched a b => s!"EnrichedElement({a.name}, {b.name})"
  | product a b => s!"OuterProductElement({a.name}, {b.name})"
  | wrapped space e => s!"{space.name}({e.name})"
  | other name => name

def names : List Descriptor → List String
  | [] => []
  | e :: es => e.name :: names es

end

mutual

def beq : Descriptor → Descriptor → Bool
  | simple f c n, simple f' c' n' => f == f' && c == c' && n == n'
  | mixed es, mixed es' => beqList es es'
  | restricted e d, restricted e' d' => e.beq e' && d == d'
  | enriched a b, enriched a' b' => a.beq a' && b.beq b'
  | product a b, product a' b' => a.beq a' && b.beq b'
  | wrapped s e, wrapped s' e' => s == s' && e.beq e'
  | other n, other n' => n == n'
  | _, _ => false

def beqList : List Descriptor → List Descriptor → Bool
  | [], [] => true
  | e :: es, e' :: es' => e.beq e' && beqList es es'
  | _, _ => false

end

mutual

theorem beq_iff : ∀ a b : Descriptor, a.beq b = true ↔ a = b
  | simple .., b => by cases b <;> simp [beq, and_assoc]
  | mixed es, b => by cases b <;> simp [beq, beqList_iff es]
  | restricted e d, b => by cases b <;> simp [beq, beq_iff e]
  | enriched a₁ a₂, b => by cases b <;> simp [beq, beq_iff a₁, beq_iff a₂]
  | product a₁ a₂, b => by cases b <;> simp [beq, beq_iff a₁, beq_iff a₂]
  | wrapped s e, b => by cases b <;> simp [beq, beq_iff e]
  | other n, b => by cases b <;> simp [beq]

theorem beqList_iff : ∀ as bs : List Descriptor, beqList as bs = true ↔ as = bs
  | [], bs => by cases bs <;> simp [beqList]
  | a :: as, bs => by cases bs <;> simp [beqList, beq_iff a, beqList_iff as]

end

instance : DecidableEq Descriptor := fun a b => decidable_of_iff _ (beq_iff a b)

end Descriptor
end Variational
