import Variational.Element.Descriptor
import Variational.Scalar

/-! The algebra of multilinear forms. A form is a sum of products; a product multiplies a number,
constants and basis functions, and is integrated over the cell or over its boundary. -/
namespace Variational

/-- The role of a basis function. -/
inductive Argument where
  | test
  | trial
  /-- A coefficient function. -/
  | function (n : Nat)
  deriving DecidableEq, Repr

/-- An index of a component or a derivative; free indices with one label are summed over. -/
inductive Index where
  | fixed (n : Nat)
  | free (label : Nat)
  deriving DecidableEq, Repr

namespace Index

def name : Index → String
  | fixed n => s!"{n}"
  | free label => s!"i{label}"

def label? : Index → Option Nat
  | fixed _ => none
  | free label => some label

end Index

inductive IntegralKind where
  | interior
  | boundary
  deriving DecidableEq, Repr

def IntegralKind.name : IntegralKind → String
  | interior => "interior"
  | boundary => "boundary"

/-- A basis function of an element, possibly with component and derivative indices. -/
structure BasisFunction where
  element : Descriptor
  argument : Argument
  components : List Index
  derivatives : List Index
  deriving DecidableEq, Repr

namespace BasisFunction

def ofArgument (element : Descriptor) (argument : Argument) : BasisFunction :=
  ⟨element, argument, [], []⟩

def component (b : BasisFunction) (i : Index) : BasisFunction :=
  { b with components := b.components ++ [i] }

/-- Differentiate in a direction of physical space. -/
def dx (b : BasisFunction) (i : Index) : BasisFunction :=
  { b with derivatives := b.derivatives ++ [i] }

def indices (b : BasisFunction) : List Index := b.components ++ b.derivatives

end BasisFunction

/-- Constants are numbered. -/
structure Constant where
  number : Nat
  deriving DecidableEq, Repr

structure Product (α : Type) where
  factor : α
  constants : List Constant
  basis : List BasisFunction
  integral : IntegralKind

namespace Product

variable {α : Type}

/-- A product of basis functions, integrated over the cell. -/
def ofBasis [Scalar α] (basis : List BasisFunction) : Product α := ⟨1, [], basis, .interior⟩

def find? (p : Product α) (a : Argument) : Option BasisFunction :=
  p.basis.find? fun b => b.argument = a

def functions (p : Product α) : List Nat :=
  p.basis.filterMap fun b => match b.argument with
    | .function n => some n
    | _ => none

/-- Number of roles among test and trial function that the product has. -/
def rank (p : Product α) : Nat :=
  ([Argument.test, .trial].filter fun a => (p.find? a).isSome).length

end Product

/-- A sum of products. -/
structure Sum (α : Type) where
  products : List (Product α)

namespace Sum

variable {α : Type}

/-- One more than the largest number. -/
def countOf (ns : List Nat) : Nat := (ns.map (· + 1)).foldr max 0

def numFunctions (s : Sum α) : Nat := countOf (s.products.flatMap Product.functions)

def numConstants (s : Sum α) : Nat :=
  countOf (s.products.flatMap fun p => p.constants.map (·.number))

def basis (s : Sum α) : List BasisFunction := s.products.flatMap (·.basis)

/-- The first basis function with a role. -/
def find? (s : Sum α) (a : Argument) : Option BasisFunction :=
  s.basis.find? fun b => b.argument = a

end Sum

namespace Product

variable {α : Type} [Scalar α]

/-- The product of two products is integrated like the first. -/
instance : Mul (Product α) where
  mul p q := ⟨p.factor * q.factor, p.constants ++ q.constants, p.basis ++ q.basis, p.integral⟩

def scale (p : Product α) (x : α) : Product α := { p with factor := p.factor * x }

def withConstant (p : Product α) (c : Constant) : Product α :=
  { p with constants := p.constants ++ [c] }

def withBasis (p : Product α) (b : BasisFunction) : Product α := { p with basis := p.basis ++ [b] }

/-- The same product integrated over another domain. -/
def integrated (p : Product α) (k : IntegralKind) : Product α := { p with integral := k }

end Product

namespace Sum

variable {α : Type} [Scalar α]

def single (p : Product α) : Sum α := ⟨[p]⟩

instance : Add (Sum α) where
  add s t := ⟨s.products ++ t.products⟩

def integrated (s : Sum α) (k : IntegralKind) : Sum α := ⟨s.products.map (·.integrated k)⟩

end Sum

/-- A value of a form expression. -/
inductive Operand (α : Type) where
  | number (x : α)
  | constant (c : Constant)
  | integral (k : IntegralKind)
  | basis (b : BasisFunction)
  | product (p : Product α)
  | sum (s : Sum α)

namespace Operand

variable {α : Type} [Scalar α]

/-- Multiplication, where it is defined: numbers multiply from either side, constants and integration
domains from the right. -/
def mul? : Operand α → Operand α → Option (Operand α)
  | basis b, basis c => some (.product (.ofBasis [b, c]))
  | basis b, constant c => some (.product ((Product.ofBasis [b]).withConstant c))
  | basis b, integral k => some (.product ((Product.ofBasis [b]).integrated k))
  | number x, basis b => some (.product ((Product.ofBasis [b]).scale x))
  | number x, product p => some (.product (p.scale x))
  | product p, basis b => some (.product (p.withBasis b))
  | product p, product q => some (.product (p * q))
  | product p, constant c => some (.product (p.withConstant c))
  | product p, number x => some (.product (p.scale x))
  | product p, integral k => some (.product (p.integrated k))
  | sum s, integral k => some (.sum (s.integrated k))
  | _, _ => none

def add? : Operand α → Operand α → Option (Operand α)
  | product p, product q => some (.sum (.single p + .single q))
  | sum s, product p => some (.sum (s + .single p))
  | sum s, sum t => some (.sum (s + t))
  | _, _ => none

/-- A basis function stands for a product and a product for a sum. -/
def toProduct? : Operand α → Option (Product α)
  | basis b => some (.ofBasis [b])
  | product p => some p
  | _ => none

def toSum? : Operand α → Option (Sum α)
  | sum s => some s
  | x => x.toProduct?.map .single

end Operand
end Variational
