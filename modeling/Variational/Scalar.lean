/-! The arithmetic that the numerical parts are written over. Every definition of the library that
computes with coordinates, weights or coefficients takes an arbitrary `Scalar`; the compiler runs at
`Float`, and exact statements are about the same definitions at an exact field. -/
namespace Variational

/-- Field operations, the few transcendental functions that quadrature needs, and two tests. -/
class Scalar (α : Type) extends Add α, Sub α, Mul α, Div α, Neg α, NatCast α, BEq α where
  sqrt : α → α
  cos : α → α
  pow : α → α → α
  pi : α
  abs : α → α
  /-- Strictly below. -/
  below : α → α → Bool

namespace Scalar

/-- Numerals are casts of natural numbers. -/
instance (priority := low) numeral (α : Type) [Scalar α] (n : Nat) : OfNat α n := ⟨(n : α)⟩

variable {α : Type} [Scalar α]

/-- The power of ten with exponent `-n`, used for tolerances. -/
@[specialize] def tenth (n : Nat) : α := 1 / (Nat.pow 10 n : α)

/-- Sum from left to right. -/
@[specialize] def sum (xs : List α) : α := xs.foldl (· + ·) 0

@[specialize] def product (xs : List α) : α := xs.foldl (· * ·) 1

/-- The scalar product of the common part of two lists. -/
@[specialize] def dot (xs ys : List α) : α := sum (List.zipWith (· * ·) xs ys)

/-- A natural power by repeated multiplication. -/
@[specialize] def natPow (x : α) : Nat → α
  | 0 => 1
  | n + 1 => natPow x n * x

@[simp] theorem sum_nil : sum ([] : List α) = 0 := rfl
@[simp] theorem product_nil : product ([] : List α) = 1 := rfl
@[simp] theorem dot_nil_left (ys : List α) : dot [] ys = 0 := rfl

end Scalar

/-- A double lies below another one when both are numbers and the comparison holds. -/
instance : Scalar Float where
  natCast := Float.ofNat
  sqrt := Float.sqrt
  cos := Float.cos
  pow := Float.pow
  pi := 3.141592653589793
  abs := Float.abs
  below x y := x < y

end Variational
