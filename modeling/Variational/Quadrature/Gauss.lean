import Variational.Polynomial.Jacobi

/-! Gauss-Jacobi points and weights in one dimension. The roots are found from left to right by Newton
iteration, with the roots found so far divided out. -/
namespace Variational.Gauss

variable {α : Type} [Scalar α]

/-- Newton steps towards a root of the polynomial of degree `m`, away from the roots in `found`. The
iteration stops after a step below the tolerance, or when no steps are left. -/
@[specialize] def refine (a b : α) (m : Nat) (found : List α) : Nat → α → α
  | 0, r => r
  | n + 1, r =>
    let s := Scalar.sum (found.map fun x => 1 / (r - x))
    let f := Jacobi.value a b m r
    let d := Jacobi.derivative a b m r
    let delta := f / (d - f * s)
    if Scalar.below (Scalar.abs delta) (Scalar.tenth 15) then r - delta
    else refine a b m found n (r - delta)

/-- Where the search for root `k` starts: the Chebyshev point, halfway towards the root before. -/
@[specialize] def start (m k : Nat) (previous : Option α) : α :=
  let r := -Scalar.cos ((2 * (k : α) + 1) * Scalar.pi / (2 * (m : α)))
  match previous with
  | none => r
  | some p => (r + p) / 2

/-- The first `k` of the `m` roots, in increasing order. -/
@[specialize] def roots (a b : α) (m : Nat) : Nat → List α
  | 0 => []
  | k + 1 =>
    let found := roots a b m k
    found ++ [refine a b m found 100 (start m k found.getLast?)]

/-- The roots of the Jacobi polynomial of degree `m`. -/
@[specialize] def points (a b : α) (m : Nat) : List α := roots a b m m

/-- The weight of a root for the weight function `(1 - x) ^ a` on `[-1, 1]`. -/
@[specialize] def weight (a : α) (m : Nat) (x : α) : α :=
  let d := Jacobi.derivative a 0 m x
  Scalar.pow 2 (a + 1) / ((1 - x * x) * d * d)

/-- Points with their weights. -/
@[specialize] def rule (a : α) (m : Nat) : List (α × α) :=
  (points a 0 m).map fun x => (x, weight a m x)

@[simp] theorem length_roots (a b : α) (m k : Nat) : (roots a b m k).length = k := by
  induction k with
  | zero => rfl
  | succ k ih => simp [roots, ih]

@[simp] theorem length_points (a b : α) (m : Nat) : (points a b m).length = m := by simp [points]

@[simp] theorem length_rule (a : α) (m : Nat) : (rule a m).length = m := by simp [rule]

end Variational.Gauss
