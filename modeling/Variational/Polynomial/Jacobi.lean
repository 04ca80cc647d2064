import Variational.Scalar

/-! Jacobi polynomials by their three-term recurrence
`P (k+2) = (a₂ + a₃ x) P (k+1) + m₄ P k`, their derivatives, and the homogenised polynomials
`s ^ k * P k (t / s - 1)`, whose recurrence needs no division by `s`. -/
namespace Variational.Jacobi

variable {α : Type} [Scalar α]

/-- Coefficients of the polynomial of degree one. -/
structure Linear (α : Type) where
  constant : α
  slope : α

/-- Coefficients of one step of the recurrence. -/
structure Step (α : Type) where
  constant : α
  slope : α
  previous : α

@[specialize] def linear (a b : α) : Linear α := ⟨(a - b) / 2, (a + b + 2) / 2⟩

/-- The step that leads to the polynomial of degree `k`, for `k` at least two. -/
@[specialize] def step (a b : α) (k : Nat) : Step α :=
  let n : α := k
  let s := a + b
  let d := 2 * n * (n + s) * (2 * n + s - 2)
  ⟨(2 * n + s - 1) * (a * a - b * b) / d,
   (2 * n + s - 2) * (2 * n + s - 1) * (2 * n + s) / d,
   -(2 * (n + a - 1) * (n + b - 1) * (2 * n + s)) / d⟩

/-- The steps for the degrees from two to `n`. -/
def steps (a b : α) (n : Nat) : List (Step α) :=
  (List.range (n - 1)).map fun k => step a b (k + 2)

/-- The polynomials of degrees `k` and `k + 1` at `x`. -/
@[specialize] def pair (a b x : α) : Nat → α × α
  | 0 => (1, (linear a b).constant + (linear a b).slope * x)
  | k + 1 =>
    let p := pair a b x k
    let r := step a b (k + 2)
    (p.2, (r.constant + r.slope * x) * p.2 + r.previous * p.1)

@[specialize] def value (a b : α) (k : Nat) (x : α) : α := (pair a b x k).1

/-- The derivative of `P k` is a multiple of the polynomial of degree `k - 1` with both parameters
raised by one. -/
@[specialize] def derivative (a b : α) : Nat → α → α
  | 0, _ => 0
  | k + 1, x => ((k + 1 : Nat) + a + b + 1) / 2 * value (a + 1) (b + 1) k x

def values (a b : α) (n : Nat) (x : α) : List α :=
  (List.range (n + 1)).map fun k => value a b k x

def derivatives (a b : α) (n : Nat) (x : α) : List α :=
  (List.range (n + 1)).map fun k => derivative a b k x

/-- A function of two variables at a point, with its partial derivatives. -/
structure Jet2 (α : Type) where
  value : α
  byT : α
  byS : α

/-- The homogenised polynomials of degrees `k` and `k + 1` for the parameters `a` and zero. -/
@[specialize] def homogeneousPair (a t s : α) : Nat → Jet2 α × Jet2 α
  | 0 =>
    let c := linear a 0
    (⟨1, 0, 0⟩, ⟨c.constant * s + c.slope * (t - s), c.slope, c.constant - c.slope⟩)
  | k + 1 =>
    let (p, q) := homogeneousPair a t s k
    let r := step a 0 (k + 2)
    let f := r.constant * s + r.slope * (t - s)
    (q, ⟨f * q.value + r.previous * s * s * p.value,
      r.slope * q.value + f * q.byT + r.previous * s * s * p.byT,
      (r.constant - r.slope) * q.value + f * q.byS
        + r.previous * (2 * s * p.value + s * s * p.byS)⟩)

@[specialize] def homogeneous (a : α) (k : Nat) (t s : α) : Jet2 α := (homogeneousPair a t s k).1

theorem value_zero (a b x : α) : value a b 0 x = 1 := rfl

theorem value_one (a b x : α) :
    value a b 1 x = (linear a b).constant + (linear a b).slope * x := rfl

theorem value_add_two (a b x : α) (k : Nat) :
    value a b (k + 2) x =
      ((step a b (k + 2)).constant + (step a b (k + 2)).slope * x) * value a b (k + 1) x
        + (step a b (k + 2)).previous * value a b k x := rfl

end Variational.Jacobi
