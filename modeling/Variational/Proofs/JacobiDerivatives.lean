import Variational.Proofs.ExpansionDerivatives

/-! Derivatives of the Jacobi polynomials and of the homogenised ones. What is computed beside the values are the values
of the derivatives of the same polynomials. For parameters above `-1` no division by zero occurs on the way: the
recurrences have the same results in an arithmetic in which such a division has none. -/
namespace Variational

/-- A number, or no number after a division by zero. -/
def Guarded (α : Type) : Type := Option α

namespace Guarded

variable {α : Type}

def of (x : α) : Guarded α := some x

variable [Scalar α]

/-- The operations of the scalar, but for the division by zero, which has no result. -/
instance : Scalar (Guarded α) where
  add := Option.map₂ (· + ·)
  sub := Option.map₂ (· - ·)
  mul := Option.map₂ (· * ·)
  div x y := Option.bind x fun a => Option.bind y fun b => if b == 0 then none else some (a / b)
  neg := Option.map (- ·)
  natCast n := some n
  beq x y := Option.instBEq.beq x y
  sqrt := Option.map Scalar.sqrt
  cos := Option.map Scalar.cos
  pow := Option.map₂ Scalar.pow
  pi := some Scalar.pi
  abs := Option.map Scalar.abs
  below x y := (Option.map₂ Scalar.below x y).getD false

theorem of_add (x y : α) : of x + of y = of (x + y) := rfl

theorem of_sub (x y : α) : of x - of y = of (x - y) := rfl

theorem of_mul (x y : α) : of x * of y = of (x * y) := rfl

theorem of_neg (x : α) : -of x = of (-x) := rfl

theorem natCast_eq (n : ℕ) : ((n : ℕ) : Guarded α) = of (n : α) := rfl

theorem numeral_eq (n : ℕ) :
    @OfNat.ofNat (Guarded α) n (Scalar.numeral _ n) = of (@OfNat.ofNat α n (Scalar.numeral _ n)) := rfl

theorem of_div {x y : ℝ} (h : y ≠ 0) : of x / of y = of (x / y) := by
  have hy : (y == @OfNat.ofNat ℝ 0 (Scalar.numeral ℝ 0)) = false := by
    rw [Scalar.numeral_zero]
    exact decide_eq_false h
  change (if y == @OfNat.ofNat ℝ 0 (Scalar.numeral ℝ 0) then none else some (x / y)) = some (x / y)
  rw [hy]
  rfl

end Guarded

namespace Jacobi

open Guarded

section Divisions

variable {α β : Type}

def Linear.map (f : α → β) (l : Linear α) : Linear β := ⟨f l.constant, f l.slope⟩

def Step.map (f : α → β) (r : Step α) : Step β := ⟨f r.constant, f r.slope, f r.previous⟩

def Jet2.map (f : α → β) (j : Jet2 α) : Jet2 β := ⟨f j.value, f j.byT, f j.byS⟩

theorem linear_of (a b : ℝ) : linear (of a) (of b) = (linear a b).map of := by
  have htwo : @OfNat.ofNat ℝ 2 (Scalar.numeral ℝ 2) ≠ 0 := by
    rw [Scalar.numeral_eq_cast]
    norm_num
  simp only [linear, Linear.map, numeral_eq, of_add, of_sub, of_div htwo]

/-- The denominator of a step does not vanish. -/
theorem step_of {a b : ℝ} (ha : -1 < a) (hb : -1 < b) {k : ℕ} (hk : 2 ≤ k) :
    step (of a) (of b) k = (step a b k).map of := by
  have hden := denominator_ne_zero ha hb hk
  simp only [step, Step.map, natCast_eq, numeral_eq, of_add, of_sub, of_mul, of_neg, Scalar.numeral_eq_cast] at hden ⊢
  simp only [of_div hden]

theorem steps_of {a b : ℝ} (ha : -1 < a) (hb : -1 < b) (n : ℕ) :
    steps (of a) (of b) n = (steps a b n).map (Step.map of) := by
  rw [steps, steps, List.map_map]
  exact List.map_congr_left fun k _ => step_of ha hb (Nat.le_add_left 2 k)

theorem homogeneousPair_of {a : ℝ} (ha : -1 < a) (t s : ℝ) (k : ℕ) :
    homogeneousPair (of a) (of t) (of s) k = Prod.map (Jet2.map of) (Jet2.map of) (homogeneousPair a t s k) := by
  have hzero : @OfNat.ofNat ℝ 0 (Scalar.numeral ℝ 0) = 0 := Scalar.numeral_zero
  induction k with
  | zero =>
    simp only [homogeneousPair, numeral_eq, linear_of]
    simp only [Linear.map, of_add, of_sub, of_mul]
    rfl
  | succ k ih =>
    simp only [homogeneousPair, ih, numeral_eq, hzero, step_of ha neg_one_lt_zero (Nat.le_add_left 2 k)]
    simp only [Prod.map, Jet2.map, Step.map, of_add, of_sub, of_mul]

end Divisions

open Polynomial in
/-- What is computed as derivatives are the values of the derivatives of the polynomials, without a division by zero.
The polynomial of a degree does not depend on the degree up to which polynomials are computed. -/
theorem derivatives_differentiate {a b : ℝ} (ha : -1 < a) (hb : -1 < b) :
    (∀ n, steps (of a) (of b) n = (steps a b n).map (Step.map of) ∧
      steps (of a + 1) (of b + 1) (n - 1) = (steps (a + 1) (b + 1) (n - 1)).map (Step.map of)) ∧
    ∃ P : ℕ → ℝ[X], ∀ n x, values a b n x = (List.range (n + 1)).map (fun k => (P k).eval x) ∧
      derivatives a b n x = (List.range (n + 1)).map fun k => (Polynomial.derivative (P k)).eval x := by
  let q : ℝ[X] := C (1 / 2) * (X - 1)
  have hq (x : ℝ) : q.eval x = (x - 1) / 2 := by
    simp only [q, eval_mul, eval_C, eval_sub, eval_X, eval_one]
    ring
  have hderivative : Polynomial.derivative q = C (1 / 2) := by
    simp only [q, derivative_C_mul, derivative_sub, derivative_X, derivative_one, sub_zero, mul_one]
  refine ⟨fun n => ⟨steps_of ha hb n, ?_⟩, fun k => (series a b k).comp q, fun n x => ⟨?_, ?_⟩⟩
  · have hraise := steps_of (a := a + 1) (b := b + 1) (by linarith) (by linarith) (n - 1)
    rw [numeral_eq, of_add, of_add, Scalar.numeral_one]
    exact hraise
  · refine List.map_congr_left fun k _ => ?_
    rw [value_eq_eval ha hb, eval_comp, hq]
  · refine List.map_congr_left fun k _ => ?_
    rw [derivative_comp, hderivative, eval_mul, eval_C, eval_comp, hq, ← derivative_eq_eval ha hb]
    ring

theorem derivatives_differentiate_halves : ∃ P : ℕ → Polynomial ℝ, ∀ n x,
    values (1 / 2) (-(1 / 2)) n x = (List.range (n + 1)).map (fun k => (P k).eval x) ∧
      derivatives (1 / 2) (-(1 / 2)) n x = (List.range (n + 1)).map fun k => (P k).derivative.eval x :=
  (derivatives_differentiate (by norm_num) (by norm_num)).2

section Homogeneous

open MvPolynomial

/-- The homogenised polynomials in two variables. -/
theorem isHomogeneous_formPair (a : ℝ) (k : ℕ) :
    (formPair a (X 0 : MvPolynomial (Fin 2) ℝ) (X 1) k).1.IsHomogeneous k ∧
      (formPair a (X 0 : MvPolynomial (Fin 2) ℝ) (X 1) k).2.IsHomogeneous (k + 1) := by
  have hlinear (c s : ℝ) : (C c * X 1 + C s * (X 0 - X 1) : MvPolynomial (Fin 2) ℝ).IsHomogeneous 1 :=
    (isHomogeneous_C_mul_X c 1).add ((isHomogeneous_X ℝ 0).sub (isHomogeneous_X ℝ 1) |>.C_mul s)
  induction k with
  | zero => exact ⟨isHomogeneous_one _ _, hlinear _ _⟩
  | succ k ih =>
    refine ⟨ih.2, ?_⟩
    have hfirst := (hlinear (step a 0 (k + 2)).constant (step a 0 (k + 2)).slope).mul ih.2
    have hsecond := ((isHomogeneous_C_mul_X (step a 0 (k + 2)).previous 1).mul (isHomogeneous_X ℝ 1)).mul ih.1
    rw [show 1 + (k + 1) = k + 1 + 1 by omega] at hfirst
    rw [show 1 + 1 + k = k + 1 + 1 by omega] at hsecond
    exact hfirst.add hsecond

/-- The homogenised polynomials are computed without a division by zero. Away from the zero of the second variable they
are the powers of it times the polynomials in the quotient; everywhere they are the values of a homogeneous polynomial
and of its partial derivatives, so that all but the first vanish at the origin. -/
theorem homogeneous_homogenizes {a : ℝ} (ha : -1 < a) (k : ℕ) :
    (∀ t s, homogeneous (of a) k (of t) (of s) = (homogeneous a k t s).map of) ∧
    (∀ t s, s ≠ 0 → (homogeneous a k t s).value = s ^ k * value a 0 k (t / s - 1)) ∧
    (∃ Q : MvPolynomial (Fin 2) ℝ, Q.IsHomogeneous k ∧ ∀ t s,
      homogeneous a k t s = ⟨eval ![t, s] Q, eval ![t, s] (pderiv 0 Q), eval ![t, s] (pderiv 1 Q)⟩) ∧
    (1 ≤ k → (homogeneous a k 0 0).value = 0) := by
  refine ⟨fun t s => ?_, fun t s hs => homogeneous_value a t hs k, ?_, fun hk => ?_⟩
  · rw [homogeneous, homogeneousPair_of ha]
    rfl
  · refine ⟨form a k (X 0) (X 1), (isHomogeneous_formPair a k).1, fun t s => ?_⟩
    have hfollows := follows_form a ![t, s] (X 0) (X 1) k
    have hvalue : eval ![t, s] (form a k (X 0) (X 1)) = (homogeneous a k t s).value := by simpa using hfollows.value
    have hbyT : eval ![t, s] (pderiv 0 (form a k (X 0) (X 1))) = (homogeneous a k t s).byT := by
      simpa using hfollows.slope 0
    have hbyS : eval ![t, s] (pderiv 1 (form a k (X 0) (X 1))) = (homogeneous a k t s).byS := by
      simpa using hfollows.slope 1
    rw [hvalue, hbyT, hbyS]
  · rw [homogeneous_value_origin, zero_pow (Nat.one_le_iff_ne_zero.mp hk)]

theorem homogeneous_homogenizes_cubic :
    (∀ t s : ℝ, s ≠ 0 → (homogeneous (1 / 2) 3 t s).value = s ^ 3 * value (1 / 2) 0 3 (t / s - 1)) ∧
      (homogeneous (1 / 2 : ℝ) 3 0 0).value = 0 := by
  have ha : (-1 : ℝ) < 1 / 2 := by norm_num
  obtain ⟨-, hquotient, -, horigin⟩ := homogeneous_homogenizes ha 3
  exact ⟨hquotient, horigin (by norm_num)⟩

end Homogeneous

end Jacobi
end Variational
