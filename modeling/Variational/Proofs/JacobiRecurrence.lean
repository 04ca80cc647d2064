import Variational.Proofs.ExactScalar
import Variational.Polynomial.Jacobi

/-! The recurrence of the Jacobi polynomials over the real numbers: the homogenised polynomials are the
polynomials in the quotient of their variables, and the coefficients of the recurrence have signs and
bounds that do not depend on the degree, up to one which is small for high degrees. -/
namespace Variational.Jacobi

/-- Away from the zero of the second variable. -/
theorem homogeneousPair_value (a t : ℝ) {s : ℝ} (hs : s ≠ 0) (k : ℕ) :
    (homogeneousPair a t s k).1.value = s ^ k * (pair a 0 (t / s - 1) k).1 ∧
      (homogeneousPair a t s k).2.value = s ^ (k + 1) * (pair a 0 (t / s - 1) k).2 := by
  induction k with
  | zero =>
    constructor
    · simp [homogeneousPair, pair]
    · simp only [homogeneousPair, pair, Scalar.numeral_eq_cast, Nat.cast_zero]
      field_simp
      ring
  | succ k ih =>
    refine ⟨ih.2, ?_⟩
    simp only [homogeneousPair, pair, Scalar.numeral_eq_cast, Nat.cast_zero]
    rw [ih.1, ih.2]
    generalize pair a 0 (t / s - 1) k = p
    generalize step a 0 (k + 2) = r
    field_simp
    ring

theorem homogeneous_value (a t : ℝ) {s : ℝ} (hs : s ≠ 0) (k : ℕ) :
    (homogeneous a k t s).value = s ^ k * value a 0 k (t / s - 1) :=
  (homogeneousPair_value a t hs k).1

/-- At the origin only the polynomial of degree zero is left. -/
theorem homogeneous_value_origin (a : ℝ) (k : ℕ) : (homogeneous a k 0 0).value = 0 ^ k := by
  have hpair : (homogeneousPair a 0 0 k).1.value = 0 ^ k ∧ (homogeneousPair a 0 0 k).2.value = 0 := by
    induction k with
    | zero => constructor <;> simp [homogeneousPair]
    | succ k ih =>
      refine ⟨?_, ?_⟩
      · simp only [homogeneousPair, ih.2]
        simp
      · simp only [homogeneousPair]
        simp
  exact hpair.1

section Coefficients

theorem linear_zero (a : ℝ) : linear a 0 = ⟨a / 2, (a + 2) / 2⟩ := by
  simp only [linear, Scalar.numeral_eq_cast, sub_zero, add_zero]

theorem step_zero (a : ℝ) (k : ℕ) : step a 0 k =
    ⟨(2 * k + a - 1) * (a * a) / (2 * k * (k + a) * (2 * k + a - 2)),
      (2 * k + a - 2) * (2 * k + a - 1) * (2 * k + a) / (2 * k * (k + a) * (2 * k + a - 2)),
      -(2 * (k + a - 1) * (k - 1) * (2 * k + a)) / (2 * k * (k + a) * (2 * k + a - 2))⟩ := by
  simp only [step, Scalar.numeral_eq_cast]
  push_cast
  congr 1 <;> ring_nf

variable {a : ℝ} {k : ℕ}

theorem denominator_pos (ha : 0 ≤ a) (hk : 2 ≤ k) :
    0 < 2 * (k : ℝ) * (k + a) * (2 * k + a - 2) := by
  have hk' : (2 : ℝ) ≤ k := by exact_mod_cast hk
  have h₁ : 0 < (k : ℝ) + a := by linarith
  have h₂ : 0 < 2 * (k : ℝ) + a - 2 := by linarith
  positivity

theorem one_le_slope (ha : 0 ≤ a) (hk : 2 ≤ k) : 1 ≤ (step a 0 k).slope := by
  have hk' : (2 : ℝ) ≤ k := by exact_mod_cast hk
  have h₂ : 0 ≤ 2 * (k : ℝ) + a - 2 := by linarith
  have hfactors : 2 * (k : ℝ) * (k + a) ≤ (2 * k + a - 1) * (2 * k + a) := by nlinarith
  rw [step_zero, one_le_div (denominator_pos ha hk)]
  nlinarith [mul_le_mul_of_nonneg_right hfactors h₂]

theorem previous_le (ha : 0 ≤ a) (hk : 2 ≤ k) : (step a 0 k).previous ≤ -(1 / 4) := by
  have hk' : (2 : ℝ) ≤ k := by exact_mod_cast hk
  have hproduct : 2 * (k : ℝ) * (k + a) * (2 * k + a - 2) ≤
      2 * (2 * (k - 1)) * (2 * (k + a - 1)) * (2 * k + a) := by
    have h₁ : 0 ≤ (k : ℝ) - 1 := by linarith
    have h₂ : 0 ≤ (k : ℝ) + a - 1 := by linarith
    gcongr <;> linarith
  rw [step_zero, div_le_iff₀ (denominator_pos ha hk)]
  nlinarith

theorem constant_zero (k : ℕ) : (step (0 : ℝ) 0 k).constant = 0 := by
  rw [step_zero]
  simp only [mul_zero, zero_div]

/-- The constant coefficient falls with the square of the degree. -/
theorem constant_ge {n : ℕ} (ha : 1 ≤ a) (han : a ≤ 2 * n + 1) (hk : 2 ≤ k) (hkn : k ≤ n) :
    1 / (2 * n * (3 * n + 1)) ≤ (step a 0 k).constant := by
  have hk' : (2 : ℝ) ≤ k := by exact_mod_cast hk
  have hkn' : (k : ℝ) ≤ n := by exact_mod_cast hkn
  have hd := denominator_pos (a := a) (by linarith) hk
  have hn : 0 < 2 * (n : ℝ) * (3 * n + 1) := by
    have : (0 : ℝ) < n := by linarith
    positivity
  have hsum : (k : ℝ) + a ≤ 3 * n + 1 := by linarith
  have hpairs : 2 * (k : ℝ) * (k + a) ≤ 2 * n * (3 * n + 1) :=
    mul_le_mul (by linarith) hsum (by linarith) (by linarith)
  rw [step_zero, div_le_div_iff₀ hn hd]
  calc 1 * (2 * (k : ℝ) * (k + a) * (2 * k + a - 2))
    _ ≤ 2 * n * (3 * n + 1) * (2 * k + a - 2) := by
      rw [one_mul]
      exact mul_le_mul_of_nonneg_right hpairs (by linarith)
    _ ≤ 2 * n * (3 * n + 1) * ((2 * k + a - 1) * (a * a)) := by
      refine mul_le_mul_of_nonneg_left ?_ hn.le
      have hsquare : 1 ≤ a * a := by nlinarith
      have hpos : 0 ≤ 2 * (k : ℝ) + a - 1 := by linarith
      nlinarith [mul_le_mul_of_nonneg_left hsquare hpos]
    _ = (2 * k + a - 1) * (a * a) * (2 * n * (3 * n + 1)) := by ring

end Coefficients
end Variational.Jacobi
