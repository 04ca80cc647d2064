import Variational.Proofs.CellIntegrals
import Variational.Proofs.JacobiSeries

/-! Orthogonality of the Jacobi polynomials for the weights `(1 - t) ^ a` on the unit interval. Polynomials that
satisfy a recurrence of three terms are orthogonal for every functional that vanishes on all but the first of them, and
the recurrence gives the ratio of their norms. -/
namespace Variational

open Polynomial

/-- Polynomials that a recurrence of three terms leads through, from the constant one on. -/
structure ThreeTerm (h : ℕ → ℝ[X]) (constant slope previous : ℕ → ℝ) : Prop where
  zero : h 0 = 1
  succ : ∀ n, h (n + 1) = (C (constant n) + C (slope n) * X) * h n + C (previous n) * h (n - 1)
  slope_ne_zero : ∀ n, slope n ≠ 0

namespace ThreeTerm

variable {h : ℕ → ℝ[X]} {constant slope previous : ℕ → ℝ} (hh : ThreeTerm h constant slope previous)
include hh

variable {L : ℝ[X] →ₗ[ℝ] ℝ}

theorem map_mul_succ (p : ℝ[X]) (n : ℕ) : L (p * h (n + 1)) =
    constant n * L (p * h n) + slope n * L (p * (X * h n)) + previous n * L (p * h (n - 1)) := by
  have hsplit : p * h (n + 1) =
      constant n • (p * h n) + slope n • (p * (X * h n)) + previous n • (p * h (n - 1)) := by
    rw [hh.succ, smul_eq_C_mul, smul_eq_C_mul, smul_eq_C_mul]
    ring
  simp only [hsplit, map_add, map_smul, smul_eq_mul]

theorem map_mul_X_mul (p : ℝ[X]) (n : ℕ) : L (p * (X * h n)) =
    (slope n)⁻¹ * (L (p * h (n + 1)) - constant n * L (p * h n) - previous n * L (p * h (n - 1))) := by
  rw [hh.map_mul_succ p n]
  field_simp [hh.slope_ne_zero n]
  ring

variable (hL : ∀ n, L (h (n + 1)) = 0)
include hL

/-- Each polynomial is orthogonal to those before it. -/
theorem orthogonal {i j : ℕ} (hij : i < j) : L (h j * h i) = 0 := by
  induction i using Nat.strong_induction_on generalizing j with
  | _ i ih =>
    cases i with
    | zero =>
      obtain ⟨j, rfl⟩ := Nat.exists_eq_add_one_of_ne_zero hij.ne'
      rw [hh.zero, mul_one, hL]
    | succ i =>
      -- The variable goes over to the other factor, where it reaches only the two neighbours.
      have hX : L (h j * (X * h i)) = 0 := by
        rw [show h j * (X * h i) = h i * (X * h j) by ring, hh.map_mul_X_mul, mul_comm (h i), mul_comm (h i),
          mul_comm (h i), ih i (by omega) (by omega), ih i (by omega) (by omega), ih i (by omega) (by omega)]
        ring
      rw [hh.map_mul_succ, hX, ih i (by omega) (by omega), ih (i - 1) (by omega) (by omega)]
      ring

theorem norm_succ (n : ℕ) : L (h (n + 1) * h (n + 1)) =
    -(slope n * previous (n + 1) / slope (n + 1)) * L (h n * h n) := by
  have hX : L (h (n + 1) * (X * h n)) = -(previous (n + 1) / slope (n + 1)) * L (h n * h n) := by
    rw [show h (n + 1) * (X * h n) = h n * (X * h (n + 1)) by ring, hh.map_mul_X_mul, mul_comm (h n) (h (n + 1 + 1)),
      mul_comm (h n) (h (n + 1)), hh.orthogonal hL (by omega), hh.orthogonal hL (by omega), Nat.add_sub_cancel]
    ring
  have hfirst : L (h (n + 1) * h n) = 0 := hh.orthogonal hL (by omega)
  have hsecond : L (h (n + 1) * h (n - 1)) = 0 := hh.orthogonal hL (by omega)
  rw [hh.map_mul_succ, hX, hfirst, hsecond]
  ring

end ThreeTerm

namespace Jacobi

/-- Integration against the weight `(1 - t) ^ a`, of polynomials in the variable `t - 1`. -/
noncomputable def weighted (a : ℕ) : ℝ[X] →ₗ[ℝ] ℝ where
  toFun P := weightedIntegral a fun t => P.eval (t - 1)
  map_add' P Q := by
    have hcontinuous (R : ℝ[X]) :
        IntervalIntegrable (fun t : ℝ => (1 - t) ^ a * R.eval (t - 1)) MeasureTheory.volume 0 1 := by
      apply Continuous.intervalIntegrable
      fun_prop
    simp only [weightedIntegral, eval_add, mul_add]
    exact intervalIntegral.integral_add (hcontinuous P) (hcontinuous Q)
  map_smul' c P := by
    simp only [weightedIntegral, eval_smul, smul_eq_mul, mul_left_comm _ c, intervalIntegral.integral_const_mul,
      RingHom.id_apply]

theorem weighted_monomial (a k : ℕ) (c : ℝ) : weighted a (monomial k c) = c * ((-1) ^ k / (a + 1 + k)) := by
  have hpower (t : ℝ) : (1 - t) ^ a * (c * (t - 1) ^ k) = c * (-1) ^ k * (1 - t) ^ (a + k) := by
    rw [← neg_sub 1 t, neg_pow, pow_add]
    ring
  have hintegral : ∫ t in (0 : ℝ)..1, (1 - t) ^ (a + k) = 1 / (a + k + 1) := by
    rw [intervalIntegral.integral_comp_sub_left fun t => t ^ (a + k), integral_pow]
    simp
  change weightedIntegral a (fun t => (monomial k c).eval (t - 1)) = _
  simp only [weightedIntegral, eval_monomial, hpower, intervalIntegral.integral_const_mul, hintegral]
  ring

theorem neg_one_lt_cast (a : ℕ) : (-1 : ℝ) < a := neg_one_lt_zero.trans_le a.cast_nonneg

/-- The integral of every polynomial but the first against the weight vanishes. -/
theorem weighted_series (a n : ℕ) : weighted a (series a 0 (n + 1)) = 0 := by
  have ha := neg_one_lt_cast a
  -- Up to a factor the terms are the differences of the values of this function.
  let f (k : ℕ) : ℝ := -(-1) ^ k * (k * coefficient a 0 (n + 1) k)
  have hterm (k : ℕ) :
      coefficient a 0 (n + 1) k * ((-1) ^ k / (a + 1 + k)) * ((n + 1) * (n + a + 2)) = f (k + 1) - f k := by
    have hsucc := coefficient_succ ha 0 (n + 1) k
    have hpos : (a : ℝ) + 1 + k ≠ 0 := by positivity
    simp only [f]
    push_cast at hsucc ⊢
    field_simp
    rw [pow_succ]
    linear_combination (-(-1) ^ k) * hsucc
  have hsum : weighted a (series a 0 (n + 1)) * ((n + 1) * (n + a + 2)) = f (n + 2) - f 0 := by
    rw [series, map_sum, Finset.sum_mul, ← Finset.sum_range_sub]
    refine Finset.sum_congr rfl fun k _ => ?_
    rw [weighted_monomial, hterm]
  have hlast : f (n + 2) = 0 := by simp only [f, coefficient_of_lt (a : ℝ) 0 (Nat.lt_succ_self (n + 1)), mul_zero]
  have hfirst : f 0 = 0 := by simp only [f, Nat.cast_zero, zero_mul, mul_zero]
  rw [hlast, hfirst, sub_zero] at hsum
  exact (mul_eq_zero.mp hsum).resolve_right (by positivity)

section Norms

variable {a : ℝ} (ha : 0 ≤ a)
include ha

theorem stepFrom_slope (n : ℕ) :
    (stepFrom a 0 n).slope = (2 * n + a + 1) * (2 * n + a + 2) / (2 * (n + 1) * (n + 1 + a)) := by
  have hpos : (n : ℝ) + 1 + a ≠ 0 := by positivity
  cases n with
  | zero =>
    rw [stepFrom, linear_zero]
    push_cast at hpos ⊢
    field_simp
    ring
  | succ n =>
    have hpos' : 2 * ((n : ℝ) + 2) + a - 2 ≠ 0 := by
      have : 2 * ((n : ℝ) + 2) + a - 2 = 2 * n + a + 2 := by ring
      rw [this]
      positivity
    rw [stepFrom, step_zero]
    push_cast at hpos ⊢
    field_simp
    ring

theorem threeTerm_series : ThreeTerm (series a 0) (fun n => (stepFrom a 0 n).constant + (stepFrom a 0 n).slope)
    (fun n => 2 * (stepFrom a 0 n).slope) fun n => (stepFrom a 0 n).previous where
  zero := series_zero a 0
  succ := series_succ (by linarith) (by norm_num)
  slope_ne_zero n := by
    rw [stepFrom_slope ha]
    positivity

/-- The ratio of two successive norms, from the coefficients of the recurrence. -/
theorem stepFrom_ratio (n : ℕ) :
    -(2 * (stepFrom a 0 n).slope * (stepFrom a 0 (n + 1)).previous / (2 * (stepFrom a 0 (n + 1)).slope)) =
      (2 * n + a + 1) / (2 * n + a + 3) := by
  have hpos' : 2 * ((n : ℝ) + 2) + a - 2 ≠ 0 := by
    have : 2 * ((n : ℝ) + 2) + a - 2 = 2 * n + a + 2 := by ring
    rw [this]
    positivity
  rw [stepFrom_slope ha, stepFrom_slope ha, stepFrom, step_zero]
  push_cast
  have h₁ : (n : ℝ) + 1 + a ≠ 0 := by positivity
  have h₂ : (n : ℝ) + 2 + a ≠ 0 := by positivity
  field_simp
  ring

end Norms

/-- The polynomials are orthogonal for the weight, and their norms are as expected. -/
theorem weighted_series_mul (a i j : ℕ) :
    weighted a (series a 0 i * series a 0 j) = if i = j then 1 / (2 * (i : ℝ) + a + 1) else 0 := by
  have hh := threeTerm_series (a := a) a.cast_nonneg
  have hL := weighted_series a
  split_ifs with hij
  · subst hij
    induction i with
    | zero =>
      have hone := weighted_monomial a 0 1
      rw [monomial_zero_one] at hone
      rw [series_zero, mul_one, hone]
      push_cast
      ring
    | succ i ih =>
      rw [hh.norm_succ hL, ih, stepFrom_ratio a.cast_nonneg]
      push_cast
      field_simp
      ring
  · rcases Nat.lt_or_gt_of_ne hij with hij | hij
    · rw [mul_comm, hh.orthogonal hL hij]
    · exact hh.orthogonal hL hij

/-- On the unit interval. -/
theorem weightedIntegral_value_mul (a i j : ℕ) :
    (weightedIntegral a fun t => value (a : ℝ) 0 i (2 * t - 1) * value (a : ℝ) 0 j (2 * t - 1)) =
      if i = j then 1 / (2 * (i : ℝ) + a + 1) else 0 := by
  have hvalue (k : ℕ) (t : ℝ) : value (a : ℝ) 0 k (2 * t - 1) = (series a 0 k).eval (t - 1) := by
    rw [value_eq_eval (neg_one_lt_cast a) (by norm_num)]
    congr 1
    ring
  simp only [hvalue, ← eval_mul]
  exact weighted_series_mul a i j

end Jacobi
end Variational
