import Variational.Proofs.JacobiRecurrence

/-! Jacobi polynomials in powers of `(x - 1) / 2`. The coefficients have a product formula, from which the recurrence of
the polynomials and the rule for their derivatives are read off coefficient by coefficient. All parameters above `-1`
are admitted; no denominator of the recurrence vanishes for them. -/
namespace Variational.Jacobi

open Polynomial

/-- The coefficients of the polynomial of degree `n`. -/
noncomputable def coefficient (a b : ℝ) (n : ℕ) : ℕ → ℝ
  | 0 => ∏ i ∈ Finset.range n, (a + 1 + i) / (i + 1)
  | k + 1 => coefficient a b n k * ((n - k) * (n + a + b + 1 + k) / ((k + 1) * (a + 1 + k)))

section Coefficients

theorem coefficient_zero_succ (a b : ℝ) (n : ℕ) :
    coefficient a b (n + 1) 0 * (n + 1) = coefficient a b n 0 * (a + 1 + n) := by
  have hn : (n : ℝ) + 1 ≠ 0 := by positivity
  rw [coefficient, coefficient, Finset.prod_range_succ]
  field_simp

theorem coefficient_of_lt (a b : ℝ) {n k : ℕ} (h : n < k) : coefficient a b n k = 0 := by
  induction k, h using Nat.le_induction with
  | base => rw [coefficient, sub_self, zero_mul, zero_div, mul_zero]
  | succ k _ ih => rw [coefficient, ih, zero_mul]

theorem factor_pos {a : ℝ} (ha : -1 < a) (k : ℕ) : 0 < (k + 1) * (a + 1 + k) := by
  have hk : (0 : ℝ) ≤ k := k.cast_nonneg
  exact mul_pos (by linarith) (by linarith)

variable {a : ℝ} (ha : -1 < a) (b : ℝ)
include ha

theorem coefficient_succ (n k : ℕ) : coefficient a b n (k + 1) * ((k + 1) * (a + 1 + k)) =
    coefficient a b n k * ((n - k) * (n + a + b + 1 + k)) := by
  rw [coefficient, mul_assoc, div_mul_cancel₀ _ (factor_pos ha k).ne']

/-- One degree less. -/
theorem coefficient_lower (n k : ℕ) : coefficient a b n k * ((a + n + 1) * (n + a + b + 1 + k)) =
    coefficient a b (n + 1) k * ((n + 1 - k) * (n + a + b + 1)) := by
  induction k with
  | zero =>
    have hzero := coefficient_zero_succ a b n
    push_cast
    linear_combination (-(n + a + b + 1)) * hzero
  | succ k ih =>
    have hlow := coefficient_succ ha b n k
    have hhigh := coefficient_succ ha b (n + 1) k
    push_cast at hhigh ⊢
    refine mul_left_cancel₀ (factor_pos ha k).ne' ?_
    linear_combination (a + n + 1) * (n + a + b + 2 + k) * hlow - (n - k) * (n + a + b + 1) * hhigh
      + (n - k) * (n + a + b + 2 + k) * ih

/-- One degree and one power less. -/
theorem coefficient_lower_both (n k : ℕ) :
    coefficient a b n k * ((a + n + 1) * (n + a + b + 1 + k) * (n + a + b + 2 + k)) =
      coefficient a b (n + 1) (k + 1) * ((k + 1) * (a + 1 + k) * (n + a + b + 1)) := by
  have hlower := coefficient_lower ha b n k
  have hsucc := coefficient_succ ha b (n + 1) k
  push_cast at hsucc
  linear_combination (n + a + b + 2 + k) * hlower - (n + a + b + 1) * hsucc

omit ha in
/-- The first parameter raised by one; the second has no influence. -/
theorem coefficient_raise_zero (a b c : ℝ) (n : ℕ) :
    coefficient a b (n + 1) 0 * (n + 1) = (a + 1) * coefficient (a + 1) c n 0 := by
  induction n with
  | zero => simp [coefficient]
  | succ n ih =>
    have hlow := coefficient_zero_succ a b (n + 1)
    have hhigh := coefficient_zero_succ (a + 1) c n
    have hn : (n : ℝ) + 1 ≠ 0 := by positivity
    push_cast at hlow ⊢
    refine mul_left_cancel₀ hn ?_
    linear_combination (n + 1) * hlow + (a + n + 2) * ih - (a + 1) * hhigh

/-- Both parameters raised by one. -/
theorem coefficient_raise (n k : ℕ) :
    coefficient a b (n + 1) (k + 1) * (k + 1) = (n + a + b + 2) * coefficient (a + 1) (b + 1) n k := by
  induction k with
  | zero =>
    have hsucc := coefficient_succ ha b (n + 1) 0
    have hraise := coefficient_raise_zero a b (b + 1) n
    have hpos : a + 1 ≠ 0 := by linarith
    push_cast at hsucc ⊢
    refine mul_left_cancel₀ hpos ?_
    linear_combination hsucc + (n + a + b + 2) * hraise
  | succ k ih =>
    have ha' : -1 < a + 1 := by linarith
    have hlow := coefficient_succ ha b (n + 1) (k + 1)
    have hhigh := coefficient_succ ha' (b + 1) n k
    push_cast at hlow hhigh ⊢
    refine mul_left_cancel₀ (factor_pos ha' k).ne' ?_
    linear_combination (k + 1) * hlow + (n - k) * (n + a + b + 3 + k) * ih - (n + a + b + 2) * hhigh

end Coefficients

section Recurrence

theorem linear_eq (a b : ℝ) : linear a b = ⟨(a - b) / 2, (a + b + 2) / 2⟩ := by
  simp only [linear, Scalar.numeral_eq_cast]

theorem step_eq (a b : ℝ) (k : ℕ) : step a b k =
    ⟨(2 * k + (a + b) - 1) * (a * a - b * b) / (2 * k * (k + (a + b)) * (2 * k + (a + b) - 2)),
      (2 * k + (a + b) - 2) * (2 * k + (a + b) - 1) * (2 * k + (a + b)) /
        (2 * k * (k + (a + b)) * (2 * k + (a + b) - 2)),
      -(2 * (k + a - 1) * (k + b - 1) * (2 * k + (a + b))) /
        (2 * k * (k + (a + b)) * (2 * k + (a + b) - 2))⟩ := by
  simp only [step, Scalar.numeral_eq_cast]
  push_cast
  rfl

/-- The step from one degree to the next. The first one is that to the polynomial of degree one. -/
noncomputable def stepFrom (a b : ℝ) : ℕ → Step ℝ
  | 0 => ⟨(linear a b).constant, (linear a b).slope, 0⟩
  | n + 1 => step a b (n + 2)

/-- A coefficient from its neighbours, if the factors between them are known and satisfy the identity that is left. -/
theorem eq_of_neighbours {d D F v A B E P Q R C S M T p q t : ℝ} (hden : d * D * F ≠ 0) (hC : C * d = A)
    (hS : S * d = B) (hM : M * d = -(v * E)) (hp : p * D = T * P) (hq : q * (D * F) = T * Q)
    (ht : t * (v * F) = p * R) (h : d * D * F = (A + B) * P * F + 2 * B * Q - E * R * P) :
    T = (C + S) * p + 2 * S * q + M * t := by
  refine mul_left_cancel₀ hden ?_
  linear_combination T * h - p * D * F * (hC + hS) - 2 * q * D * F * hS - t * D * F * hM - (A + B) * F * hp
    - 2 * B * hq + E * D * ht + E * R * hp

variable {a b : ℝ} (ha : -1 < a) (hb : -1 < b)
include ha hb

theorem denominator_ne_zero {k : ℕ} (hk : 2 ≤ k) : 2 * (k : ℝ) * (k + (a + b)) * (2 * k + (a + b) - 2) ≠ 0 := by
  have hk' : (2 : ℝ) ≤ k := by exact_mod_cast hk
  have h₁ : 0 < (k : ℝ) + (a + b) := by linarith
  have h₂ : 0 < 2 * (k : ℝ) + (a + b) - 2 := by linarith
  positivity

/-- The coefficients of a step, cleared of their denominator. -/
theorem step_mul_denominator {k : ℕ} (hk : 2 ≤ k) :
    (step a b k).constant * (2 * k * (k + (a + b)) * (2 * k + (a + b) - 2)) =
        (2 * k + (a + b) - 1) * (a * a - b * b) ∧
      (step a b k).slope * (2 * k * (k + (a + b)) * (2 * k + (a + b) - 2)) =
        (2 * k + (a + b) - 2) * (2 * k + (a + b) - 1) * (2 * k + (a + b)) ∧
      (step a b k).previous * (2 * k * (k + (a + b)) * (2 * k + (a + b) - 2)) =
        -(2 * (k + a - 1) * (k + b - 1) * (2 * k + (a + b))) := by
  have hden := denominator_ne_zero ha hb hk
  rw [step_eq]
  exact ⟨div_mul_cancel₀ _ hden, div_mul_cancel₀ _ hden, div_mul_cancel₀ _ hden⟩

theorem coefficient_recurrence_zero (n : ℕ) : coefficient a b (n + 2) 0 =
    ((step a b (n + 2)).constant + (step a b (n + 2)).slope) * coefficient a b (n + 1) 0 +
      (step a b (n + 2)).previous * coefficient a b n 0 := by
  have hn : (0 : ℝ) ≤ n := n.cast_nonneg
  have hden := denominator_ne_zero ha hb (Nat.le_add_left 2 n)
  obtain ⟨hconstant, hslope, hprevious⟩ := step_mul_denominator ha hb (Nat.le_add_left 2 n)
  have hp := coefficient_zero_succ a b (n + 1)
  have ht := coefficient_zero_succ a b n
  push_cast at hp hden hconstant hslope hprevious
  have hneighbours : coefficient a b (n + 2) 0 =
      ((step a b (n + 2)).constant + (step a b (n + 2)).slope) * coefficient a b (n + 1) 0 +
        2 * (step a b (n + 2)).slope * 0 + (step a b (n + 2)).previous * coefficient a b n 0 := by
    refine eq_of_neighbours (D := a + n + 2) (F := 1) (v := a + n + 1) (E := 2 * (n + 1 + b) * (2 * (n + 2) + (a + b)))
      (P := n + 2) (Q := 0) (R := n + 1) ?_ hconstant hslope (by rw [hprevious]; ring) (by linear_combination -hp)
      (by ring) (by linear_combination -ht) (by ring)
    exact mul_ne_zero (mul_ne_zero hden (by linarith)) one_ne_zero
  rw [hneighbours, mul_zero, add_zero]

theorem coefficient_recurrence_succ (n k : ℕ) : coefficient a b (n + 2) (k + 1) =
    ((step a b (n + 2)).constant + (step a b (n + 2)).slope) * coefficient a b (n + 1) (k + 1) +
      2 * (step a b (n + 2)).slope * coefficient a b (n + 1) k +
      (step a b (n + 2)).previous * coefficient a b n (k + 1) := by
  have hn : (0 : ℝ) ≤ n := n.cast_nonneg
  have hk : (0 : ℝ) ≤ k := k.cast_nonneg
  have hden := denominator_ne_zero ha hb (Nat.le_add_left 2 n)
  obtain ⟨hconstant, hslope, hprevious⟩ := step_mul_denominator ha hb (Nat.le_add_left 2 n)
  have hp := coefficient_lower ha b (n + 1) (k + 1)
  have hq := coefficient_lower_both ha b (n + 1) k
  have ht := coefficient_lower ha b n (k + 1)
  push_cast at hp hq ht hden hconstant hslope hprevious
  refine eq_of_neighbours (D := (a + n + 2) * (n + a + b + k + 3)) (F := n + a + b + k + 2) (v := a + n + 1)
    (E := 2 * (n + 1 + b) * (2 * (n + 2) + (a + b))) (P := (n + 1 - k) * (n + a + b + 2))
    (Q := (k + 1) * (a + 1 + k) * (n + a + b + 2)) (R := (n - k) * (n + a + b + 1)) ?_ hconstant hslope
    (by rw [hprevious]; ring) (by linear_combination hp) (by linear_combination hq) (by linear_combination ht) (by ring)
  exact mul_ne_zero (mul_ne_zero hden (mul_ne_zero (by linarith) (by linarith))) (by linarith)

end Recurrence

section Series

/-- The polynomial of degree `n` in the variable `(x - 1) / 2`. -/
noncomputable def series (a b : ℝ) (n : ℕ) : ℝ[X] := ∑ k ∈ Finset.range (n + 1), monomial k (coefficient a b n k)

@[simp] theorem coeff_series (a b : ℝ) (n k : ℕ) : (series a b n).coeff k = coefficient a b n k := by
  simp only [series, finsetSum_coeff, coeff_monomial, Finset.sum_ite_eq', Finset.mem_range]
  split_ifs with hk
  · rfl
  · exact (coefficient_of_lt a b (by omega)).symm

theorem series_zero (a b : ℝ) : series a b 0 = 1 := by simp [series, coefficient]

variable {a b : ℝ} (ha : -1 < a)
include ha

theorem series_one :
    series a b 1 = C ((linear a b).constant + (linear a b).slope) + C (2 * (linear a b).slope) * X := by
  have hpos : a + 1 ≠ 0 := by linarith
  have hconstant : coefficient a b 1 0 = (a - b) / 2 + (a + b + 2) / 2 := by
    simp only [coefficient, Finset.prod_range_one, Nat.cast_zero]
    ring
  have hslope : coefficient a b 1 1 = 2 * ((a + b + 2) / 2) := by
    simp only [coefficient, Finset.prod_range_one, Nat.cast_zero, Nat.cast_one, add_zero, zero_add, sub_zero]
    field_simp
    ring
  rw [linear_eq, series, Finset.sum_range_succ, Finset.sum_range_one, ← C_mul_X_pow_eq_monomial,
    ← C_mul_X_pow_eq_monomial, pow_zero, mul_one, pow_one, hconstant, hslope]

/-- The derivative has both parameters raised by one. -/
theorem derivative_series (n : ℕ) :
    Polynomial.derivative (series a b (n + 1)) = C (n + a + b + 2) * series (a + 1) (b + 1) n := by
  ext k
  rw [coeff_derivative, coeff_C_mul, coeff_series, coeff_series]
  exact coefficient_raise ha b n k

variable (hb : -1 < b)
include hb

theorem series_add_two (n : ℕ) : series a b (n + 2) =
    (C ((step a b (n + 2)).constant + (step a b (n + 2)).slope) + C (2 * (step a b (n + 2)).slope) * X) *
        series a b (n + 1) + C (step a b (n + 2)).previous * series a b n := by
  ext k
  rw [coeff_add, add_mul, coeff_add, mul_assoc, coeff_C_mul, coeff_C_mul, coeff_C_mul]
  cases k with
  | zero =>
    rw [coeff_X_mul_zero, mul_zero, add_zero]
    simp only [coeff_series]
    exact coefficient_recurrence_zero ha hb n
  | succ k =>
    rw [coeff_X_mul]
    simp only [coeff_series]
    exact coefficient_recurrence_succ ha hb n k

/-- The steps of the recurrence lead from one polynomial to the next. -/
theorem series_succ (n : ℕ) : series a b (n + 1) =
    (C ((stepFrom a b n).constant + (stepFrom a b n).slope) + C (2 * (stepFrom a b n).slope) * X) * series a b n +
      C (stepFrom a b n).previous * series a b (n - 1) := by
  cases n with
  | zero => rw [series_one ha, series_zero, stepFrom, C_0, zero_mul, add_zero, mul_one]
  | succ n => exact series_add_two ha hb n

theorem pair_eq_eval (x : ℝ) (n : ℕ) :
    pair a b x n = ((series a b n).eval ((x - 1) / 2), (series a b (n + 1)).eval ((x - 1) / 2)) := by
  induction n with
  | zero =>
    rw [series_zero, series_one ha, pair, Scalar.numeral_one]
    simp only [eval_one, eval_add, eval_mul, eval_C, eval_X]
    congr 1
    ring
  | succ n ih =>
    rw [series_add_two ha hb, pair, ih]
    simp only [eval_add, eval_mul, eval_C, eval_X]
    congr 2
    ring

theorem value_eq_eval (x : ℝ) (n : ℕ) : value a b n x = (series a b n).eval ((x - 1) / 2) := by
  rw [value, pair_eq_eval ha hb]

/-- The derivative that is computed is that of the polynomial. -/
theorem derivative_eq_eval (x : ℝ) (n : ℕ) :
    2 * derivative a b n x = (Polynomial.derivative (series a b n)).eval ((x - 1) / 2) := by
  cases n with
  | zero => rw [series_zero, derivative_one, eval_zero, derivative, Scalar.numeral_zero, mul_zero]
  | succ n =>
    simp only [derivative, Scalar.numeral_eq_cast, Nat.cast_one]
    rw [derivative_series ha, value_eq_eval (by linarith) (by linarith), eval_mul, eval_C]
    push_cast
    ring

end Series
end Variational.Jacobi
