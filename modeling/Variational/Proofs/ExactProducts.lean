import Variational.Proofs.ExactRules
import Variational.Proofs.JacobiRecurrence

/-! Products of polynomials, one on each of the reference cells that a cell is made of. The rule on the cell integrates
them exactly if the rules on the line are exact, as the Gauss rules with one point are. -/
namespace Variational

namespace Cell

/-- A product of polynomials of a degree on the reference cells that a cell is made of, with the product of their
integrals. -/
inductive FactorProduct (n : ℕ) : Cell → (List ℝ → ℝ) → ℝ → Prop
  | simple {c : ReferenceCell} {f : List ℝ → ℝ} (hf : (Cell.simple c).IsPolynomial n f) :
    FactorProduct n (.simple c) f (c.integral f)
  | product {a b : Cell} {f g : List ℝ → ℝ} {I J : ℝ} (hf : FactorProduct n a f I) (hg : FactorProduct n b g J) :
    FactorProduct n (.product a b) (fun x => f (x.take a.dim) * g (x.drop a.dim)) (I * J)

theorem integral_congr {cell : Cell} {f g : List ℝ → ℝ} (h : ∀ x, x.length = cell.dim → f x = g x) :
    cell.integral f = cell.integral g := by
  rw [integral_eq_collapsed, integral_eq_collapsed, cell.collapsed_congr weightedIntegral h]

theorem integral_mul_const (cell : Cell) (f : List ℝ → ℝ) (r : ℝ) :
    (cell.integral fun x => f x * r) = cell.integral f * r := by
  induction cell generalizing f with
  | simple c =>
    simp only [integral, ReferenceCell.integral_eq_collapsed]
    cases c <;> simp only [ReferenceCell.collapsed, weightedIntegral_mul_const]
  | product a b ha hb => simp only [integral, hb, ha]

/-- Integrals over the factors of a product cell. -/
theorem integral_tensor (a b : Cell) (f g : List ℝ → ℝ) :
    ((product a b).integral fun x => f (x.take a.dim) * g (x.drop a.dim)) = a.integral f * b.integral g := by
  rw [integral, ← integral_mul_const]
  refine integral_congr fun p hp => ?_
  simp only [List.take_left' hp, List.drop_left' hp, mul_comm (f p), integral_mul_const]

namespace FactorProduct

variable {n : ℕ} {cell : Cell} {f : List ℝ → ℝ} {I : ℝ}

theorem isPolynomial (h : FactorProduct n cell f I) : cell.IsPolynomial n f := by
  induction h with
  | simple hf => exact hf
  | product _ _ hf hg => exact hf.tensor hg

theorem integral_eq (h : FactorProduct n cell f I) : cell.integral f = I := by
  induction h with
  | simple hf => rfl
  | product _ _ hf hg => rw [integral_tensor, hf, hg]

end FactorProduct
end Cell

namespace Gauss

section Linear

variable {a : ℝ}

theorem value_one_eq (a r : ℝ) : Jacobi.value a 0 1 r = a / 2 + (a + 2) / 2 * r := by
  rw [Jacobi.value_one, Jacobi.linear_zero]

theorem derivative_one_eq (a r : ℝ) : Jacobi.derivative a 0 1 r = (a + 2) / 2 := by
  rw [Jacobi.derivative, Jacobi.value_zero, Scalar.numeral_one]
  push_cast
  ring

/-- One step leads from anywhere to the root of a polynomial of degree one. -/
theorem newton_linear (ha : 0 ≤ a) (r : ℝ) :
    r - Jacobi.value a 0 1 r / (Jacobi.derivative a 0 1 r - Jacobi.value a 0 1 r * Scalar.sum []) = -a / (a + 2) := by
  rw [Scalar.sum_eq, List.sum_nil, mul_zero, sub_zero, value_one_eq, derivative_one_eq]
  field_simp
  ring

theorem refine_linear (ha : 0 ≤ a) (n : ℕ) (r : ℝ) : refine a 0 1 [] (n + 1) r = -a / (a + 2) := by
  induction n generalizing r with
  | zero =>
    simp only [refine, List.map_nil]
    rw [newton_linear ha, ite_self]
  | succ n ih =>
    rw [refine, List.map_nil]
    rw [newton_linear ha, ih, ite_self]

theorem weight_linear (a : ℕ) : weight (a : ℝ) 1 (-(a : ℝ) / (a + 2)) = 2 ^ (a + 1) / (a + 1) := by
  have hpower : Scalar.pow (2 : ℝ) (a + 1) = 2 ^ (a + 1) := by
    rw [← Real.rpow_natCast]
    push_cast
    rfl
  simp only [weight, Scalar.numeral_zero, Scalar.numeral_one, derivative_one_eq]
  have hdenominator : (1 - -(a : ℝ) / (a + 2) * (-(a : ℝ) / (a + 2))) * (((a : ℝ) + 2) / 2) * (((a : ℝ) + 2) / 2) =
      a + 1 := by
    field_simp
    ring
  rw [hdenominator]
  exact congrArg (· / ((a : ℝ) + 1)) hpower

/-- The Gauss rule with one point. -/
theorem line_one (a : ℕ) : (line 1 a : List (ℝ × ℝ)) = onePoint a := by
  have hpoints : points (a : ℝ) 0 1 = [-(a : ℝ) / (a + 2)] := by
    rw [points, roots, roots, List.nil_append, refine_linear a.cast_nonneg 99]
  simp only [line, rule, onePoint, Scalar.numeral_zero, hpoints, List.map_cons, List.map_nil, weight_linear]

theorem lineExact_line_one : LineExact (line 1) 1 := by
  simpa only [LineExact, line_one] using lineExact_onePoint

end Linear
end Gauss

namespace Rule

/-- The rule integrates the polynomials of a degree exactly, and with them the products of polynomials on the reference
cells that the cell is made of. -/
structure Exact (rule : Rule ℝ) (cell : Cell) (n : ℕ) : Prop where
  polynomial : ∀ f, cell.IsPolynomial n f → rule.sum f = cell.integral f
  factors : ∀ f I, cell.FactorProduct n f I → rule.sum f = I

theorem exact_cellFrom {line : ℕ → List (ℝ × ℝ)} {n : ℕ} (hline : LineExact line n) (cell : Cell) :
    (cellFrom line cell).Exact cell n := by
  refine ⟨fun f hf => sum_cellFrom_eq_integral hline hf, fun f I hf => ?_⟩
  rw [sum_cellFrom_eq_integral hline hf.isPolynomial, hf.integral_eq]

/-- The rule with `m` points in each direction is exact up to the degree `2 * m - 1` if the Gauss rules on the line are,
and so is what is made of any other rules on the line in their place. -/
theorem onCell_exact {m : ℕ} (hm : 1 ≤ m) (cell : Cell) :
    ∃ rule : Rule ℝ, onCell cell m = .ok rule ∧ rule.dim = cell.dim ∧ (∀ p ∈ rule.points, p.length = cell.dim) ∧
      (LineExact (Gauss.line m) (2 * m - 1) → rule.Exact cell (2 * m - 1)) ∧
      rule = cellFrom (Gauss.line m) cell ∧
      ∀ line, LineExact line (2 * m - 1) → (cellFrom line cell).Exact cell (2 * m - 1) :=
  ⟨_, onCell_eq (Nat.one_le_iff_ne_zero.mp hm) cell, dim_cellFrom _ cell, length_of_mem_cellFrom _ cell,
    fun hline => exact_cellFrom hline cell, rfl, fun _ hline => exact_cellFrom hline cell⟩

/-- One point in each direction, on a prism with a point as another factor. -/
theorem onCell_exact_prism : ∃ rule : Rule ℝ,
    onCell (.product (.product (.simple .triangle) (.simple .interval)) (.simple .point)) 1 = .ok rule ∧ rule.dim = 3 ∧
      LineExact (Gauss.line 1) (2 * 1 - 1) ∧
      rule.sum (fun x => ((x.take 3).take 2).getD 0 0 * ((x.take 3).drop 2).getD 0 0 * 1) = 1 / 12 := by
  obtain ⟨rule, hrule, hdim, -, hexact, -⟩ := onCell_exact le_rfl
    (.product (.product (.simple .triangle) (.simple .interval)) (.simple .point))
  have hproduct := Cell.FactorProduct.product
    (.product (.simple (Cell.IsPolynomial.coordinate (c := .triangle) two_pos))
      (.simple (Cell.IsPolynomial.coordinate (c := .interval) one_pos))) (.simple (.const (.simple .point) 1 1))
  refine ⟨rule, hrule, hdim, Gauss.lineExact_line_one, ?_⟩
  have htriangle : (ReferenceCell.integral .triangle fun x => x.getD 0 0) = 1 / 6 := by
    simp only [ReferenceCell.integral, List.getD_cons_zero, integral_id, intervalIntegral.integral_div]
    norm_num [intervalIntegral.integral_comp_sub_left fun y : ℝ => y ^ 2]
  have hinterval : (ReferenceCell.integral .interval fun x => x.getD 0 0) = 1 / 2 := by
    simp [ReferenceCell.integral]
  have hpoint : (ReferenceCell.integral .point fun _ => 1) = 1 := rfl
  refine ((hexact Gauss.lineExact_line_one).factors _ _ hproduct).trans ?_
  rw [htriangle, hinterval, hpoint]
  norm_num

end Rule
end Variational
