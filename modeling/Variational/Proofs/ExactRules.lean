import Variational.Proofs.CellIntegrals
import Variational.Quadrature.Rule

/-! Exact rules on cells. A rule on a cell is made of rules on the line for the weights `(1 - x) ^ a`: on a simplex in
collapsed coordinates, on a product one factor after the other. It is exact for the polynomials of a degree if the rules
on the line are. -/
namespace Variational

/-- Rules on the line for the weights `(1 - x) ^ a` on `[-1, 1]`, given as points with their weights, are exact for
polynomials up to a degree. -/
def LineExact (line : ℕ → List (ℝ × ℝ)) (n : ℕ) : Prop :=
  ∀ a ≤ 2, ∀ P : Polynomial ℝ, P.natDegree ≤ n →
    ((line a).map fun q => q.2 * P.eval q.1).sum = ∫ x in (-1 : ℝ)..1, (1 - x) ^ a * P.eval x

/-- The rules with one point on the line. -/
noncomputable def onePoint (a : ℕ) : List (ℝ × ℝ) := [(-a / (a + 2), 2 ^ (a + 1) / (a + 1))]

theorem lineExact_onePoint : LineExact onePoint 1 := by
  intro a _ P hP
  obtain ⟨c, b, rfl⟩ := Polynomial.exists_eq_X_add_C_of_natDegree_le_one hP
  have hpow (k : ℕ) : ∫ x in (-1 : ℝ)..1, (1 - x) ^ k = 2 ^ (k + 1) / (k + 1) := by
    rw [intervalIntegral.integral_comp_sub_left fun t => t ^ k, integral_pow]
    norm_num
  have hsplit : (∫ x in (-1 : ℝ)..1, (1 - x) ^ a * (c * x + b)) =
      (c + b) * (2 ^ (a + 1) / (a + 1)) - c * (2 ^ (a + 2) / (a + 2)) := by
    have hterms (x : ℝ) : (1 - x) ^ a * (c * x + b) = (c + b) * (1 - x) ^ a - c * (1 - x) ^ (a + 1) := by ring
    simp only [hterms]
    rw [intervalIntegral.integral_sub, intervalIntegral.integral_const_mul, intervalIntegral.integral_const_mul, hpow,
      hpow]
    · push_cast
      ring
    all_goals exact Continuous.intervalIntegrable (by fun_prop) _ _
  simp only [onePoint, List.map_cons, List.map_nil, List.sum_singleton, Polynomial.eval_add, Polynomial.eval_mul,
    Polynomial.eval_C, Polynomial.eval_X, hsplit]
  field_simp
  ring

section Line

open Polynomial

/-- A rule on the line carried to the unit interval. -/
noncomputable def weightedSum (line : ℕ → List (ℝ × ℝ)) (a : ℕ) (g : ℝ → ℝ) : ℝ :=
  ((line a).map fun q => q.2 / 2 ^ (a + 1) * g ((1 + q.1) / 2)).sum

theorem weightedSum_respectsSums (line : ℕ → List (ℝ × ℝ)) (a : ℕ) : RespectsSums (weightedSum line a) := by
  intro ts c g _
  simp only [weightedSum, ← List.sum_map_mul_left]
  rw [sum_map_sum_comm]
  refine congrArg List.sum (List.map_congr_left fun t _ => ?_)
  exact congrArg List.sum (List.map_congr_left fun q _ => mul_left_comm _ _ _)

/-- The polynomial that takes the values of a member of the Bernstein basis, carried to `[-1, 1]`. -/
noncomputable def bernsteinLine (i j : ℕ) : ℝ[X] := (C (1 / 2) * (1 - X)) ^ i * (C (1 / 2) * (1 + X)) ^ j

theorem eval_bernsteinLine (i j : ℕ) (x : ℝ) : (bernsteinLine i j).eval x = bernstein i j ((1 + x) / 2) := by
  simp only [bernsteinLine, bernstein, eval_mul, eval_pow, eval_C, eval_sub, eval_one, eval_X, eval_add]
  congr 2 <;> ring

theorem natDegree_bernsteinLine (i j : ℕ) : (bernsteinLine i j).natDegree ≤ i + j := by
  unfold bernsteinLine
  compute_degree

theorem LineExact.weightedSum_eq {line : ℕ → List (ℝ × ℝ)} {n : ℕ} (h : LineExact line n) :
    ∀ a ≤ 2, ∀ i j, i + j ≤ n → weightedSum line a (bernstein i j) = weightedIntegral a (bernstein i j) := by
  intro a ha i j hij
  have hexact := h a ha (bernsteinLine i j) ((natDegree_bernsteinLine i j).trans hij)
  have hline : (∫ x in (-1 : ℝ)..1, (1 - x) ^ a * bernstein i j ((1 + x) / 2)) =
      2 ^ (a + 1) * weightedIntegral a (bernstein i j) := by
    have hscale := intervalIntegral.integral_comp_mul_add (a := -1) (b := 1)
      (fun t => (1 - t) ^ a * bernstein i j t) (c := 1 / 2) (by norm_num) (1 / 2)
    norm_num at hscale
    rw [weightedIntegral, pow_succ, mul_assoc, ← hscale, ← intervalIntegral.integral_const_mul]
    refine intervalIntegral.integral_congr fun x _ => ?_
    have hpow : (1 - x) ^ a = 2 ^ a * (1 - (1 / 2 * x + 1 / 2)) ^ a := by
      rw [← mul_pow]
      ring
    simp only [hpow, mul_assoc]
    ring_nf
  simp only [eval_bernsteinLine] at hexact
  rw [hline] at hexact
  have hfactor (w x : ℝ) : w / 2 ^ (a + 1) * x = w * x * (2 ^ (a + 1))⁻¹ := by ring
  simp only [weightedSum, hfactor, List.sum_map_mul_right]
  rw [hexact, mul_right_comm, mul_inv_cancel₀ (by positivity), one_mul]

end Line

section Rules

variable {α : Type} [Scalar α]

/-- The Gauss rules with the given number of points, for all weights. -/
def Gauss.line (m a : ℕ) : List (α × α) := Gauss.rule (a : α) m

namespace Rule

variable (line : ℕ → List (α × α))

def intervalFrom : Rule α := ⟨1, (line 0).map fun (x, w) => ⟨[(1 + x) / 2], w / 2⟩⟩

/-- The rules on reference cells that are made of the given rules on the line. -/
def referenceFrom : ReferenceCell → Rule α
  | .point => degenerate
  | .interval => intervalFrom line
  | .triangle =>
    ⟨2, (line 0).flatMap fun (x, u) => (line 1).map fun (y, v) => ⟨[(1 + x) / 4 * (1 - y), (1 + y) / 2], u * v / 8⟩⟩
  | .quadrilateral => (intervalFrom line).product (intervalFrom line)
  | .tetrahedron =>
    ⟨3, (line 0).flatMap fun (x, u) => (line 1).flatMap fun (y, v) => (line 2).map fun (z, t) =>
      ⟨[(1 + x) / 8 * (1 - y) * (1 - z), (1 + y) / 4 * (1 - z), (1 + z) / 2], u * v * t / 64⟩⟩
  | .hexahedron => ((intervalFrom line).product (intervalFrom line)).product (intervalFrom line)

/-- The rules on cells that are made of the given rules on the line. -/
def cellFrom : Cell → Rule α
  | .simple c => referenceFrom line c
  | .product a b => (cellFrom a).product (cellFrom b)

theorem dim_cellFrom (cell : Cell) : (cellFrom line cell).dim = cell.dim := by
  induction cell with
  | simple c => cases c <;> rfl
  | product a b ha hb => exact congrArg₂ (· + ·) ha hb

theorem length_of_mem_product {r s : Rule α} {m n : ℕ} (hr : ∀ p ∈ r.points, p.length = m)
    (hs : ∀ p ∈ s.points, p.length = n) : ∀ p ∈ (r.product s).points, p.length = m + n := by
  refine List.forall_mem_map.mpr (List.forall_mem_flatMap.mpr fun p hp => List.forall_mem_map.mpr fun q hq => ?_)
  rw [List.length_append, hr _ (List.mem_map_of_mem hp), hs _ (List.mem_map_of_mem hq)]

/-- The points have as many coordinates as the cell has dimensions. -/
theorem length_of_mem_cellFrom (cell : Cell) : ∀ p ∈ (cellFrom line cell).points, p.length = cell.dim := by
  have hinterval : ∀ p ∈ (intervalFrom line).points, p.length = 1 :=
    List.forall_mem_map.mpr (List.forall_mem_map.mpr fun _ _ => rfl)
  induction cell with
  | simple c =>
    cases c with
    | point => exact List.forall_mem_singleton.mpr rfl
    | interval => exact hinterval
    | triangle =>
      exact List.forall_mem_map.mpr (List.forall_mem_flatMap.mpr fun _ _ => List.forall_mem_map.mpr fun _ _ => rfl)
    | quadrilateral => exact length_of_mem_product hinterval hinterval
    | tetrahedron =>
      exact List.forall_mem_map.mpr (List.forall_mem_flatMap.mpr fun _ _ =>
        List.forall_mem_flatMap.mpr fun _ _ => List.forall_mem_map.mpr fun _ _ => rfl)
    | hexahedron => exact length_of_mem_product (length_of_mem_product hinterval hinterval) hinterval
  | product a b ha hb => exact length_of_mem_product ha hb

theorem onReference_eq {m : ℕ} (hm : m ≠ 0) (c : ReferenceCell) :
    onReference c m = .ok (referenceFrom (Gauss.line m) c : Rule α) := by
  unfold onReference
  rw [if_neg fun h => hm h.1]
  cases c <;> rfl

/-- The rule on a cell is made of the Gauss rules on the line. -/
theorem onCell_eq {m : ℕ} (hm : m ≠ 0) (cell : Cell) :
    onCell cell m = .ok (cellFrom (Gauss.line m) cell : Rule α) := by
  induction cell with
  | simple c => exact onReference_eq hm c
  | product a b ha hb =>
    rw [onCell, ha, hb]
    rfl

end Rule
end Rules

namespace Rule

/-- The weighted sum of the values of a function at the nodes. -/
noncomputable def sum (r : Rule ℝ) (f : List ℝ → ℝ) : ℝ := (r.nodes.map fun q => q.weight * f q.point).sum

theorem sum_product (r s : Rule ℝ) (f : List ℝ → ℝ) :
    (r.product s).sum f = r.sum fun p => s.sum fun q => f (p ++ q) := by
  simp only [sum, product, sum_flatMap, List.map_map, Function.comp_def, ← List.sum_map_mul_left, mul_assoc]

variable (line : ℕ → List (ℝ × ℝ))

theorem sum_intervalFrom (f : List ℝ → ℝ) : (intervalFrom line).sum f = weightedSum line 0 fun x => f [x] := by
  simp only [sum, intervalFrom, weightedSum, List.map_map]
  refine congrArg List.sum (List.map_congr_left fun q _ => ?_)
  simp only [Function.comp_apply, Scalar.numeral_one]
  norm_num

theorem sum_referenceFrom (c : ReferenceCell) (f : List ℝ → ℝ) :
    (referenceFrom line c).sum f = c.collapsed (weightedSum line) f := by
  cases c with
  | point => simp [sum, referenceFrom, degenerate, ReferenceCell.collapsed]
  | interval => exact sum_intervalFrom line f
  | triangle =>
    simp only [sum, referenceFrom, ReferenceCell.collapsed, weightedSum, sum_flatMap,
      List.map_map, Function.comp_def, ← List.sum_map_mul_left]
    rw [sum_map_sum_comm]
    refine congrArg List.sum (List.map_congr_left fun q _ => ?_)
    refine congrArg List.sum (List.map_congr_left fun r _ => ?_)
    rw [← mul_assoc]
    refine congrArg₂ (· * ·) (by ring) (congrArg f ?_)
    simp only [List.cons.injEq, and_true, Scalar.numeral_one]
    ring
  | quadrilateral =>
    simp only [referenceFrom, sum_product, sum_intervalFrom, ReferenceCell.collapsed, List.cons_append, List.nil_append]
  | tetrahedron =>
    simp only [sum, referenceFrom, ReferenceCell.collapsed, weightedSum, sum_flatMap,
      List.map_map, Function.comp_def, ← List.sum_map_mul_left]
    rw [sum_map_sum_comm]
    simp only [sum_map_sum_comm (line 0) (line 2)]
    rw [sum_map_sum_comm]
    refine congrArg List.sum (List.map_congr_left fun q _ => ?_)
    refine congrArg List.sum (List.map_congr_left fun r _ => ?_)
    refine congrArg List.sum (List.map_congr_left fun s _ => ?_)
    rw [← mul_assoc, ← mul_assoc]
    refine congrArg₂ (· * ·) (by ring) (congrArg f ?_)
    simp only [List.cons.injEq, and_true, Scalar.numeral_one]
    exact ⟨by ring, by ring⟩
  | hexahedron =>
    simp only [referenceFrom, sum_product, sum_intervalFrom, ReferenceCell.collapsed, List.cons_append, List.nil_append]

theorem sum_cellFrom (cell : Cell) (f : List ℝ → ℝ) :
    (cellFrom line cell).sum f = cell.collapsed (weightedSum line) f := by
  induction cell generalizing f with
  | simple c => exact sum_referenceFrom line c f
  | product a b ha hb => simp only [cellFrom, sum_product, Cell.collapsed, ha, hb]

variable {line}

/-- Made of exact rules on the line, the rule on a cell integrates the polynomials of the degree exactly. -/
theorem sum_cellFrom_eq_integral {n : ℕ} (hline : LineExact line n) {cell : Cell} {f : List ℝ → ℝ}
    (hf : cell.IsPolynomial n f) : (cellFrom line cell).sum f = cell.integral f := by
  rw [sum_cellFrom, Cell.integral_eq_collapsed]
  exact hf.collapsed_eq (weightedSum_respectsSums line) weightedIntegral_respectsSums hline.weightedSum_eq

end Rule
end Variational
