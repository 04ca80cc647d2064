import Variational.Proofs.ExactProducts
import Variational.Proofs.PolynomialSpaces
import Variational.Proofs.RegularSystems

/-! Derivatives of any order. The derivative of a member of an expansion set has at most the degree of the set, so it is
a combination of the members. If the rule is exact for the products of two members, the mass matrix is a multiple of the
identity, the solution of the mass system has the coefficients of these combinations, and applying the matrices one
after the other gives the partial derivatives of the members. -/
namespace Variational

open MvPolynomial Result

section PartialDerivatives

variable {n : ℕ}

theorem pderiv_comm (P : MvPolynomial (Fin n) ℝ) (i j : Fin n) : pderiv i (pderiv j P) = pderiv j (pderiv i P) := by
  rcases eq_or_ne i j with rfl | hne
  · rfl
  ext s
  have hi : (s + Finsupp.single i 1 : Fin n →₀ ℕ) j = s j := by simp [hne.symm]
  have hj : (s + Finsupp.single j 1 : Fin n →₀ ℕ) i = s i := by simp [hne]
  rw [coeff_pderiv, coeff_pderiv, coeff_pderiv, coeff_pderiv, hi, hj, add_right_comm]
  ring

/-- Derivatives in some directions, one after the other. -/
noncomputable def derivativeAlong (ds : List (Fin n)) (P : MvPolynomial (Fin n) ℝ) : MvPolynomial (Fin n) ℝ :=
  ds.foldl (fun Q d => pderiv d Q) P

theorem derivativeAlong_perm {ds ds' : List (Fin n)} (h : ds.Perm ds') (P : MvPolynomial (Fin n) ℝ) :
    derivativeAlong ds P = derivativeAlong ds' P :=
  h.foldl_eq' (fun i _ j _ Q => pderiv_comm Q j i) P

theorem derivativeAlong_append (ds ds' : List (Fin n)) (P : MvPolynomial (Fin n) ℝ) :
    derivativeAlong (ds ++ ds') P = derivativeAlong ds' (derivativeAlong ds P) := List.foldl_append

theorem derivativeAlong_replicate (k : ℕ) (i : Fin n) (P : MvPolynomial (Fin n) ℝ) :
    derivativeAlong (List.replicate k i) P = (pderiv i)^[k] P := by
  induction k generalizing P with
  | zero => rfl
  | succ k ih => exact ih (pderiv i P)

theorem derivativeAlong_sum {ι : Type} (ds : List (Fin n)) (s : Finset ι) (a : ι → ℝ)
    (P : ι → MvPolynomial (Fin n) ℝ) :
    derivativeAlong ds (∑ q ∈ s, a q • P q) = ∑ q ∈ s, a q • derivativeAlong ds (P q) := by
  induction ds generalizing P with
  | nil => rfl
  | cons d ds ih =>
    have hstep : pderiv d (∑ q ∈ s, a q • P q) = ∑ q ∈ s, a q • pderiv d (P q) := by
      rw [map_sum]
      exact Finset.sum_congr rfl fun q _ => (pderiv d).map_smul (a q) (P q)
    exact (congrArg (derivativeAlong ds) hstep).trans (ih fun q => pderiv d (P q))

theorem derivativeAlong_zero (ds : List (Fin n)) : derivativeAlong ds 0 = 0 :=
  derivativeAlong_sum ds (∅ : Finset ℕ) (fun _ => 0) fun _ => 0

theorem iterate_pderiv_eq_zero {i : Fin n} {k : ℕ} {P : MvPolynomial (Fin n) ℝ} (h : degreeOf i P < k) :
    (pderiv i)^[k] P = 0 := by
  suffices hcoeff : ∀ (k : ℕ) (P : MvPolynomial (Fin n) ℝ), (∀ s, coeff (s + Finsupp.single i k) P = 0) →
      (pderiv i)^[k] P = 0 by
    refine hcoeff k P fun s => notMem_support_iff.mp fun hmem => ?_
    have hle := monomial_le_degreeOf i hmem
    rw [Finsupp.add_apply, Finsupp.single_eq_same] at hle
    omega
  intro k
  induction k with
  | zero =>
    intro P hP
    ext s
    simpa using hP s
  | succ k ih =>
    intro P hP
    rw [Function.iterate_succ_apply]
    refine ih _ fun s => ?_
    rw [coeff_pderiv, add_assoc, ← Finsupp.single_add, hP, zero_mul]

/-- The derivative with a multi-index: in each direction as often as it says. -/
noncomputable def partialDerivative (index : List ℕ) (P : MvPolynomial (Fin n) ℝ) : MvPolynomial (Fin n) ℝ :=
  (List.finRange n).foldl (fun Q (i : Fin n) => (pderiv i)^[index.getD i 0] Q) P

/-- The directions of a multi-index with an entry for each coordinate. -/
def axesOf (n : ℕ) (index : List ℕ) : List (Fin n) :=
  (List.finRange n).flatMap fun i : Fin n => List.replicate (index.getD i 0) i

theorem derivativeAlong_axesOf (index : List ℕ) (P : MvPolynomial (Fin n) ℝ) :
    derivativeAlong (axesOf n index) P = partialDerivative index P := by
  rw [derivativeAlong, axesOf, List.foldl_flatMap, partialDerivative]
  congr 1
  funext Q i
  exact derivativeAlong_replicate _ i Q

theorem map_axesOf {index : List ℕ} (h : index.length = n) :
    (axesOf n index).map Fin.val = Expansion.directions index := by
  have hpairs : index.zipIdx = (List.finRange n).map fun i : Fin n => (index.getD i 0, (i : ℕ)) := by
    refine List.ext_getElem (by simp [h]) fun i hi _ => ?_
    have hlt : i < index.length := by simpa using hi
    simp [hlt]
  rw [Expansion.directions, hpairs, axesOf, List.map_flatMap, List.flatMap_map]
  simp only [List.map_replicate]

theorem partialDerivative_eq_zero {index : List ℕ} {i : Fin n} {P : MvPolynomial (Fin n) ℝ}
    (h : degreeOf i P < index.getD i 0) : partialDerivative index P = 0 := by
  have hperm := (List.perm_cons_erase (List.mem_finRange i)).flatMap_right
    fun i : Fin n => List.replicate (index.getD i 0) i
  rw [← derivativeAlong_axesOf, axesOf, derivativeAlong_perm hperm, List.flatMap_cons, derivativeAlong_append,
    derivativeAlong_replicate, iterate_pderiv_eq_zero h, derivativeAlong_zero]

end PartialDerivatives

namespace LinearSystem

section Functions

variable {m n : ℕ}

theorem columns_map_ofFn {β γ : Type} (xs : List β) (f : Fin n → β → γ) :
    columns n (xs.map fun x => List.ofFn fun j => f j x) = List.ofFn fun j => xs.map (f j) := by
  induction xs with
  | nil => simp [columns, List.ofFn_const]
  | cons x xs ih =>
    rw [List.map_cons, columns, ih]
    refine List.ext_getElem (by simp) fun j _ _ => ?_
    simp

/-- The rows of a matrix that is given by its entries. -/
def rowsOf {γ : Type} (f : Fin m → Fin n → γ) : List (List γ) := List.ofFn fun i => List.ofFn (f i)

theorem columns_rowsOf {γ : Type} (f : Fin m → Fin n → γ) : columns n (rowsOf f) = rowsOf fun j i => f i j := by
  rw [rowsOf, List.ofFn_eq_map, columns_map_ofFn (List.finRange m) fun j i => f i j]
  simp only [rowsOf, List.ofFn_eq_map]

theorem square_rowsOf (f : Fin n → Fin n → ℝ) : Square n (rowsOf f) :=
  ⟨List.length_ofFn, List.forall_mem_ofFn_iff.mpr fun _ => List.length_ofFn⟩

theorem entry_rowsOf (f : Fin m → Fin n → ℝ) (i : Fin m) (j : Fin n) : entry (rowsOf f) i j = f i j := by
  simp [entry, rowsOf]

theorem eq_rowsOf {xs : List (List ℝ)} (hlength : xs.length = m) (hwidth : ∀ x ∈ xs, x.length = n)
    {f : Fin m → Fin n → ℝ} (h : ∀ (i : Fin m) (j : Fin n), entry xs i j = f i j) : xs = rowsOf f := by
  refine List.ext_getElem (by simp [rowsOf, hlength]) fun i hi _ => ?_
  have hrow := hwidth _ (List.getElem_mem hi)
  refine List.ext_getElem (by simp [rowsOf, hrow]) fun j hj _ => ?_
  have hentry := h ⟨i, hlength ▸ hi⟩ ⟨j, hrow ▸ hj⟩
  simpa [entry, rowsOf, hi, hj] using hentry

/-- A system whose matrix is a multiple of the identity. -/
theorem solve_scaled {s : ℝ} (hs : s ≠ 0) (f : Fin n → Fin n → ℝ) :
    solve (rowsOf fun i j : Fin n => if i = j then s else 0) (rowsOf fun i j => s * f i j) = some (rowsOf f) := by
  have hsquare := square_rowsOf fun i j : Fin n => if i = j then s else 0
  have hrhs := square_rowsOf fun i j => s * f i j
  have hscalar : toMatrix n (rowsOf fun i j : Fin n => if i = j then s else 0) = Matrix.diagonal fun _ => s := by
    ext i j
    rw [toMatrix, Matrix.of_apply, entry_rowsOf, Matrix.diagonal_apply]
  have hdet : (toMatrix n (rowsOf fun i j : Fin n => if i = j then s else 0)).det ≠ 0 := by
    rw [hscalar, Matrix.det_diagonal]
    exact Finset.prod_ne_zero_iff.mpr fun _ _ => hs
  obtain ⟨xs, hxs⟩ := exists_solve hsquare hdet hrhs.rows
  obtain ⟨hlength, hwidth, hsolves⟩ := solve_ok hsquare hrhs.rows hrhs.columns hxs
  have hentries (i j : Fin n) : entry xs i j = f i j := by
    have hequation := hsolves i i.isLt j j.isLt
    simp only [entry_rowsOf, ite_mul, zero_mul, Finset.sum_ite_eq, Finset.mem_univ, if_true] at hequation
    exact mul_left_cancel₀ hs hequation
  rw [hxs, eq_rowsOf hlength hwidth hentries]

end Functions
end LinearSystem

namespace Rule

/-- The weighted sum is linear. -/
theorem sum_linear {ι : Type} (rule : Rule ℝ) (s : Finset ι) (c : ι → ℝ) (f : ι → List ℝ → ℝ) :
    (rule.sum fun x => ∑ i ∈ s, c i * f i x) = ∑ i ∈ s, c i * rule.sum (f i) := by
  simp only [sum, Finset.mul_sum]
  rw [sum_map_finset_sum]
  refine Finset.sum_congr rfl fun i _ => ?_
  rw [← List.sum_map_mul_left]
  exact congrArg List.sum (List.map_congr_left fun q _ => mul_left_comm _ _ _)

/-- The integrals of all products, from the values at the nodes. -/
theorem pairings_eq {m n : ℕ} (rule : Rule ℝ) (f : Fin m → List ℝ → ℝ) (g : Fin n → List ℝ → ℝ) :
    Expansion.pairings rule.weights (List.ofFn fun p => rule.points.map (f p))
      (List.ofFn fun q => rule.points.map (g q)) = LinearSystem.rowsOf fun p q => rule.sum fun x => f p x * g q x := by
  have hdot (p : Fin m) (q : Fin n) :
      Scalar.dot (List.zipWith (· * ·) rule.weights (rule.points.map (f p))) (rule.points.map (g q)) =
        rule.sum fun x => f p x * g q x := by
    simp only [weights, points, Scalar.dot, Scalar.sum_eq, List.map_map, List.zipWith_map, List.zipWith_self, sum,
      Function.comp_def, mul_assoc]
  simp only [Expansion.pairings, List.map_ofFn, Function.comp_def, hdot, LinearSystem.rowsOf]

/-- The rule is exact for the products of two members of an expansion set. -/
def ExactForProducts (rule : Rule ℝ) (cell : ReferenceCell) (n : ℕ) : Prop :=
  ∀ p q : Fin (Expansion.count cell n), (rule.sum fun x =>
    eval (Expansion.coordinates cell.dim x) (Expansion.member cell n p) *
      eval (Expansion.coordinates cell.dim x) (Expansion.member cell n q)) =
    cell.polynomialIntegral (Expansion.member cell n p * Expansion.member cell n q)

/-- A rule that is exact up to twice the degree is exact for the products. -/
theorem Exact.exactForProducts {rule : Rule ℝ} {cell : ReferenceCell} {n : ℕ}
    (h : rule.Exact (.simple cell) (n + n)) : rule.ExactForProducts cell n := by
  intro p q
  have hmember (p : Fin (Expansion.count cell n)) :=
    (Expansion.isPolynomial_of_mem_members (Expansion.member_mem_members cell n p)).value
  refine (h.polynomial _ ((hmember p).mul (hmember q))).trans ?_
  rw [← ReferenceCell.integral_eval]
  simp only [map_mul]
  rfl

end Rule

namespace Expansion

section Matrices

variable {α : Type} [Scalar α] (rule : Rule α) (cell : ReferenceCell) (degree : ℕ)

/-- The matrix of the derivative in one direction, with the integrals taken by the given rule. -/
def derivativeMatrixFrom (direction : ℕ) : Result (List (List α)) := do
  let n := count cell degree
  let psi := LinearSystem.columns n (← values cell degree rule.points)
  let dpsi := LinearSystem.columns n (← slopes cell degree direction rule.points)
  let mass := pairings rule.weights psi psi
  match LinearSystem.solve mass (LinearSystem.columns n (pairings rule.weights dpsi psi)) with
  | some x => return LinearSystem.columns n x
  | none => .error (.singularMatrix (.mass degree cell))

/-- Derivatives along a list of directions, with the integrals taken by the given rule. -/
def alongFrom (points : List (List α)) : List ℕ → Result (List (List α))
  | [] => values cell degree points
  | [d] => slopes cell degree d points
  | d :: e :: rest => do
    let inner ← alongFrom points (e :: rest)
    let matrix ← derivativeMatrixFrom rule cell degree d
    return inner.map fun v => matrix.map fun row => Scalar.dot row v

variable {rule cell degree} (hrule : Rule.onReference cell (degree + 1) = .ok rule)
include hrule

theorem derivativeMatrix_eq (direction : ℕ) :
    derivativeMatrix cell degree direction = derivativeMatrixFrom rule cell degree direction := by
  rw [derivativeMatrix, hrule]
  rfl

/-- Derivatives are taken with the rule that has one point more than the degree in each direction. -/
theorem along_eq (points : List (List α)) (ds : List ℕ) :
    along cell degree points ds = alongFrom rule cell degree points ds := by
  induction ds with
  | nil => rfl
  | cons d ds ih =>
    cases ds with
    | nil => rfl
    | cons e ds =>
      rw [along, alongFrom, ih, derivativeMatrix_eq hrule]
      exact List.cons_ne_nil e ds

end Matrices

section Exact

variable {cell : ReferenceCell} {n : ℕ}

theorem slopes_eq_eval {points : List (List ℝ)} (h : ∀ x ∈ points, x.length = cell.dim) (n : ℕ) (d : Fin cell.dim) :
    slopes cell n d points = .ok (points.map fun x => List.ofFn fun p =>
      eval (coordinates cell.dim x) (pderiv d (member cell n p))) := by
  rw [slopes, if_pos d.isLt, tabulate_eq_jetAt h, ok_bind]
  simp only [List.map_map, Function.comp_def, List.map_ofFn, jetAt, Scalar.numeral_zero]
  simp only [List.getD_eq_getElem?_getD, List.getElem?_ofFn, d.isLt, dif_pos]
  rfl

/-- The derivative of a member is a combination of the members. -/
theorem exists_combination (n : ℕ) (d : Fin cell.dim) : ∃ a : Fin (count cell n) → Fin (count cell n) → ℝ,
    ∀ p, pderiv d (member cell n p) = ∑ q, a p q • member cell n q := by
  have hspan (p : Fin (count cell n)) : ∃ a : Fin (count cell n) → ℝ, ∑ q, a q • member cell n q =
      pderiv d (member cell n p) := by
    have hmem := pderiv_member_mem cell n p d
    rw [← span_member] at hmem
    exact (Submodule.mem_span_range_iff_exists_fun ℝ).mp hmem
  choose a ha using hspan
  exact ⟨a, fun p => (ha p).symm⟩

variable {rule : Rule ℝ} (hrule : rule.ExactForProducts cell n)
include hrule

theorem sum_member_mul (p q : Fin (count cell n)) : (rule.sum fun x =>
    eval (coordinates cell.dim x) (member cell n p) * eval (coordinates cell.dim x) (member cell n q)) =
      if p = q then 1 / 2 ^ cell.dim else 0 := by
  rw [hrule, polynomialIntegral_member_mul]

/-- The coefficients of a combination, by summation against the members. -/
theorem sum_combination_mul (a : Fin (count cell n) → ℝ) (q : Fin (count cell n)) : (rule.sum fun x =>
    eval (coordinates cell.dim x) (∑ p, a p • member cell n p) * eval (coordinates cell.dim x) (member cell n q)) =
      1 / 2 ^ cell.dim * a q := by
  have hexpand (x : List ℝ) : eval (coordinates cell.dim x) (∑ p, a p • member cell n p) *
      eval (coordinates cell.dim x) (member cell n q) = ∑ p, a p *
        (eval (coordinates cell.dim x) (member cell n p) * eval (coordinates cell.dim x) (member cell n q)) := by
    simp only [map_sum, smul_eval, Finset.sum_mul, mul_assoc]
  simp only [hexpand]
  rw [rule.sum_linear]
  simp only [sum_member_mul hrule, mul_ite, mul_zero, Finset.sum_ite_eq', Finset.mem_univ, if_true]
  rw [mul_comm]

variable (hnodes : ∀ x ∈ rule.points, x.length = cell.dim)
include hnodes

/-- The matrix of a direction has the coefficients of the derivatives of the members. -/
theorem derivativeMatrixFrom_eq (d : Fin cell.dim) {a : Fin (count cell n) → Fin (count cell n) → ℝ}
    (ha : ∀ p, pderiv d (member cell n p) = ∑ q, a p q • member cell n q) :
    derivativeMatrixFrom rule cell n d = .ok (LinearSystem.rowsOf a) := by
  have hscale : (1 / 2 ^ cell.dim : ℝ) ≠ 0 := by positivity
  rw [derivativeMatrixFrom, values_eq_eval hnodes, slopes_eq_eval hnodes]
  simp only [ok_bind, LinearSystem.columns_map_ofFn, Rule.pairings_eq, LinearSystem.columns_rowsOf, ha,
    sum_member_mul hrule, sum_combination_mul hrule, LinearSystem.solve_scaled hscale]
  rfl

/-- Derivatives along some directions are those of the polynomials. -/
theorem alongFrom_eq {points : List (List ℝ)} (hpoints : ∀ x ∈ points, x.length = cell.dim) (ds : List (Fin cell.dim)) :
    alongFrom rule cell n points (ds.map Fin.val) = .ok (points.map fun x => List.ofFn fun p =>
      eval (coordinates cell.dim x) (derivativeAlong ds (member cell n p))) := by
  induction ds with
  | nil => exact values_eq_eval hpoints n
  | cons d ds ih =>
    cases ds with
    | nil => exact slopes_eq_eval hpoints n d
    | cons e ds =>
      obtain ⟨a, ha⟩ := exists_combination n d
      have hrow (p : Fin (count cell n)) (x : List ℝ) :
          Scalar.dot (List.ofFn (a p)) (List.ofFn fun q =>
            eval (coordinates cell.dim x) (derivativeAlong (e :: ds) (member cell n q))) =
          eval (coordinates cell.dim x) (derivativeAlong (d :: e :: ds) (member cell n p)) := by
        have hfirst : derivativeAlong (d :: e :: ds) (member cell n p) =
            derivativeAlong (e :: ds) (∑ q, a p q • member cell n q) := by
          rw [← ha]
          rfl
        rw [hfirst, derivativeAlong_sum, map_sum, Scalar.dot_eq _ _ (by simp), List.length_ofFn, Finset.sum_range]
        refine Finset.sum_congr rfl fun q _ => ?_
        simp
      rw [List.map_cons] at ih
      rw [List.map_cons, List.map_cons, alongFrom, ih, ok_bind, derivativeMatrixFrom_eq hrule hnodes d ha, ok_bind]
      refine congrArg Except.ok ?_
      simp only [List.map_map, Function.comp_def, LinearSystem.rowsOf, List.map_ofFn, hrow]

end Exact

theorem degreeOf_member_le (cell : ReferenceCell) (n : ℕ) (p : Fin (count cell n)) (i : Fin cell.dim) :
    degreeOf i (member cell n p) ≤ n := by
  refine degreeOf_le_iff.mpr fun s hs => ?_
  have hadmits := ReferenceCell.mem_polynomialSpace.mp (member_mem cell n p) s hs
  exact (ReferenceCell.admits_ofFn_iff.mp hadmits).2 i

/-- The derivatives with a multi-index, of all members of a set, by point. -/
noncomputable def derivativeTable (cell : ReferenceCell) (n : ℕ) (index : List ℕ) (points : List (List ℝ)) :
    List (List ℝ) :=
  points.map fun x => List.ofFn fun p => eval (coordinates cell.dim x) (partialDerivative index (member cell n p))

theorem derivativeTable_eq (cell : ReferenceCell) (n : ℕ) (index : List ℕ) (points : List (List ℝ)) :
    derivativeTable cell n index points = points.map fun x => (polynomials cell n).map fun P =>
      eval (coordinates cell.dim x) (partialDerivative index P) := by
  simp only [derivativeTable, ← ofFn_member, List.map_ofFn, Function.comp_def]

/-- Any order of the directions of a multi-index gives the partial derivatives. -/
theorem alongFrom_perm {cell : ReferenceCell} {n : ℕ} {rule : Rule ℝ} (hrule : rule.ExactForProducts cell n)
    (hnodes : ∀ x ∈ rule.points, x.length = cell.dim) {index : List ℕ} (hindex : index.length = cell.dim)
    {points : List (List ℝ)} (hpoints : ∀ x ∈ points, x.length = cell.dim) {ds : List ℕ}
    (hds : ds.Perm (directions index)) :
    alongFrom rule cell n points ds = .ok (derivativeTable cell n index points) := by
  rw [← map_axesOf hindex] at hds
  obtain ⟨axes, rfl, haxes⟩ := (congrFun₂ (List.eq_map_comp_perm Fin.val) ds (axesOf cell.dim index)).mpr hds
  rw [alongFrom_eq hrule hnodes hpoints]
  simp only [derivativeAlong_perm haxes, derivativeAlong_axesOf, derivativeTable]

/-- Derivatives of any order are exact. The code takes its integrals by the rule with one point more than the degree in
each direction. If that rule is exact for the products of two members, the derivative with a multi-index is the partial
derivative of each member at the points, in whatever order the directions are taken, and the same holds of any other
rule in its place. It is zero where the multi-index exceeds the degree of a member in a direction. -/
theorem derivative_exact (cell : ReferenceCell) (n : ℕ) {index : List ℕ} (hindex : index.length = cell.dim)
    {points : List (List ℝ)} (hpoints : ∀ x ∈ points, x.length = cell.dim) :
    ∃ rule : Rule ℝ, Rule.onReference cell (n + 1) = .ok rule ∧
      (rule.ExactForProducts cell n →
        Expansion.derivative cell n index points = .ok (derivativeTable cell n index points) ∧
        ∀ ds, ds.Perm (directions index) → along cell n points ds = .ok (derivativeTable cell n index points)) ∧
      (∀ ds, along cell n points ds = alongFrom rule cell n points ds) ∧
      (∀ other : Rule ℝ, other.ExactForProducts cell n → (∀ x ∈ other.points, x.length = cell.dim) →
        ∀ ds, ds.Perm (directions index) →
          alongFrom other cell n points ds = .ok (derivativeTable cell n index points)) ∧
      ∀ p i, degreeOf i (member cell n p) ≤ n ∧
        (degreeOf i (member cell n p) < index.getD i 0 → partialDerivative index (member cell n p) = 0) := by
  have hrule := Rule.onReference_eq (α := ℝ) (Nat.succ_ne_zero n) cell
  have hnodes := Rule.length_of_mem_cellFrom (Gauss.line (n + 1) : ℕ → List (ℝ × ℝ)) (.simple cell)
  refine ⟨_, hrule, fun hexact => ?_, along_eq hrule points,
    fun other hother hnodes' ds => alongFrom_perm hother hnodes' hindex hpoints,
    fun p i => ⟨degreeOf_member_le cell n p i, partialDerivative_eq_zero⟩⟩
  have hperm (ds : List ℕ) (hds : ds.Perm (directions index)) :
      along cell n points ds = .ok (derivativeTable cell n index points) :=
    (along_eq hrule points ds).trans (alongFrom_perm hexact hnodes hindex hpoints hds)
  exact ⟨hperm _ (.refl _), hperm⟩

end Expansion

section Bilinear

/-- The rules with the ends and the middle of the interval as points. -/
noncomputable def threePoints : ℕ → List (ℝ × ℝ)
  | 0 => [(-1, 1 / 3), (0, 4 / 3), (1, 1 / 3)]
  | 1 => [(-1, 2 / 3), (0, 4 / 3), (1, 0)]
  | _ => [(-1, 6 / 5), (0, 8 / 5), (1, -2 / 15)]

theorem integral_quartic (c₀ c₁ c₂ c₃ c₄ : ℝ) :
    (∫ x in (-1 : ℝ)..1, (c₀ + c₁ * x + c₂ * x ^ 2 + c₃ * x ^ 3 + c₄ * x ^ 4)) =
      2 * c₀ + 2 / 3 * c₂ + 2 / 5 * c₄ := by
  rw [intervalIntegral.integral_add, intervalIntegral.integral_add, intervalIntegral.integral_add,
    intervalIntegral.integral_add]
  · simp only [intervalIntegral.integral_const, intervalIntegral.integral_const_mul c₁ fun x => x,
      intervalIntegral.integral_const_mul, integral_id, integral_pow]
    norm_num
    ring
  all_goals exact Continuous.intervalIntegrable (by fun_prop) _ _

theorem lineExact_threePoints : LineExact threePoints 2 := by
  intro a ha P hP
  have hvalue (x : ℝ) : P.eval x = P.coeff 0 + P.coeff 1 * x + P.coeff 2 * x ^ 2 := by
    rw [Polynomial.eval_eq_sum_range' (Nat.lt_succ_of_le hP)]
    simp [Finset.sum_range_succ]
  -- Each integrand is a polynomial of degree at most four.
  have hintegrand (c₀ c₁ c₂ c₃ c₄ : ℝ) (h : ∀ x, (1 - x) ^ a * P.eval x =
      c₀ + c₁ * x + c₂ * x ^ 2 + c₃ * x ^ 3 + c₄ * x ^ 4) :
      (∫ x in (-1 : ℝ)..1, (1 - x) ^ a * P.eval x) = 2 * c₀ + 2 / 3 * c₂ + 2 / 5 * c₄ := by
    simp only [h, integral_quartic]
  interval_cases a
  · rw [hintegrand (P.coeff 0) (P.coeff 1) (P.coeff 2) 0 0 fun x => by rw [hvalue]; ring]
    simp only [threePoints, List.map_cons, List.map_nil, List.sum_cons, List.sum_nil, hvalue]
    ring
  · rw [hintegrand (P.coeff 0) (P.coeff 1 - P.coeff 0) (P.coeff 2 - P.coeff 1) (-P.coeff 2) 0 fun x => by
      rw [hvalue]; ring]
    simp only [threePoints, List.map_cons, List.map_nil, List.sum_cons, List.sum_nil, hvalue]
    ring
  · rw [hintegrand (P.coeff 0) (P.coeff 1 - 2 * P.coeff 0) (P.coeff 2 - 2 * P.coeff 1 + P.coeff 0)
      (P.coeff 1 - 2 * P.coeff 2) (P.coeff 2) fun x => by rw [hvalue]; ring]
    simp only [threePoints, List.map_cons, List.map_nil, List.sum_cons, List.sum_nil, hvalue]
    ring

theorem legendrePolynomial_zero {n : ℕ} (i : Fin n) : Expansion.legendrePolynomial 0 i = C √(1 / 2) := by
  refine MvPolynomial.funext fun x => ?_
  rw [Expansion.eval_legendrePolynomial, Expansion.legendre_zero, eval_C]

theorem legendrePolynomial_one {n : ℕ} (i : Fin n) :
    Expansion.legendrePolynomial 1 i = C √(3 / 2) * (C 2 * X i - 1) := by
  refine MvPolynomial.funext fun x => ?_
  have hroot : ((1 : ℕ) : ℝ) + 1 / 2 = 3 / 2 := by norm_num
  rw [Expansion.eval_legendrePolynomial, Expansion.legendre_eq, Gauss.value_one_eq, hroot]
  simp only [map_mul, map_sub, eval_C, eval_X, map_one]
  ring

/-- The mixed derivative of the bilinear functions on the square, by a rule that is exact for their products. -/
theorem derivative_exact_square : ∃ rule : Rule ℝ, rule.ExactForProducts .quadrilateral 1 ∧
    (∀ x ∈ rule.points, x.length = ReferenceCell.quadrilateral.dim) ∧
    [1, 1].length = ReferenceCell.quadrilateral.dim ∧
    (∀ x ∈ [[(1 / 4 : ℝ), 1 / 2]], x.length = ReferenceCell.quadrilateral.dim) ∧
    Expansion.alongFrom rule .quadrilateral 1 [[1 / 4, 1 / 2]] [1, 0] = .ok [[0, 0, 0, 6]] := by
  have hexact : (Rule.cellFrom threePoints (.simple .quadrilateral)).ExactForProducts .quadrilateral 1 :=
    (Rule.exact_cellFrom lineExact_threePoints (.simple .quadrilateral)).exactForProducts
  have hnodes := Rule.length_of_mem_cellFrom threePoints (.simple .quadrilateral)
  have hpoints : ∀ x ∈ [[(1 / 4 : ℝ), 1 / 2]], x.length = ReferenceCell.quadrilateral.dim :=
    List.forall_mem_singleton.mpr rfl
  have hindex : [1, 1].length = ReferenceCell.quadrilateral.dim := rfl
  obtain ⟨-, -, -, -, hother, -⟩ := Expansion.derivative_exact .quadrilateral 1 hindex hpoints
  refine ⟨_, hexact, hnodes, hindex, hpoints, (hother _ hexact hnodes [1, 0] (by decide)).trans ?_⟩
  let mixed (i j : ℕ) : ℝ := eval (Expansion.coordinates 2 [1 / 4, 1 / 2])
    (pderiv 1 (pderiv 0 (Expansion.quadrilateralPolynomial i j)))
  have htable : Expansion.derivativeTable .quadrilateral 1 [1, 1] [[1 / 4, 1 / 2]] =
      [[mixed 0 0, mixed 0 1, mixed 1 0, mixed 1 1]] := Expansion.derivativeTable_eq _ _ _ _
  have hsquare : √(3 / 2 : ℝ) * 2 * (√(3 / 2) * 2) = 6 := by
    rw [mul_mul_mul_comm, Real.mul_self_sqrt (by norm_num)]
    norm_num
  rw [htable]
  simp only [mixed, Expansion.quadrilateralPolynomial, legendrePolynomial_zero, legendrePolynomial_one]
  generalize √(3 / 2 : ℝ) = r at hsquare ⊢
  simp [hsquare]

end Bilinear
end Variational
