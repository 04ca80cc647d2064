import Variational.Proofs.LagrangeNodes
import Variational.Proofs.PolynomialSpaces
import Variational.Proofs.RegularSystems
import Variational.Element.Family

/-! Existence of the Lagrange elements. The nodes are the lattice points of the cell, on which no polynomial of the
degree vanishes but zero. The matrix of the values at the nodes is therefore invertible, its inverse is found, and there
is an element of every degree from one on. -/
namespace Variational

open MvPolynomial Expansion

namespace Lagrange

section Lattice

variable {cell : ReferenceCell} {degree : ℕ} (hdegree : 1 ≤ degree)

/-- The sums of coordinates that are zero or one at the vertices lie between these on an entity. -/
theorem marker_bounds {e : List ℕ × ℕ} (he : e ∈ entities cell) {p : List ℝ} (hp : Inside (vertices cell e.1) p)
    {js : List ℕ} (hjs : js ∈ markers cell) : 0 ≤ marker js p ∧ marker js p ≤ 1 := by
  obtain ⟨terms, hterms, hmixture, hp⟩ := hp
  have hvalues : ∀ t ∈ terms, 0 ≤ marker js t.2 ∧ marker js t.2 ≤ 1 := by
    intro t ht
    have hvertex : t.2 ∈ (corners cell e.1).map (·.map Int.cast) := by
      rw [← vertices_eq, ← hterms]
      exact List.mem_map_of_mem ht
    obtain ⟨v, hv, hcast⟩ := List.mem_map.mp hvertex
    rw [← hcast, marker_cast]
    rcases marker_corner cell e he js hjs v hv with h | h <;> simp [h]
  rw [marker_of_mixed hp]
  constructor
  · exact List.sum_nonneg (List.forall_mem_map.mpr fun t ht => mul_nonneg (hmixture.positive t ht).le (hvalues t ht).1)
  · refine (List.sum_le_sum fun t ht => ?_).trans_eq hmixture.total
    exact mul_le_of_le_one_right (hmixture.positive t ht).le (hvalues t ht).2

/-- Steps along axes with whole entries lead to multiples of the step size. -/
theorem exists_sum_steps (degree : ℕ) (index : List ℕ) (as : List (List ℤ)) (j : ℕ) :
    ∃ z : ℤ, ((List.zip (fractions degree index) (as.map (·.map (Int.cast : ℤ → ℝ)))).map fun s =>
      s.1 * s.2.getD j 0).sum = (z : ℝ) / degree := by
  induction index generalizing as with
  | nil => exact ⟨0, by simp [fractions]⟩
  | cons i index ih =>
    cases as with
    | nil => exact ⟨0, by simp⟩
    | cons a as =>
      obtain ⟨z, hz⟩ := ih as
      refine ⟨i * a.getD j 0 + z, ?_⟩
      rw [fractions, List.map_cons, List.map_cons, List.zip_cons_cons, List.map_cons, List.sum_cons, getD_map_cast]
      rw [fractions] at hz
      rw [hz]
      push_cast
      ring

include hdegree

/-- The coordinates of a node are multiples of the step size. -/
theorem exists_coordinate {e : List ℕ × ℕ} (he : e ∈ entities cell) {p : List ℝ}
    (hp : p ∈ lattice cell degree e.2 (vertices cell e.1)) (j : ℕ) : ∃ z : ℤ, p.getD j 0 = (z : ℝ) / degree := by
  obtain ⟨level, hlevel, hentity, hdim⟩ := mem_entities he
  rw [hdim, lattice_eq] at hp
  obtain ⟨index, -, rfl⟩ := List.mem_map.mp hp
  rw [getD_latticePoint (length_headD_vertices hlevel hentity) (length_of_mem_axes hlevel hentity), axes_vertices,
    vertices_eq, headD_map_map, getD_map_cast]
  obtain ⟨z, hz⟩ := exists_sum_steps degree index (axes cell level.2 (corners cell e.1)) j
  have hpos : (degree : ℝ) ≠ 0 := Nat.cast_ne_zero.mpr (Nat.one_le_iff_ne_zero.mp hdegree)
  refine ⟨((corners cell e.1).headD []).getD j 0 * degree + z, ?_⟩
  rw [hz]
  push_cast
  field_simp

theorem inside_of_mem_lattice {e : List ℕ × ℕ} (he : e ∈ entities cell) {p : List ℝ}
    (hp : p ∈ lattice cell degree e.2 (vertices cell e.1)) : Inside (vertices cell e.1) p := by
  obtain ⟨level, hlevel, hentity, hdim⟩ := mem_entities he
  rw [hdim] at hp
  exact inside_entity hlevel hentity hdegree hp

/-- As a node is inside the cell, its coordinates are not negative and at most one. -/
theorem exists_multiple {e : List ℕ × ℕ} (he : e ∈ entities cell) {p : List ℝ}
    (hp : p ∈ lattice cell degree e.2 (vertices cell e.1)) {j : ℕ} (hj : j < cell.dim) :
    ∃ k : ℕ, p.getD j 0 = (k : ℝ) / degree ∧ k ≤ degree := by
  obtain ⟨z, hz⟩ := exists_coordinate hdegree he hp j
  have hpos : (0 : ℝ) < degree := Nat.cast_pos.mpr hdegree
  have hmarker : [j] ∈ markers cell :=
    List.mem_append_left _ (List.mem_map.mpr ⟨j, List.mem_range.mpr hj, rfl⟩)
  have hbounds := marker_bounds he (inside_of_mem_lattice hdegree he hp) hmarker
  simp only [marker, List.map_cons, List.map_nil, List.sum_singleton, hz] at hbounds
  have hnonneg : (0 : ℝ) ≤ z := by simpa [hpos.ne'] using mul_nonneg hbounds.1 hpos.le
  obtain ⟨k, rfl⟩ := Int.eq_ofNat_of_zero_le (Int.cast_nonneg_iff.mp hnonneg)
  refine ⟨k, hz, ?_⟩
  exact_mod_cast (div_le_one hpos).mp hbounds.2

/-- The nodes are lattice points of the cell. -/
theorem exists_index {p : List ℝ} (hp : p ∈ (points cell degree : List (List ℝ))) :
    ∃ index, cell.Admits degree index ∧ p = fractions degree index := by
  have hlength := length_points cell degree p hp
  rw [points_eq] at hp
  obtain ⟨e, he, hp⟩ := List.mem_flatMap.mp hp
  have hmultiple : ∀ j < cell.dim, ∃ k : ℕ, p.getD j 0 = (k : ℝ) / degree ∧ k ≤ degree := fun j hj =>
    exists_multiple hdegree he hp hj
  choose! k hk hle using hmultiple
  have hindex : p = fractions degree ((List.range cell.dim).map k) := by
    refine List.ext_getElem (by simp [hlength]) fun j hj _ => ?_
    have hj' := hk j (hlength ▸ hj)
    rw [List.getD_eq_getElem _ _ hj] at hj'
    simpa [fractions] using hj'
  refine ⟨_, ⟨by simp, fun hcell => ?_, ?_⟩, hindex⟩
  · have hmarker : List.range cell.dim ∈ markers cell := by simp [markers, hcell]
    have htotal := (marker_bounds he (inside_of_mem_lattice hdegree he hp) hmarker).2
    have hpos : (0 : ℝ) < degree := Nat.cast_pos.mpr hdegree
    have hsum : marker (List.range cell.dim) p = p.sum := by
      refine congrArg List.sum (List.ext_getElem (by simp [hlength]) fun j _ hj => ?_)
      simp [hj]
    rw [hsum, hindex, sum_fractions, div_le_one hpos] at htotal
    exact_mod_cast htotal
  · exact List.forall_mem_map.mpr fun j hj => hle j (List.mem_range.mp hj)

/-- All lattice points of the cell are nodes, as there are no more of them. -/
theorem fractions_mem_points {index : List ℕ} (h : cell.Admits degree index) :
    fractions degree index ∈ (points cell degree : List (List ℝ)) := by
  have hsubset : (points cell degree : List (List ℝ)) ⊆ (cell.exponents degree).map (fractions degree) := by
    intro p hp
    obtain ⟨index, hindex, rfl⟩ := exists_index hdegree hp
    exact List.mem_map_of_mem hindex.mem_exponents
  have hlength : ((cell.exponents degree).map (fractions degree)).length ≤
      (points cell degree : List (List ℝ)).length := by
    rw [List.length_map, cell.length_exponents, length_points_eq cell hdegree]
  have hperm := (List.subperm_of_subset (nodup_points cell hdegree) hsubset).perm_of_length_le hlength
  exact hperm.mem_iff.mpr (List.mem_map_of_mem h.mem_exponents)

/-- A polynomial of the degree that vanishes at all nodes is zero. -/
theorem eq_zero_of_vanishes {P : MvPolynomial (Fin cell.dim) ℝ} (hP : P ∈ cell.polynomialSpace degree)
    (hvanish : ∀ p ∈ (points cell degree : List (List ℝ)), eval (coordinates cell.dim p) P = 0) : P = 0 := by
  by_contra hne
  obtain ⟨t, ht, k, hk, hvalue⟩ := exists_eval_ne_zero hne (Nat.one_le_iff_ne_zero.mp hdegree)
  have hadmits := (ReferenceCell.mem_polynomialSpace.mp hP t ht).of_le hk
  have hcoordinates : coordinates cell.dim (fractions degree (List.ofFn k)) = fun i => (k i : ℝ) / degree := by
    funext i
    simp [coordinates, fractions]
  have hzero := hvanish _ (fractions_mem_points hdegree hadmits)
  rw [hcoordinates] at hzero
  exact hvalue hzero

end Lattice

section Elements

open PolynomialElement

variable {cell : ReferenceCell} {degree : ℕ}

theorem valuesAt_eq {p : List ℝ} (hp : p.length = cell.dim) :
    valuesAt cell degree p = List.ofFn fun k => eval (coordinates cell.dim p) (member cell degree k) := by
  have hpoints : ∀ x ∈ [p], x.length = cell.dim := List.forall_mem_singleton.mpr hp
  have hvalues := (values_eq_ok_iff.mp (values_eq_eval hpoints degree)).2
  exact (List.singleton_inj.mp hvalues).symm

theorem eval_sum_smul_member {p : List ℝ} (hp : p.length = cell.dim) (a : Fin (count cell degree) → ℝ) :
    eval (coordinates cell.dim p) (∑ k, a k • member cell degree k) =
      ∑ k, a k * (valuesAt cell degree p).getD k 0 := by
  rw [map_sum, valuesAt_eq hp]
  refine Finset.sum_congr rfl fun k _ => ?_
  rw [smul_eval, List.getD_eq_getElem _ _ (by simp), List.getElem_ofFn]

/-- The dual matrix: the values at the nodes, by member of the expansion set and node. -/
noncomputable def nodeValues (cell : ReferenceCell) (degree : ℕ) : List (List ℝ) :=
  PolynomialElement.pairings cell degree (fullSpan cell degree) ((points cell degree).map Functional.at)

theorem toMatrix_nodeValues (hcount : (points cell degree : List (List ℝ)).length = count cell degree)
    (k i : Fin (count cell degree)) :
    LinearSystem.toMatrix (count cell degree) (nodeValues cell degree) k i =
      (valuesAt cell degree ((points cell degree).get (i.cast hcount.symm))).getD k 0 := by
  have hnode := length_points cell degree _ (List.get_mem (points cell degree) (i.cast hcount.symm))
  have hi : (i : ℕ) < (points cell degree : List (List ℝ)).length := by
    rw [hcount]
    exact i.isLt
  have hk : (k : ℕ) < (fullSpan cell degree : List (List (List ℝ))).length := by
    rw [length_fullSpan]
    exact k.isLt
  rw [← at_on_member k.isLt hnode.ge, List.getD_eq_getElem _ _ hk]
  simp [LinearSystem.toMatrix, LinearSystem.entry, nodeValues, PolynomialElement.pairings, List.getD_eq_getElem?_getD,
    hi, hk]

variable (hdegree : 1 ≤ degree)
include hdegree

/-- The only combination of the expansion set that vanishes at all nodes is zero. -/
theorem eq_zero_of_combination_vanishes {a : Fin (count cell degree) → ℝ}
    (h : ∀ p ∈ points cell degree, ∑ k, a k * (valuesAt cell degree p).getD k 0 = 0) : a = 0 := by
  refine eq_zero_of_sum_smul_member (eq_zero_of_vanishes hdegree ?_ fun p hp => ?_)
  · exact Submodule.sum_mem _ fun k _ => Submodule.smul_mem _ _ (member_mem cell degree k)
  · rw [eval_sum_smul_member (length_points cell degree p hp), h p hp]

theorem square_nodeValues : LinearSystem.Square (count cell degree) (nodeValues cell degree) := by
  refine ⟨(List.length_map _).trans (length_fullSpan cell degree), List.forall_mem_map.mpr fun member _ => ?_⟩
  rw [List.length_map, List.length_map, length_points_eq cell hdegree]

theorem det_nodeValues : (LinearSystem.toMatrix (count cell degree) (nodeValues cell degree)).det ≠ 0 := by
  intro hdet
  obtain ⟨a, hne, ha⟩ := Matrix.exists_vecMul_eq_zero_iff.mpr hdet
  have hcount := length_points_eq cell hdegree
  refine hne (eq_zero_of_combination_vanishes hdegree fun p hp => ?_)
  obtain ⟨i, rfl⟩ := List.get_of_mem hp
  have hcolumn := congrFun ha (i.cast hcount)
  simp only [Matrix.vecMul, dotProduct, toMatrix_nodeValues hcount] at hcolumn
  exact hcolumn

theorem exists_ofPoints (family : String) (entityDofs : EntityDofs) :
    ∃ e : PolynomialElement ℝ, ofPoints family cell degree (points cell degree) entityDofs = .ok e := by
  obtain ⟨inverse, hinverse⟩ :=
    (LinearSystem.exists_inverse_iff (square_nodeValues hdegree)).mpr (det_nodeValues hdegree)
  rw [nodeValues] at hinverse
  rw [ofPoints_eq family entityDofs (length_points_eq cell hdegree) fun p hp => (length_points cell degree p hp).ge,
    hinverse]
  exact ⟨_, rfl⟩

variable (hcell : cell ≠ .point)
include hcell

/-- There are Lagrange elements of every degree from one on, on every cell but the point. The only combination of the
expansion set that vanishes at all nodes is zero, so the matrix of the values at the nodes has an inverse, elimination
finds it, and the family is made whether its dofs are shared between cells or not. -/
theorem exists_elements :
    (∀ a : Fin (count cell degree) → ℝ,
      (∀ p ∈ points cell degree, ∑ k, a k * (valuesAt cell degree p).getD k 0 = 0) → a = 0) ∧
    IsUnit (LinearSystem.toMatrix (count cell degree) (nodeValues cell degree)) ∧
    (∃ inverse, LinearSystem.inverse (nodeValues cell degree) = some inverse) ∧
    (∃ e : PolynomialElement ℝ, ofFamily "Lagrange" cell degree = .ok e) ∧
    ∃ e : PolynomialElement ℝ, ofFamily "Discontinuous Lagrange" cell degree = .ok e := by
  have hpos : degree ≠ 0 := Nat.one_le_iff_ne_zero.mp hdegree
  refine ⟨fun a => eq_zero_of_combination_vanishes hdegree, ?_, ?_, ?_, ?_⟩
  · exact (Matrix.isUnit_iff_isUnit_det _).mpr (det_nodeValues hdegree).isUnit
  · exact (LinearSystem.exists_inverse_iff (square_nodeValues hdegree)).mpr (det_nodeValues hdegree)
  · simp only [ofFamily, if_neg hcell, continuous, if_neg hpos]
    exact exists_ofPoints hdegree _ _
  · simp only [ofFamily, if_neg hcell, discontinuous, if_neg hpos]
    exact exists_ofPoints hdegree _ _

end Elements

/-- On the hexahedron of degree two there are twenty-seven nodes, and an element. -/
theorem exists_elements_hexahedron : 1 ≤ 2 ∧ ReferenceCell.hexahedron ≠ .point ∧ count .hexahedron 2 = 27 ∧
    (∃ e : PolynomialElement ℝ, PolynomialElement.ofFamily "Lagrange" .hexahedron 2 = .ok e) ∧
    ∃ e : PolynomialElement ℝ, PolynomialElement.ofFamily "Discontinuous Lagrange" .hexahedron 2 = .ok e := by
  have hdegree : 1 ≤ 2 := by decide
  have hcell : ReferenceCell.hexahedron ≠ .point := by decide
  obtain ⟨-, -, -, hcontinuous, hdiscontinuous⟩ := exists_elements hdegree hcell
  exact ⟨hdegree, hcell, rfl, hcontinuous, hdiscontinuous⟩

end Lagrange
end Variational
