import Variational.Proofs.ExpansionOrthogonality

/-! Spaces of polynomials on the reference cells. A polynomial that is not zero does not vanish on the whole lattice of
its exponents, so a space has at most as many dimensions as there are exponents. These are as many as the members of
the expansion set, which are orthogonal: a set spans the polynomials of its degree. -/
namespace Variational

open MvPolynomial Expansion

namespace Expansion

theorem mem_triangleModes {i j n : ℕ} (h : i + j ≤ n) : (i, j) ∈ triangleModes n := by
  simp only [triangleModes, List.mem_flatMap, List.mem_map, List.mem_range]
  exact ⟨i + j, by omega, j, by omega, by simp⟩

theorem mem_tetrahedronModes {i j k n : ℕ} (h : i + j + k ≤ n) : (i, j, k) ∈ tetrahedronModes n := by
  simp only [tetrahedronModes, List.mem_flatMap, List.mem_map, List.mem_range]
  exact ⟨i + j + k, by omega, k, by omega, j, by omega, by simp⟩

end Expansion

namespace ReferenceCell

/-- The polynomials of a degree on a reference cell. -/
noncomputable def polynomialSpace (c : ReferenceCell) (n : ℕ) : Submodule ℝ (MvPolynomial (Fin c.dim) ℝ) :=
  restrictSupport ℝ {s | c.Admits n (List.ofFn s)}

variable {c : ReferenceCell} {n : ℕ}

theorem admits_ofFn_iff {s : Fin c.dim → ℕ} :
    c.Admits n (List.ofFn s) ↔ (c.isSimplex = true → ∑ i, s i ≤ n) ∧ ∀ i, s i ≤ n := by
  constructor
  · rintro ⟨-, htotal, heach⟩
    rw [List.sum_ofFn] at htotal
    exact ⟨htotal, List.forall_mem_ofFn_iff.mp heach⟩
  · rintro ⟨htotal, heach⟩
    rw [← List.sum_ofFn] at htotal
    exact ⟨List.length_ofFn, htotal, List.forall_mem_ofFn_iff.mpr heach⟩

theorem Admits.of_le {s t : Fin c.dim → ℕ} (ht : c.Admits n (List.ofFn t)) (h : ∀ i, s i ≤ t i) :
    c.Admits n (List.ofFn s) := by
  rw [admits_ofFn_iff] at ht ⊢
  exact ⟨fun hc => (Finset.sum_le_sum fun i _ => h i).trans (ht.1 hc), fun i => (h i).trans (ht.2 i)⟩

theorem mem_polynomialSpace {P : MvPolynomial (Fin c.dim) ℝ} :
    P ∈ c.polynomialSpace n ↔ ∀ s ∈ P.support, c.Admits n (List.ofFn s) := mem_restrictSupport_iff ℝ

/-- A polynomial with the values of a combination of monomials of the degree has the degree. -/
theorem mem_polynomialSpace_of_isPolynomial {P : MvPolynomial (Fin c.dim) ℝ}
    (h : (Cell.simple c).IsPolynomial n fun x => eval (coordinates c.dim x) P) : P ∈ c.polynomialSpace n := by
  obtain ⟨terms, hterms, hvalue⟩ := h
  let exponent (s : List ℕ) : Fin c.dim →₀ ℕ := Finsupp.equivFunOnFinite.symm fun i => s.getD i 0
  have hexponent {s : List ℕ} (hs : s.length = c.dim) : List.ofFn (exponent s) = s := by
    refine List.ext_getElem (by simp [hs]) fun i _ hi => ?_
    simp [exponent, hi]
  have hsum : P = (terms.map fun t => monomial (exponent t.2) t.1).sum := by
    refine MvPolynomial.funext fun x => ?_
    have hx : coordinates c.dim (List.ofFn x) = x := by
      funext i
      simp [coordinates]
    have hlength : (List.ofFn x).length = c.dim := List.length_ofFn
    have hcombination : eval (coordinates c.dim (List.ofFn x)) P = _ := hvalue (List.ofFn x) hlength
    rw [hx] at hcombination
    rw [hcombination, map_list_sum, Cell.combination, List.map_map]
    refine congrArg List.sum (List.map_congr_left fun t ht => ?_)
    have hmonomial := monomialAt_ofFn hlength (exponent t.2)
    rw [hexponent (hterms t ht).length, hx] at hmonomial
    rw [Function.comp_apply, eval_monomial, hmonomial, Finsupp.prod_fintype _ _ fun i => pow_zero _]
  rw [hsum]
  refine list_sum_mem (List.forall_mem_map.mpr fun t ht => ?_)
  refine (monomial_mem_restrictSupport ℝ).mpr (.inl ?_)
  change c.Admits n (List.ofFn (exponent t.2))
  rw [hexponent (hterms t ht).length]
  exact hterms t ht

/-- The exponents of the monomials of a degree. -/
def exponents : ReferenceCell → ℕ → List (List ℕ)
  | .point, _ => [[]]
  | .interval, n => (List.range (n + 1)).map fun i => [i]
  | .triangle, n => (triangleModes n).map fun m => [m.1, m.2]
  | .quadrilateral, n => (List.range (n + 1) ×ˢ List.range (n + 1)).map fun m => [m.1, m.2]
  | .tetrahedron, n => (tetrahedronModes n).map fun m => [m.1, m.2.1, m.2.2]
  | .hexahedron, n =>
    (List.range (n + 1) ×ˢ List.range (n + 1) ×ˢ List.range (n + 1)).map fun m => [m.1, m.2.1, m.2.2]

/-- There are as many monomials of a degree as members of the expansion set. -/
theorem length_exponents (c : ReferenceCell) (n : ℕ) : (c.exponents n).length = count c n := by
  cases c with
  | point => rfl
  | interval => simp [exponents, count]
  | triangle => rw [exponents, List.length_map, length_triangleModes]
  | quadrilateral => simp [exponents, count, List.length_product]
  | tetrahedron => rw [exponents, List.length_map, length_tetrahedronModes]
  | hexahedron => simp [exponents, count, List.length_product, Nat.mul_assoc]

theorem Admits.mem_exponents {s : List ℕ} (h : c.Admits n s) : s ∈ c.exponents n := by
  obtain ⟨hlength, htotal, heach⟩ := h
  cases c with
  | point =>
    obtain rfl := List.length_eq_zero_iff.mp hlength
    exact List.mem_singleton_self _
  | interval =>
    obtain ⟨i, rfl⟩ := List.length_eq_one_iff.mp hlength
    simpa [exponents, Nat.lt_succ_iff] using heach
  | triangle =>
    obtain ⟨i, j, rfl⟩ := List.length_eq_two.mp hlength
    exact List.mem_map.mpr ⟨(i, j), mem_triangleModes (by simpa using htotal rfl), rfl⟩
  | quadrilateral =>
    obtain ⟨i, j, rfl⟩ := List.length_eq_two.mp hlength
    simpa [exponents, Nat.lt_succ_iff] using heach
  | tetrahedron =>
    obtain ⟨i, j, k, rfl⟩ := List.length_eq_three.mp hlength
    exact List.mem_map.mpr ⟨(i, j, k), mem_tetrahedronModes (by simpa [Nat.add_assoc] using htotal rfl), rfl⟩
  | hexahedron =>
    obtain ⟨i, j, k, rfl⟩ := List.length_eq_three.mp hlength
    simpa [exponents, Nat.lt_succ_iff] using heach

end ReferenceCell

section Lattice

/-- A polynomial that is not zero does not vanish on the whole lattice below its exponents. -/
theorem exists_eval_ne_zero {σ : Type} [Fintype σ] {P : MvPolynomial σ ℝ} (hP : P ≠ 0) {n : ℕ} (hn : n ≠ 0) :
    ∃ t ∈ P.support, ∃ k : σ → ℕ, (∀ i, k i ≤ t i) ∧ eval (fun i => (k i : ℝ) / n) P ≠ 0 := by
  classical
  obtain ⟨t, ht, hdegree⟩ := Finset.exists_mem_eq_sup P.support (support_nonempty.mpr hP) fun s => s.sum fun _ e => e
  have hinj : Function.Injective fun k : ℕ => (k : ℝ) / n := fun k l h =>
    Nat.cast_injective ((div_left_inj' (Nat.cast_ne_zero.mpr hn)).mp h)
  obtain ⟨x, hx, hvalue⟩ := combinatorial_nullstellensatz_exists_eval_nonzero P t (mem_support_iff.mp ht) hdegree
    (fun i => (Finset.range (t i + 1)).image fun k : ℕ => (k : ℝ) / n) fun i => by
      rw [Finset.card_image_of_injective _ hinj, Finset.card_range]
      exact Nat.lt_succ_self _
  have hindex (i : σ) : ∃ k ≤ t i, (k : ℝ) / n = x i := by
    obtain ⟨k, hk, hki⟩ := Finset.mem_image.mp (hx i)
    exact ⟨k, Nat.le_of_lt_succ (Finset.mem_range.mp hk), hki⟩
  choose k hk hki using hindex
  exact ⟨t, ht, k, hk, by rwa [funext hki]⟩

end Lattice

namespace ReferenceCell

section Values

variable (c : ReferenceCell) (n : ℕ)

/-- The values of the polynomials of a degree on the lattice of the exponents. -/
noncomputable def latticeValues : c.polynomialSpace n →ₗ[ℝ] Fin (c.exponents n).length → ℝ :=
  LinearMap.pi fun i =>
    (aeval fun j : Fin c.dim => (((c.exponents n).get i).getD j 0 : ℝ)).toLinearMap ∘ₗ (c.polynomialSpace n).subtype

theorem latticeValues_injective : Function.Injective (c.latticeValues n) := by
  refine (injective_iff_map_eq_zero _).mpr fun P hP => ?_
  by_contra hne
  obtain ⟨t, ht, k, hk, hvalue⟩ := exists_eval_ne_zero (fun h => hne (Subtype.ext h)) one_ne_zero
  obtain ⟨i, hi⟩ := List.mem_iff_get.mp ((mem_polynomialSpace.mp P.2 t ht).of_le hk).mem_exponents
  have hpoint : (fun j : Fin c.dim => (((c.exponents n).get i).getD j 0 : ℝ)) = fun j => (k j : ℝ) / (1 : ℕ) := by
    funext j
    rw [hi]
    simp
  refine hvalue ?_
  rw [← hpoint]
  exact congrFun hP i

end Values

section Integral

variable (c : ReferenceCell)

theorem polynomialIntegral_eq_sum (P : MvPolynomial (Fin c.dim) ℝ) {T : Finset (Fin c.dim →₀ ℕ)} (hT : P.support ⊆ T) :
    c.polynomialIntegral P = ∑ s ∈ T, P.coeff s * c.monomialIntegral (List.ofFn s) :=
  Finset.sum_subset hT fun s _ hs => by rw [notMem_support_iff.mp hs, zero_mul]

/-- The integral over a reference cell is linear. -/
noncomputable def integralMap : MvPolynomial (Fin c.dim) ℝ →ₗ[ℝ] ℝ where
  toFun := c.polynomialIntegral
  map_add' P Q := by
    classical
    rw [c.polynomialIntegral_eq_sum (P + Q) support_add, c.polynomialIntegral_eq_sum P Finset.subset_union_left,
      c.polynomialIntegral_eq_sum Q Finset.subset_union_right, ← Finset.sum_add_distrib]
    exact Finset.sum_congr rfl fun s _ => by rw [coeff_add, add_mul]
  map_smul' a P := by
    rw [c.polynomialIntegral_eq_sum (a • P) support_smul, polynomialIntegral, RingHom.id_apply, smul_eq_mul,
      Finset.mul_sum]
    exact Finset.sum_congr rfl fun s _ => by rw [coeff_smul, smul_eq_mul, mul_assoc]

end Integral
end ReferenceCell

namespace Expansion

variable {cell : ReferenceCell} {n : ℕ}

/-- The coefficients of a combination of the members, by integration against them. -/
theorem integralMap_sum_mul_member (a : Fin (count cell n) → ℝ) (q : Fin (count cell n)) :
    cell.integralMap ((∑ p, a p • member cell n p) * member cell n q) = a q / 2 ^ cell.dim := by
  have hpair (p : Fin (count cell n)) : cell.integralMap (a p • member cell n p * member cell n q) =
      if p = q then a p / 2 ^ cell.dim else 0 := by
    have hmember : cell.integralMap (member cell n p * member cell n q) = _ := polynomialIntegral_member_mul cell n p q
    rw [smul_mul_assoc, map_smul, hmember, smul_eq_mul, mul_ite, mul_zero, mul_one_div]
  rw [Finset.sum_mul, map_sum, Finset.sum_congr rfl fun p _ => hpair p, Finset.sum_ite_eq' , if_pos (Finset.mem_univ q)]

theorem eq_zero_of_sum_smul_member {a : Fin (count cell n) → ℝ} (h : ∑ p, a p • member cell n p = 0) : a = 0 := by
  funext q
  have hcoefficient := integralMap_sum_mul_member a q
  rw [h, zero_mul, map_zero, eq_comm, div_eq_zero_iff] at hcoefficient
  exact hcoefficient.resolve_right (pow_ne_zero _ two_ne_zero)

theorem member_mem_members (cell : ReferenceCell) (n : ℕ) (p : Fin (count cell n)) :
    (fun x => jetAt x (member cell n p)) ∈ members cell n := by
  rw [members_eq]
  exact List.mem_map_of_mem (List.get_mem _ _)

theorem member_mem (cell : ReferenceCell) (n : ℕ) (p : Fin (count cell n)) :
    member cell n p ∈ cell.polynomialSpace n :=
  ReferenceCell.mem_polynomialSpace_of_isPolynomial (isPolynomial_of_mem_members (member_mem_members cell n p)).value

theorem pderiv_member_mem (cell : ReferenceCell) (n : ℕ) (p : Fin (count cell n)) (d : Fin cell.dim) :
    pderiv d (member cell n p) ∈ cell.polynomialSpace n := by
  have hslope := (isPolynomial_of_mem_members (member_mem_members cell n p)).slope d
  refine ReferenceCell.mem_polynomialSpace_of_isPolynomial (hslope.congr fun x _ => ?_)
  simp [jetAt]

theorem linearIndependent_member (cell : ReferenceCell) (n : ℕ) : LinearIndependent ℝ (member cell n) :=
  Fintype.linearIndependent_iff.mpr fun _ ha p => congrFun (eq_zero_of_sum_smul_member ha) p

/-- The members of a set span the polynomials of its degree. -/
theorem span_member (cell : ReferenceCell) (n : ℕ) :
    Submodule.span ℝ (Set.range (member cell n)) = cell.polynomialSpace n := by
  have hle : Submodule.span ℝ (Set.range (member cell n)) ≤ cell.polynomialSpace n :=
    Submodule.span_le.mpr (Set.range_subset_iff.mpr (member_mem cell n))
  have hfinite := Module.Finite.of_injective _ (cell.latticeValues_injective n)
  refine Submodule.eq_of_le_of_finrank_le hle ?_
  rw [finrank_span_eq_card (linearIndependent_member cell n), Fintype.card_fin]
  refine (LinearMap.finrank_le_finrank_of_injective (cell.latticeValues_injective n)).trans_eq ?_
  rw [Module.finrank_fin_fun, cell.length_exponents]

end Expansion
end Variational
