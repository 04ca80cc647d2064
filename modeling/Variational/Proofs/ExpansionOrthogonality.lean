import Variational.Proofs.ExpansionDerivatives
import Variational.Proofs.JacobiOrthogonality

/-! Orthogonality of the expansion sets. The integral of a polynomial over a reference cell is given by the integrals of
the monomials. In collapsed coordinates a member of a set is a product of functions of one coordinate each, and these
are orthogonal for the weights that the collapse brings in. -/
namespace Variational

section Monomials

/-- One factor of a member of the Bernstein basis goes over to the other. -/
theorem integral_bernstein_succ (i j : ℕ) :
    (j + 1) * weightedIntegral 0 (bernstein (i + 1) j) = (i + 1) * weightedIntegral 0 (bernstein i (j + 1)) := by
  have hderiv (t : ℝ) : HasDerivAt (bernstein (i + 1) (j + 1))
      ((j + 1) * bernstein (i + 1) j t - (i + 1) * bernstein i (j + 1) t) t := by
    have hfirst := ((hasDerivAt_id t).const_sub 1).pow (i + 1)
    have hsecond := (hasDerivAt_id t).pow (j + 1)
    refine (hfirst.mul hsecond).congr_deriv ?_
    simp [bernstein]
    ring
  have hintegrable (c : ℝ) (i j : ℕ) :
      IntervalIntegrable (fun t => c * bernstein i j t) MeasureTheory.volume 0 1 :=
    (continuous_const.mul (continuous_bernstein i j)).intervalIntegrable 0 1
  have hends := intervalIntegral.integral_eq_sub_of_hasDerivAt (fun t _ => hderiv t)
    ((hintegrable (j + 1) (i + 1) j).sub (hintegrable (i + 1) i (j + 1)))
  rw [intervalIntegral.integral_sub (hintegrable _ _ _) (hintegrable _ _ _), intervalIntegral.integral_const_mul,
    intervalIntegral.integral_const_mul] at hends
  simp only [weightedIntegral, pow_zero, one_mul]
  have hboundary : bernstein (i + 1) (j + 1) 1 - bernstein (i + 1) (j + 1) 0 = 0 := by simp [bernstein]
  exact sub_eq_zero.mp (hends.trans hboundary)

theorem integral_power (j : ℕ) : weightedIntegral 0 (bernstein 0 j) = 1 / ((j : ℝ) + 1) := by
  simp [weightedIntegral, bernstein]

theorem integral_bernstein (i j : ℕ) :
    weightedIntegral 0 (bernstein i j) = i.factorial * j.factorial / (i + j + 1).factorial := by
  induction i generalizing j with
  | zero =>
    rw [integral_power, Nat.zero_add, Nat.factorial_succ, Nat.factorial_zero]
    push_cast
    field_simp
  | succ i ih =>
    have hstep := integral_bernstein_succ i j
    rw [ih, show i + (j + 1) + 1 = i + 1 + j + 1 by omega, Nat.factorial_succ j] at hstep
    rw [Nat.factorial_succ i]
    push_cast at hstep ⊢
    field_simp at hstep ⊢
    linarith

/-- The integral of a member of the Bernstein basis against a weight. -/
theorem weightedIntegral_bernstein (a i j : ℕ) :
    weightedIntegral a (bernstein i j) = (a + i).factorial * j.factorial / (a + i + j + 1).factorial := by
  rw [← integral_bernstein]
  simp only [weightedIntegral, bernstein, pow_zero, one_mul, pow_add, mul_assoc]

/-- The integral of the monomial with the given exponents over a reference cell: on a simplex the product of the
factorials over the factorial of degree and dimension together, on a box one factor for each variable. -/
noncomputable def ReferenceCell.monomialIntegral (c : ReferenceCell) (s : List ℕ) : ℝ :=
  if c.isSimplex then (s.map fun k => (k.factorial : ℝ)).prod / (s.sum + c.dim).factorial
  else (s.map fun k => 1 / ((k : ℝ) + 1)).prod

theorem ReferenceCell.moment_weightedIntegral {c : ReferenceCell} {s : List ℕ} (hs : s.length = c.dim) :
    c.moment weightedIntegral s = c.monomialIntegral s := by
  cases c with
  | point =>
    obtain rfl := List.length_eq_zero_iff.mp hs
    simp [moment, monomialIntegral, isSimplex, dim]
  | interval =>
    obtain ⟨i, rfl⟩ := List.length_eq_one_iff.mp hs
    simp [moment, monomialIntegral, isSimplex, dim, weightedIntegral_bernstein]
  | triangle =>
    obtain ⟨i, j, rfl⟩ := List.length_eq_two.mp hs
    have hmonomial : monomialIntegral .triangle [i, j] = i.factorial * j.factorial / (i + j + 2).factorial := by
      simp [monomialIntegral, isSimplex, dim]
    simp only [moment, List.getD_cons_zero, List.getD_cons_succ, weightedIntegral_bernstein, Nat.zero_add, hmonomial]
    rw [show 1 + i = i + 1 by omega, show i + 1 + j + 1 = i + j + 2 by omega, Nat.factorial_zero]
    push_cast
    field_simp
  | quadrilateral =>
    obtain ⟨i, j, rfl⟩ := List.length_eq_two.mp hs
    simp [moment, monomialIntegral, isSimplex, integral_power]
  | tetrahedron =>
    obtain ⟨i, j, k, rfl⟩ := List.length_eq_three.mp hs
    have hmonomial : monomialIntegral .tetrahedron [i, j, k] =
        i.factorial * j.factorial * k.factorial / (i + j + k + 3).factorial := by
      simp [monomialIntegral, isSimplex, dim, mul_assoc, Nat.add_assoc]
    simp only [moment, List.getD_cons_zero, List.getD_cons_succ, weightedIntegral_bernstein, Nat.zero_add, hmonomial]
    rw [show 1 + i = i + 1 by omega, show i + 1 + j + 1 = 2 + (i + j) by omega,
      show 2 + (i + j) + k + 1 = i + j + k + 3 by omega, Nat.factorial_zero]
    push_cast
    field_simp
  | hexahedron =>
    obtain ⟨i, j, k, rfl⟩ := List.length_eq_three.mp hs
    simp [moment, monomialIntegral, isSimplex, integral_power, mul_assoc]

end Monomials

section Polynomials

open MvPolynomial Expansion

/-- The integral of a polynomial over a reference cell, from those of its monomials. -/
noncomputable def ReferenceCell.polynomialIntegral (c : ReferenceCell) (P : MvPolynomial (Fin c.dim) ℝ) : ℝ :=
  ∑ s ∈ P.support, P.coeff s * c.monomialIntegral (List.ofFn s)

theorem monomialAt_ofFn {n : ℕ} {x : List ℝ} (hx : x.length = n) (s : Fin n → ℕ) :
    monomialAt (List.ofFn s) x = ∏ i, coordinates n x i ^ s i := by
  have hzip : List.zipWith (· ^ ·) x (List.ofFn s) = List.ofFn fun i => coordinates n x i ^ s i := by
    refine List.ext_getElem (by simp [hx]) fun i hi _ => ?_
    have hlt : i < x.length := by
      rw [List.length_zipWith] at hi
      exact hi.trans_le (Nat.min_le_left _ _)
    simp [coordinates, hlt]
  rw [monomialAt, hzip, List.prod_ofFn]

theorem ReferenceCell.integral_eval (c : ReferenceCell) (P : MvPolynomial (Fin c.dim) ℝ) :
    (c.integral fun x => eval (coordinates c.dim x) P) = c.polynomialIntegral P := by
  let terms := P.support.toList.map fun s => (P.coeff s, List.ofFn s)
  have hlength : ∀ t ∈ terms, t.2.length = c.dim := List.forall_mem_map.mpr fun s _ => List.length_ofFn
  have hvalue (x : List ℝ) (hx : x.length = c.dim) : eval (coordinates c.dim x) P = Cell.combination terms x := by
    rw [eval_eq', Cell.combination, List.map_map, ← Finset.sum_map_toList]
    refine congrArg List.sum (List.map_congr_left fun s _ => ?_)
    rw [Function.comp_apply, monomialAt_ofFn hx]
  rw [integral_eq_collapsed, collapsed_congr _ hvalue, collapsed_combination weightedIntegral_respectsSums hlength,
    polynomialIntegral, List.map_map, ← Finset.sum_map_toList]
  refine congrArg List.sum (List.map_congr_left fun s _ => ?_)
  rw [Function.comp_apply, moment_weightedIntegral List.length_ofFn]

end Polynomials

section Separation

variable (a b c : ℕ) (f g h : ℝ → ℝ)

/-- Integrals of products, one variable after the other. -/
theorem weightedIntegral_separate {F : ℝ → ℝ → ℝ} (hF : ∀ x y, F x y = f x * g y) :
    (weightedIntegral a fun x => weightedIntegral b fun y => F x y) = weightedIntegral a f * weightedIntegral b g := by
  simp only [hF, weightedIntegral_const_mul, weightedIntegral_mul_const]

theorem weightedIntegral_separate_three {F : ℝ → ℝ → ℝ → ℝ} (hF : ∀ x y z, F x y z = f x * g y * h z) :
    (weightedIntegral a fun x => weightedIntegral b fun y => weightedIntegral c fun z => F x y z) =
      weightedIntegral a f * weightedIntegral b g * weightedIntegral c h := by
  simp only [hF, weightedIntegral_const_mul, weightedIntegral_mul_const]

end Separation

namespace Jacobi

/-- The homogenised polynomials, at a multiple of the second variable. -/
theorem homogeneousPair_mul (a u s : ℝ) (k : ℕ) :
    (homogeneousPair a (u * s) s k).1.value = s ^ k * (pair a 0 (u - 1) k).1 ∧
      (homogeneousPair a (u * s) s k).2.value = s ^ (k + 1) * (pair a 0 (u - 1) k).2 := by
  induction k with
  | zero =>
    constructor
    · simp [homogeneousPair, pair]
    · simp only [homogeneousPair, pair, Scalar.numeral_zero]
      ring
  | succ k ih =>
    refine ⟨ih.2, ?_⟩
    simp only [homogeneousPair, pair, ih.1, ih.2, Scalar.numeral_zero]
    ring

theorem homogeneous_mul (a u s : ℝ) (k : ℕ) : (homogeneous a k (u * s) s).value = s ^ k * value a 0 k (u - 1) :=
  (homogeneousPair_mul a u s k).1

/-- The part of a member that depends on one of the collapsed coordinates: `a` of the directions collapse on it, and the
coordinates before it have the degree `m`. -/
noncomputable def factor (a m k : ℕ) (t : ℝ) : ℝ :=
  (1 - t) ^ m * value ((2 * m + a : ℕ) : ℝ) 0 k (2 * t - 1) * √((2 * k + 2 * m + a + 1) / 2)

theorem weightedIntegral_factor_mul (a m j k : ℕ) :
    (weightedIntegral a fun t => factor a m j t * factor a m k t) = if j = k then 1 / 2 else 0 := by
  have hweight (t : ℝ) : (1 - t) ^ a * (factor a m j t * factor a m k t) =
      (1 - t) ^ (2 * m + a) *
        (value ((2 * m + a : ℕ) : ℝ) 0 j (2 * t - 1) * value ((2 * m + a : ℕ) : ℝ) 0 k (2 * t - 1)) *
        (√((2 * j + 2 * m + a + 1) / 2) * √((2 * k + 2 * m + a + 1) / 2)) := by
    rw [factor, factor]
    ring
  have horthogonal := weightedIntegral_value_mul (2 * m + a) j k
  simp only [weightedIntegral, hweight, intervalIntegral.integral_mul_const] at horthogonal ⊢
  rw [horthogonal]
  split_ifs with h
  · subst h
    rw [Real.mul_self_sqrt (by positivity)]
    push_cast
    field_simp
    ring
  · rw [zero_mul]

end Jacobi

namespace Expansion

theorem legendre_eq_factor (k : ℕ) (x : ℝ) : (legendre k x).1 = Jacobi.factor 0 0 k x := by
  have hnorm : (k : ℝ) + 1 / 2 = (2 * k + 2 * (0 : ℕ) + (0 : ℕ) + 1) / 2 := by
    push_cast
    ring
  rw [legendre_eq, Jacobi.factor, pow_zero, one_mul, hnorm, Nat.mul_zero, Nat.cast_zero]

theorem triangleMember_eq_factor (i j : ℕ) (x y : ℝ) :
    (triangleMember i j (x * (1 - y)) y).value = Jacobi.factor 0 0 i x * Jacobi.factor 1 i j y := by
  have hcollapse := Jacobi.homogeneous_mul 0 (2 * x) (1 - y) i
  rw [mul_assoc] at hcollapse
  have hnorm : √(((i : ℝ) + 1 / 2) * (i + j + 1)) =
      √((2 * i + 2 * (0 : ℕ) + (0 : ℕ) + 1) / 2) * √((2 * j + 2 * i + (1 : ℕ) + 1) / 2) := by
    rw [← Real.sqrt_mul (by positivity)]
    push_cast
    ring_nf
  rw [triangleMember_eq, Jacobi.factor, Jacobi.factor, hnorm]
  dsimp only
  rw [hcollapse]
  push_cast
  ring

theorem tetrahedronMember_eq_factor (i j k : ℕ) (x y z : ℝ) :
    (tetrahedronMember i j k (x * (1 - y) * (1 - z)) (y * (1 - z)) z).value =
      Jacobi.factor 0 0 i x * Jacobi.factor 1 i j y * Jacobi.factor 2 (i + j) k z := by
  have hfirst := Jacobi.homogeneous_mul 0 (2 * x) ((1 - y) * (1 - z)) i
  have hsecond := Jacobi.homogeneous_mul (2 * i + 1) (2 * y) (1 - z) j
  have hnorm : √(((i : ℝ) + 1 / 2) * (i + j + 1) * (i + j + k + 3 / 2)) =
      √((2 * i + 2 * (0 : ℕ) + (0 : ℕ) + 1) / 2) * √((2 * j + 2 * i + (1 : ℕ) + 1) / 2) *
        √((2 * k + 2 * (i + j : ℕ) + (2 : ℕ) + 1) / 2) := by
    rw [← Real.sqrt_mul (by positivity), ← Real.sqrt_mul (by positivity)]
    push_cast
    ring_nf
  rw [tetrahedronMember_eq, Jacobi.factor, Jacobi.factor, Jacobi.factor, hnorm]
  dsimp only
  rw [show 2 * (x * (1 - y) * (1 - z)) = 2 * x * ((1 - y) * (1 - z)) by ring,
    show 1 - y * (1 - z) - z = (1 - y) * (1 - z) by ring, ← mul_assoc 2 y, hfirst, hsecond, mul_pow, pow_add]
  push_cast
  ring

section Pairings

open ReferenceCell

variable (i j k i' j' k' : ℕ)

theorem integral_interval :
    (integral .interval fun x => (legendre i (x.getD 0 0)).1 * (legendre i' (x.getD 0 0)).1) =
      if i = i' then 1 / 2 ^ 1 else 0 := by
  rw [integral_eq_collapsed, pow_one]
  simp only [collapsed, List.getD_cons_zero, legendre_eq_factor, Jacobi.weightedIntegral_factor_mul]

theorem integral_quadrilateral :
    (integral .quadrilateral fun x => (legendre i (x.getD 0 0)).1 * (legendre j (x.getD 1 0)).1 *
      ((legendre i' (x.getD 0 0)).1 * (legendre j' (x.getD 1 0)).1)) = if (i, j) = (i', j') then 1 / 2 ^ 2 else 0 := by
  rw [integral_eq_collapsed]
  simp only [collapsed, List.getD_cons_zero, List.getD_cons_succ, legendre_eq_factor]
  rw [weightedIntegral_separate 0 0 (fun x => Jacobi.factor 0 0 i x * Jacobi.factor 0 0 i' x)
    (fun y => Jacobi.factor 0 0 j y * Jacobi.factor 0 0 j' y) fun x y => mul_mul_mul_comm _ _ _ _,
    Jacobi.weightedIntegral_factor_mul, Jacobi.weightedIntegral_factor_mul, ite_zero_mul_ite_zero]
  simp only [Prod.mk.injEq]
  norm_num

theorem integral_triangle :
    (integral .triangle fun x => (triangleMember i j (x.getD 0 0) (x.getD 1 0)).value *
      (triangleMember i' j' (x.getD 0 0) (x.getD 1 0)).value) = if (i, j) = (i', j') then 1 / 2 ^ 2 else 0 := by
  rw [integral_eq_collapsed]
  simp only [collapsed, List.getD_cons_zero, List.getD_cons_succ, triangleMember_eq_factor]
  rw [weightedIntegral_separate 1 0 (fun y => Jacobi.factor 1 i j y * Jacobi.factor 1 i' j' y)
    (fun x => Jacobi.factor 0 0 i x * Jacobi.factor 0 0 i' x) fun y x => by ring, Jacobi.weightedIntegral_factor_mul]
  obtain rfl | hi := eq_or_ne i i'
  · rw [Jacobi.weightedIntegral_factor_mul, ite_zero_mul_ite_zero]
    simp only [Prod.mk.injEq, and_comm]
    norm_num
  · rw [if_neg hi, mul_zero, if_neg fun h => hi (Prod.mk.inj h).1]

theorem integral_tetrahedron :
    (integral .tetrahedron fun x => (tetrahedronMember i j k (x.getD 0 0) (x.getD 1 0) (x.getD 2 0)).value *
      (tetrahedronMember i' j' k' (x.getD 0 0) (x.getD 1 0) (x.getD 2 0)).value) =
      if (i, j, k) = (i', j', k') then 1 / 2 ^ 3 else 0 := by
  rw [integral_eq_collapsed]
  simp only [collapsed, List.getD_cons_zero, List.getD_cons_succ, tetrahedronMember_eq_factor]
  rw [weightedIntegral_separate_three 2 1 0 (fun z => Jacobi.factor 2 (i + j) k z * Jacobi.factor 2 (i' + j') k' z)
    (fun y => Jacobi.factor 1 i j y * Jacobi.factor 1 i' j' y)
    (fun x => Jacobi.factor 0 0 i x * Jacobi.factor 0 0 i' x) fun z y x => by ring, Jacobi.weightedIntegral_factor_mul]
  obtain rfl | hi := eq_or_ne i i'
  · rw [Jacobi.weightedIntegral_factor_mul]
    obtain rfl | hj := eq_or_ne j j'
    · rw [Jacobi.weightedIntegral_factor_mul, ite_zero_mul_ite_zero, ite_zero_mul_ite_zero]
      simp only [Prod.mk.injEq, true_and, and_true]
      norm_num
    · simp [hj]
  · simp [hi]

theorem integral_hexahedron :
    (integral .hexahedron fun x =>
      (legendre i (x.getD 0 0)).1 * (legendre j (x.getD 1 0)).1 * (legendre k (x.getD 2 0)).1 *
      ((legendre i' (x.getD 0 0)).1 * (legendre j' (x.getD 1 0)).1 * (legendre k' (x.getD 2 0)).1)) =
      if (i, j, k) = (i', j', k') then 1 / 2 ^ 3 else 0 := by
  rw [integral_eq_collapsed]
  simp only [collapsed, List.getD_cons_zero, List.getD_cons_succ, legendre_eq_factor]
  rw [weightedIntegral_separate_three 0 0 0 (fun x => Jacobi.factor 0 0 i x * Jacobi.factor 0 0 i' x)
    (fun y => Jacobi.factor 0 0 j y * Jacobi.factor 0 0 j' y)
    (fun z => Jacobi.factor 0 0 k z * Jacobi.factor 0 0 k' z) fun x y z => by ring]
  simp only [Jacobi.weightedIntegral_factor_mul, ite_zero_mul_ite_zero, Prod.mk.injEq, and_assoc]
  norm_num

end Pairings

section Sets

theorem nodup_triangleModes (n : ℕ) : (triangleModes n).Nodup := by
  refine List.nodup_flatMap.mpr ⟨fun k _ => ?_, List.nodup_range.imp fun hkl => ?_⟩
  · exact List.nodup_range.map fun j j' h => (Prod.mk.inj h).2
  · simp only [Function.onFun, List.disjoint_left, List.mem_map, List.mem_range]
    rintro m ⟨j, hj, rfl⟩ ⟨j', hj', h⟩
    simp only [Prod.mk.injEq] at h
    omega

theorem nodup_tetrahedronModes (n : ℕ) : (tetrahedronModes n).Nodup := by
  refine List.nodup_flatMap.mpr ⟨fun k _ => List.nodup_flatMap.mpr ⟨fun l _ => ?_, List.nodup_range.imp fun hlm => ?_⟩,
    List.nodup_range.imp fun hkl => ?_⟩
  · exact List.nodup_range.map fun j j' h => (Prod.mk.inj (Prod.mk.inj h).2).1
  · simp only [Function.onFun, List.disjoint_left, List.mem_map, List.mem_range]
    rintro m ⟨j, hj, rfl⟩ ⟨j', hj', h⟩
    simp only [Prod.mk.injEq] at h
    omega
  · simp only [Function.onFun, List.disjoint_left, List.mem_flatMap, List.mem_map, List.mem_range]
    rintro m ⟨l, hl, j, hj, rfl⟩ ⟨l', hl', j', hj', h⟩
    simp only [Prod.mk.injEq] at h
    omega

/-- The functions are orthogonal on the cell, with the scaling of the expansion sets. -/
def Orthogonal (cell : ReferenceCell) (Js : List (List ℝ → Jet ℝ)) : Prop :=
  ∀ i j : Fin Js.length, (cell.integral fun x => (Js.get i x).value * (Js.get j x).value) =
    if i = j then 1 / 2 ^ cell.dim else 0

theorem Orthogonal.of_modes {ι : Type} [DecidableEq ι] {cell : ReferenceCell} {modes : List ι} (hmodes : modes.Nodup)
    {J : ι → List ℝ → Jet ℝ} (h : ∀ m m', (cell.integral fun x => (J m x).value * (J m' x).value) =
      if m = m' then 1 / 2 ^ cell.dim else 0) : Orthogonal cell (modes.map J) := by
  intro i j
  simp only [List.get_eq_getElem, List.getElem_map, h, hmodes.getElem_inj_iff, Fin.ext_iff]

theorem orthogonal_members (cell : ReferenceCell) (n : ℕ) : Orthogonal cell (members cell n) := by
  have hrange : (List.range (n + 1)).Nodup := List.nodup_range
  cases cell with
  | point =>
    change Orthogonal .point ([()].map fun _ _ => ⟨1, []⟩)
    refine .of_modes (List.nodup_singleton ()) fun _ _ => ?_
    simp [ReferenceCell.integral, ReferenceCell.dim]
  | interval => exact .of_modes hrange integral_interval
  | triangle => exact .of_modes (nodup_triangleModes n) fun m m' => integral_triangle m.1 m.2 m'.1 m'.2
  | quadrilateral =>
    rw [members_quadrilateral]
    exact .of_modes (hrange.product hrange) fun m m' => integral_quadrilateral m.1 m.2 m'.1 m'.2
  | tetrahedron =>
    exact .of_modes (nodup_tetrahedronModes n) fun m m' => integral_tetrahedron m.1 m.2.1 m.2.2 m'.1 m'.2.1 m'.2.2
  | hexahedron =>
    rw [members_hexahedron]
    exact .of_modes (hrange.product (hrange.product hrange)) fun m m' =>
      integral_hexahedron m.1 m.2.1 m.2.2 m'.1 m'.2.1 m'.2.2

theorem values_eq_eval {cell : ReferenceCell} {points : List (List ℝ)} (h : ∀ x ∈ points, x.length = cell.dim) (n : ℕ) :
    values cell n points = .ok (points.map fun x => List.ofFn fun p =>
      MvPolynomial.eval (coordinates cell.dim x) (member cell n p)) := by
  rw [values, tabulate_eq_jetAt h, Result.ok_bind]
  simp only [List.map_map, Function.comp_def, List.map_ofFn, jetAt]
  rfl

theorem polynomialIntegral_member_mul (cell : ReferenceCell) (n : ℕ) (p q : Fin (count cell n)) :
    cell.polynomialIntegral (member cell n p * member cell n q) = if p = q then 1 / 2 ^ cell.dim else 0 := by
  have hlength : count cell n = ((polynomials cell n).map fun P x => jetAt x P).length := by
    rw [List.length_map, length_polynomials]
  have hmembers := orthogonal_members cell n
  rw [members_eq] at hmembers
  have horthogonal := hmembers (p.cast hlength) (q.cast hlength)
  simp only [List.get_eq_getElem, List.getElem_map, Fin.cast_inj] at horthogonal
  rw [← ReferenceCell.integral_eval, ← horthogonal]
  simp only [map_mul]
  rfl

/-- The members of a set are polynomials in the coordinates of the point. Integrated over the cell, the product of two
of them gives `1 / 2 ^ dim` if they are the same, and otherwise zero. -/
theorem values_orthogonal (cell : ReferenceCell) (n : ℕ) :
    ∃ P : Fin (count cell n) → MvPolynomial (Fin cell.dim) ℝ,
      (∀ points : List (List ℝ), (∀ x ∈ points, x.length = cell.dim) →
        values cell n points = .ok (points.map fun x => List.ofFn fun p =>
          MvPolynomial.eval (coordinates cell.dim x) (P p))) ∧
      ∀ p q, cell.polynomialIntegral (P p * P q) = if p = q then 1 / 2 ^ cell.dim else 0 :=
  ⟨member cell n, fun _ h => values_eq_eval h n, polynomialIntegral_member_mul cell n⟩

theorem values_orthogonal_triangle :
    ∃ P : Fin 3 → MvPolynomial (Fin 2) ℝ,
      values .triangle 1 [[1 / 4, 1 / 2]] =
        .ok [List.ofFn fun p => MvPolynomial.eval (coordinates 2 [1 / 4, 1 / 2]) (P p)] ∧
      ∀ p q, ReferenceCell.polynomialIntegral .triangle (P p * P q) = if p = q then 1 / 2 ^ 2 else 0 := by
  obtain ⟨P, hvalues, hintegral⟩ := values_orthogonal .triangle 1
  exact ⟨P, hvalues [[1 / 4, 1 / 2]] (by simp [ReferenceCell.dim]), hintegral⟩

end Sets
end Expansion
end Variational
