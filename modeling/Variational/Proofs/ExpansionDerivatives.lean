import Variational.Proofs.ExpansionPolynomials
import Variational.Proofs.JacobiSeries

/-! The gradients of the expansion sets. The members of a set are given by polynomials in the coordinates of the point,
and what is tabulated beside their values are the values of the partial derivatives of these polynomials. -/
namespace Variational

open MvPolynomial

section Chain

variable {σ : Type} (x : σ → ℝ)

/-- A polynomial in one variable with a polynomial in its place. -/
theorem eval_aeval (q : MvPolynomial σ ℝ) (P : Polynomial ℝ) : eval x (Polynomial.aeval q P) = P.eval (eval x q) := by
  have hcomp := Polynomial.aeval_algHom_apply (aeval x) q P
  rw [← coe_aeval_eq_eval, RingHom.coe_coe, ← hcomp, Polynomial.coe_aeval_eq_eval]

theorem eval_pderiv_aeval (d : σ) (q : MvPolynomial σ ℝ) (P : Polynomial ℝ) :
    eval x (pderiv d (Polynomial.aeval q P)) = P.derivative.eval (eval x q) * eval x (pderiv d q) := by
  rw [Derivation.map_aeval, smul_eq_mul, eval_mul, eval_aeval]

theorem eval_pderiv_mul (d : σ) (p q : MvPolynomial σ ℝ) :
    eval x (pderiv d (p * q)) = eval x (pderiv d p) * eval x q + eval x p * eval x (pderiv d q) := by
  rw [Derivation.leibniz, eval_add, smul_eq_mul, smul_eq_mul, eval_mul, eval_mul]
  ring

end Chain

namespace Jacobi

variable {σ : Type}

/-- The homogenised polynomials of degrees `k` and `k + 1`, of polynomials. -/
noncomputable def formPair (a : ℝ) (t s : MvPolynomial σ ℝ) : ℕ → MvPolynomial σ ℝ × MvPolynomial σ ℝ
  | 0 => (1, C (linear a 0).constant * s + C (linear a 0).slope * (t - s))
  | k + 1 =>
    let p := formPair a t s k
    let r := step a 0 (k + 2)
    (p.2, (C r.constant * s + C r.slope * (t - s)) * p.2 + C r.previous * s * s * p.1)

noncomputable def form (a : ℝ) (k : ℕ) (t s : MvPolynomial σ ℝ) : MvPolynomial σ ℝ := (formPair a t s k).1

/-- The polynomial has the value of the jet, and its partial derivatives follow from those of the jet by the chain
rule. -/
structure Follows (x : σ → ℝ) (t s P : MvPolynomial σ ℝ) (J : Jet2 ℝ) : Prop where
  value : eval x P = J.value
  slope : ∀ d, eval x (pderiv d P) = J.byT * eval x (pderiv d t) + J.byS * eval x (pderiv d s)

theorem follows_formPair (a : ℝ) (x : σ → ℝ) (t s : MvPolynomial σ ℝ) (k : ℕ) :
    Follows x t s (formPair a t s k).1 (homogeneousPair a (eval x t) (eval x s) k).1 ∧
      Follows x t s (formPair a t s k).2 (homogeneousPair a (eval x t) (eval x s) k).2 := by
  induction k with
  | zero =>
    refine ⟨⟨?_, fun d => ?_⟩, ?_, fun d => ?_⟩
    · simp [formPair, homogeneousPair]
    · simp [formPair, homogeneousPair]
    · simp [formPair, homogeneousPair]
    · simp [formPair, homogeneousPair]
      ring
  | succ k ih =>
    obtain ⟨hp, hq⟩ := ih
    refine ⟨hq, ?_, fun d => ?_⟩
    · simp [formPair, homogeneousPair, hp.value, hq.value]
    · simp [formPair, homogeneousPair, hp.value, hq.value, hp.slope, hq.slope]
      ring

theorem follows_form (a : ℝ) (x : σ → ℝ) (t s : MvPolynomial σ ℝ) (k : ℕ) :
    Follows x t s (form a k t s) (homogeneous a k (eval x t) (eval x s)) := (follows_formPair a x t s k).1

section Series

variable {a b : ℝ} (ha : -1 < a) (hb : -1 < b) (x : σ → ℝ) (i : σ) (k : ℕ)
include ha hb

/-- A polynomial of one of the coordinates. -/
theorem eval_series : eval x (Polynomial.aeval (X i - 1) (series a b k)) = value a b k (2 * x i - 1) := by
  rw [eval_aeval, value_eq_eval ha hb, map_sub, eval_X, map_one]
  congr 1
  ring

theorem eval_pderiv_series (d : σ) : eval x (pderiv d (Polynomial.aeval (X i - 1) (series a b k))) =
    2 * derivative a b k (2 * x i - 1) * eval x (pderiv d (X i)) := by
  rw [eval_pderiv_aeval, derivative_eq_eval ha hb, map_sub, eval_X, map_one, map_sub, pderiv_one, sub_zero]
  congr 3
  ring

end Series
end Jacobi

namespace Expansion

theorem legendre_eq (k : ℕ) (x : ℝ) : legendre k x =
    (Jacobi.value 0 0 k (2 * x - 1) * √(k + 1 / 2), 2 * Jacobi.derivative 0 0 k (2 * x - 1) * √(k + 1 / 2)) := by
  simp only [legendre, Scalar.numeral_zero, Scalar.numeral_one, Scalar.sqrt_real]

theorem triangleMember_eq (i j : ℕ) (x y : ℝ) : triangleMember i j x y =
    let a := Jacobi.homogeneous 0 i (2 * x) (1 - y)
    let b := Jacobi.value (2 * (i : ℝ) + 1) 0 j (2 * y - 1)
    let db := 2 * Jacobi.derivative (2 * (i : ℝ) + 1) 0 j (2 * y - 1)
    let norm := √((i + 1 / 2) * (i + j + 1))
    ⟨a.value * b * norm, [2 * a.byT * b * norm, (-a.byS * b + a.value * db) * norm]⟩ := by
  simp only [triangleMember, Scalar.numeral_zero, Scalar.numeral_one, Scalar.sqrt_real]

theorem tetrahedronMember_eq (i j k : ℕ) (x y z : ℝ) : tetrahedronMember i j k x y z =
    let a := Jacobi.homogeneous 0 i (2 * x) (1 - y - z)
    let b := Jacobi.homogeneous (2 * (i : ℝ) + 1) j (2 * y) (1 - z)
    let c := Jacobi.value (2 * ((i + j : ℕ) : ℝ) + 2) 0 k (2 * z - 1)
    let dc := 2 * Jacobi.derivative (2 * ((i + j : ℕ) : ℝ) + 2) 0 k (2 * z - 1)
    let norm := √((i + 1 / 2) * (i + j + 1) * (i + j + k + 3 / 2))
    ⟨a.value * b.value * c * norm,
     [2 * a.byT * b.value * c * norm, (-a.byS * b.value + 2 * a.value * b.byT) * c * norm,
      (-a.byS * b.value * c - a.value * b.byS * c + a.value * b.value * dc) * norm]⟩ := by
  simp only [tetrahedronMember, Scalar.numeral_zero, Scalar.numeral_one, Scalar.sqrt_real]

/-- The coordinates of a point. -/
def coordinates (n : ℕ) (x : List ℝ) (i : Fin n) : ℝ := x.getD i 0

/-- The value and the partial derivatives of a polynomial at a point. -/
noncomputable def jetAt {n : ℕ} (x : List ℝ) (P : MvPolynomial (Fin n) ℝ) : Jet ℝ :=
  ⟨eval (coordinates n x) P, List.ofFn fun d => eval (coordinates n x) (pderiv d P)⟩

/-- The Legendre polynomial of one of the coordinates. -/
noncomputable def legendrePolynomial {n : ℕ} (k : ℕ) (i : Fin n) : MvPolynomial (Fin n) ℝ :=
  Polynomial.aeval (X i - 1) (Jacobi.series 0 0 k) * C √(k + 1 / 2)

noncomputable def trianglePolynomial (i j : ℕ) : MvPolynomial (Fin 2) ℝ :=
  Jacobi.form 0 i (C 2 * X 0) (1 - X 1) * Polynomial.aeval (X 1 - 1) (Jacobi.series (2 * i + 1) 0 j) *
    C √((i + 1 / 2) * (i + j + 1))

noncomputable def tetrahedronPolynomial (i j k : ℕ) : MvPolynomial (Fin 3) ℝ :=
  Jacobi.form 0 i (C 2 * X 0) (1 - X 1 - X 2) * Jacobi.form (2 * i + 1) j (C 2 * X 1) (1 - X 2) *
    Polynomial.aeval (X 2 - 1) (Jacobi.series (2 * (i + j : ℕ) + 2) 0 k) *
    C √((i + 1 / 2) * (i + j + 1) * (i + j + k + 3 / 2))

noncomputable def quadrilateralPolynomial (i j : ℕ) : MvPolynomial (Fin 2) ℝ :=
  legendrePolynomial i 0 * legendrePolynomial j 1

noncomputable def hexahedronPolynomial (i j k : ℕ) : MvPolynomial (Fin 3) ℝ :=
  legendrePolynomial i 0 * legendrePolynomial j 1 * legendrePolynomial k 2

noncomputable def intervalPolynomial (k : ℕ) : MvPolynomial (Fin 1) ℝ := legendrePolynomial k 0

/-- The polynomials of a set. -/
noncomputable def polynomials (cell : ReferenceCell) (n : ℕ) : List (MvPolynomial (Fin cell.dim) ℝ) :=
  let upTo := List.range (n + 1)
  match cell with
  | .point => [1]
  | .interval => upTo.map intervalPolynomial
  | .triangle => (triangleModes n).map fun m => trianglePolynomial m.1 m.2
  | .quadrilateral => (upTo ×ˢ upTo).map fun m => quadrilateralPolynomial m.1 m.2
  | .tetrahedron => (tetrahedronModes n).map fun m => tetrahedronPolynomial m.1 m.2.1 m.2.2
  | .hexahedron => (upTo ×ˢ upTo ×ˢ upTo).map fun m => hexahedronPolynomial m.1 m.2.1 m.2.2

theorem eval_legendrePolynomial {n : ℕ} (k : ℕ) (i : Fin n) (x : Fin n → ℝ) :
    eval x (legendrePolynomial k i) = (legendre k (x i)).1 := by
  rw [legendrePolynomial, eval_mul, eval_C, Jacobi.eval_series (by norm_num) (by norm_num), legendre_eq]

theorem eval_pderiv_legendrePolynomial {n : ℕ} (k : ℕ) (i d : Fin n) (x : Fin n → ℝ) :
    eval x (pderiv d (legendrePolynomial k i)) = (legendre k (x i)).2 * eval x (pderiv d (X i)) := by
  rw [legendrePolynomial, eval_pderiv_mul, pderiv_C, Jacobi.eval_pderiv_series (by norm_num) (by norm_num), legendre_eq,
    map_zero, eval_C]
  ring

section Gradients

variable {n : ℕ} (i j k : ℕ)

theorem eval_pderiv_coordinate (p : Fin n → ℝ) (d i : Fin n) : eval p (pderiv d (X i)) = if i = d then 1 else 0 := by
  rw [pderiv_X, Pi.single_apply, apply_ite (eval p), map_one, map_zero]

/-- An entry of a gradient, as the derivative along a coordinate. -/
theorem getD_pair (g h : ℝ) (d : Fin 2) :
    [g, h].getD d 0 = g * (if 0 = d then 1 else 0) + h * (if 1 = d then 1 else 0) := by
  match d with
  | 0 => simp
  | 1 => simp

theorem getD_triple (g h k : ℝ) (d : Fin 3) :
    [g, h, k].getD d 0 =
      g * (if 0 = d then 1 else 0) + h * (if 1 = d then 1 else 0) + k * (if 2 = d then 1 else 0) := by
  match d with
  | 0 => simp
  | 1 => simp
  | 2 => simp

theorem eval_trianglePolynomial (p : Fin 2 → ℝ) :
    eval p (trianglePolynomial i j) = (triangleMember i j (p 0) (p 1)).value := by
  have hparameter : -1 < 2 * (i : ℝ) + 1 := by linarith [i.cast_nonneg (α := ℝ)]
  have ha := (Jacobi.follows_form 0 p (C 2 * X 0) (1 - X 1) i).value
  have hb := Jacobi.eval_series hparameter neg_one_lt_zero p 1 j
  rw [trianglePolynomial, eval_mul, eval_mul, ha, hb, triangleMember_eq]
  simp only [eval_mul, map_sub, map_one, eval_C, eval_X]

theorem eval_pderiv_trianglePolynomial (p : Fin 2 → ℝ) (d : Fin 2) :
    eval p (pderiv d (trianglePolynomial i j)) = (triangleMember i j (p 0) (p 1)).gradient.getD d 0 := by
  have hparameter : -1 < 2 * (i : ℝ) + 1 := by linarith [i.cast_nonneg (α := ℝ)]
  obtain ⟨ha, hda⟩ := Jacobi.follows_form 0 p (C 2 * X 0) (1 - X 1) i
  have hb := Jacobi.eval_series hparameter neg_one_lt_zero p 1 j
  have hdb := Jacobi.eval_pderiv_series hparameter neg_one_lt_zero p 1 j d
  rw [trianglePolynomial, eval_pderiv_mul, eval_pderiv_mul, ha, hda, hb, hdb, pderiv_C, triangleMember_eq, getD_pair]
  simp only [eval_mul, map_sub, map_one, eval_C, eval_X, pderiv_C_mul, pderiv_one, map_zero, zero_sub, map_neg,
    eval_pderiv_coordinate]
  ring

theorem eval_tetrahedronPolynomial (p : Fin 3 → ℝ) :
    eval p (tetrahedronPolynomial i j k) = (tetrahedronMember i j k (p 0) (p 1) (p 2)).value := by
  have hparameter : -1 < 2 * ((i + j : ℕ) : ℝ) + 2 := by linarith [(i + j).cast_nonneg (α := ℝ)]
  have ha := (Jacobi.follows_form 0 p (C 2 * X 0) (1 - X 1 - X 2) i).value
  have hb := (Jacobi.follows_form (2 * i + 1) p (C 2 * X 1) (1 - X 2) j).value
  have hc := Jacobi.eval_series hparameter neg_one_lt_zero p 2 k
  rw [tetrahedronPolynomial, eval_mul, eval_mul, eval_mul, ha, hb, hc, tetrahedronMember_eq]
  simp only [eval_mul, map_sub, map_one, eval_C, eval_X]

theorem eval_pderiv_tetrahedronPolynomial (p : Fin 3 → ℝ) (d : Fin 3) :
    eval p (pderiv d (tetrahedronPolynomial i j k)) =
      (tetrahedronMember i j k (p 0) (p 1) (p 2)).gradient.getD d 0 := by
  have hparameter : -1 < 2 * ((i + j : ℕ) : ℝ) + 2 := by linarith [(i + j).cast_nonneg (α := ℝ)]
  obtain ⟨ha, hda⟩ := Jacobi.follows_form 0 p (C 2 * X 0) (1 - X 1 - X 2) i
  obtain ⟨hb, hdb⟩ := Jacobi.follows_form (2 * i + 1) p (C 2 * X 1) (1 - X 2) j
  have hc := Jacobi.eval_series hparameter neg_one_lt_zero p 2 k
  have hdc := Jacobi.eval_pderiv_series hparameter neg_one_lt_zero p 2 k d
  rw [tetrahedronPolynomial, eval_pderiv_mul, eval_pderiv_mul, eval_pderiv_mul, eval_mul, ha, hda, hb, hdb, hc, hdc,
    pderiv_C, tetrahedronMember_eq, getD_triple]
  simp only [eval_mul, map_sub, map_one, eval_C, eval_X, pderiv_C_mul, pderiv_one, map_zero, zero_sub, map_neg,
    eval_pderiv_coordinate]
  ring

end Gradients

/-- A jet that has the value and the derivatives of a polynomial is that of the polynomial. -/
theorem jetAt_eq {n : ℕ} {x : List ℝ} {P : MvPolynomial (Fin n) ℝ} {J : Jet ℝ} (hlength : J.gradient.length = n)
    (hvalue : eval (coordinates n x) P = J.value)
    (hslope : ∀ d, eval (coordinates n x) (pderiv d P) = J.gradient.getD d 0) : jetAt x P = J := by
  obtain ⟨value, gradient⟩ := J
  subst hlength
  simp only [jetAt, hvalue, hslope, List.getD_eq_getElem, Fin.is_lt, List.ofFn_getElem]

section Cells

variable (x : List ℝ) (i j k : ℕ)

theorem jetAt_interval : jetAt x (intervalPolynomial i) =
    let p := legendre i (x.getD 0 0)
    ⟨p.1, [p.2]⟩ := by
  refine jetAt_eq rfl (eval_legendrePolynomial i 0 _) fun d => ?_
  match d with
  | 0 =>
    rw [intervalPolynomial, eval_pderiv_legendrePolynomial, eval_pderiv_coordinate, if_pos rfl, mul_one]
    rfl

theorem jetAt_triangle : jetAt x (trianglePolynomial i j) = triangleMember i j (x.getD 0 0) (x.getD 1 0) :=
  jetAt_eq rfl (eval_trianglePolynomial i j _) (eval_pderiv_trianglePolynomial i j _)

theorem jetAt_quadrilateral : jetAt x (quadrilateralPolynomial i j) =
    let p := legendre i (x.getD 0 0)
    let q := legendre j (x.getD 1 0)
    ⟨p.1 * q.1, [p.2 * q.1, p.1 * q.2]⟩ := by
  have hx : x.getD 0 0 = coordinates 2 x 0 ∧ x.getD 1 0 = coordinates 2 x 1 := ⟨rfl, rfl⟩
  rw [hx.1, hx.2]
  refine jetAt_eq rfl ?_ fun d => ?_
  · rw [quadrilateralPolynomial, eval_mul, eval_legendrePolynomial, eval_legendrePolynomial]
  · rw [quadrilateralPolynomial, eval_pderiv_mul, getD_pair]
    simp only [eval_legendrePolynomial, eval_pderiv_legendrePolynomial, eval_pderiv_coordinate]
    ring

theorem jetAt_tetrahedron : jetAt x (tetrahedronPolynomial i j k) =
    tetrahedronMember i j k (x.getD 0 0) (x.getD 1 0) (x.getD 2 0) :=
  jetAt_eq rfl (eval_tetrahedronPolynomial i j k _) (eval_pderiv_tetrahedronPolynomial i j k _)

theorem jetAt_hexahedron : jetAt x (hexahedronPolynomial i j k) =
    let p := legendre i (x.getD 0 0)
    let q := legendre j (x.getD 1 0)
    let r := legendre k (x.getD 2 0)
    ⟨p.1 * q.1 * r.1, [p.2 * q.1 * r.1, p.1 * q.2 * r.1, p.1 * q.1 * r.2]⟩ := by
  have hx : x.getD 0 0 = coordinates 3 x 0 ∧ x.getD 1 0 = coordinates 3 x 1 ∧ x.getD 2 0 = coordinates 3 x 2 :=
    ⟨rfl, rfl, rfl⟩
  rw [hx.1, hx.2.1, hx.2.2]
  refine jetAt_eq rfl ?_ fun d => ?_
  · rw [hexahedronPolynomial, eval_mul, eval_mul, eval_legendrePolynomial, eval_legendrePolynomial,
      eval_legendrePolynomial]
  · rw [hexahedronPolynomial, eval_pderiv_mul, eval_pderiv_mul, getD_triple]
    simp only [eval_mul, eval_legendrePolynomial, eval_pderiv_legendrePolynomial, eval_pderiv_coordinate]
    ring

end Cells

theorem map_jetAt {ι : Type} {n : ℕ} (modes : List ι) (P : ι → MvPolynomial (Fin n) ℝ) {J : ι → List ℝ → Jet ℝ}
    (h : ∀ m x, jetAt x (P m) = J m x) : (modes.map P).map (fun P x => jetAt x P) = modes.map J := by
  rw [List.map_map]
  exact List.map_congr_left fun m _ => funext (h m)

theorem map_product {ι κ β : Type} (f : ι × κ → β) (ms : List ι) (ks : List κ) :
    (ms ×ˢ ks).map f = ms.flatMap fun m => ks.map fun k => f (m, k) := by
  change (ms.flatMap _).map f = _
  rw [List.map_flatMap]
  simp only [List.map_map, Function.comp_def]

theorem members_quadrilateral (n : ℕ) :
    members .quadrilateral n = (List.range (n + 1) ×ˢ List.range (n + 1)).map fun m x =>
      let p := legendre m.1 (x.getD 0 0)
      let q := legendre m.2 (x.getD 1 0)
      ⟨p.1 * q.1, [p.2 * q.1, p.1 * q.2]⟩ := by
  rw [map_product]
  rfl

theorem members_hexahedron (n : ℕ) :
    members .hexahedron n = (List.range (n + 1) ×ˢ List.range (n + 1) ×ˢ List.range (n + 1)).map fun m x =>
      let p := legendre m.1 (x.getD 0 0)
      let q := legendre m.2.1 (x.getD 1 0)
      let r := legendre m.2.2 (x.getD 2 0)
      ⟨p.1 * q.1 * r.1, [p.2 * q.1 * r.1, p.1 * q.2 * r.1, p.1 * q.1 * r.2]⟩ := by
  rw [map_product]
  refine List.flatMap_congr fun i _ => ?_
  rw [map_product]

/-- The members of a set are the polynomials with their partial derivatives. -/
theorem members_eq (cell : ReferenceCell) (n : ℕ) : members cell n = (polynomials cell n).map fun P x => jetAt x P := by
  symm
  cases cell with
  | point =>
    change [_] = [_]
    simp [jetAt]
    rfl
  | interval => exact map_jetAt (List.range (n + 1)) intervalPolynomial fun k x => jetAt_interval x k
  | triangle =>
    exact map_jetAt (triangleModes n) (fun m => trianglePolynomial m.1 m.2) fun m x => jetAt_triangle x m.1 m.2
  | quadrilateral =>
    rw [members_quadrilateral]
    exact map_jetAt (List.range (n + 1) ×ˢ List.range (n + 1)) (fun m => quadrilateralPolynomial m.1 m.2) fun m x =>
      jetAt_quadrilateral x m.1 m.2
  | tetrahedron =>
    exact map_jetAt (tetrahedronModes n) (fun m => tetrahedronPolynomial m.1 m.2.1 m.2.2) fun m x =>
      jetAt_tetrahedron x m.1 m.2.1 m.2.2
  | hexahedron =>
    rw [members_hexahedron]
    exact map_jetAt (List.range (n + 1) ×ˢ List.range (n + 1) ×ˢ List.range (n + 1))
      (fun m => hexahedronPolynomial m.1 m.2.1 m.2.2) fun m x => jetAt_hexahedron x m.1 m.2.1 m.2.2

theorem length_polynomials (cell : ReferenceCell) (n : ℕ) : (polynomials cell n).length = count cell n := by
  cases cell with
  | point => rfl
  | interval => exact (List.length_map _).trans List.length_range
  | triangle => exact (List.length_map _).trans (length_triangleModes n)
  | quadrilateral =>
    refine (List.length_map _).trans ?_
    rw [List.length_product, List.length_range, count]
  | tetrahedron => exact (List.length_map _).trans (length_tetrahedronModes n)
  | hexahedron =>
    refine (List.length_map _).trans ?_
    rw [List.length_product, List.length_product, List.length_range, count, Nat.mul_assoc]

/-- The polynomial at a place of a set. -/
noncomputable def member (cell : ReferenceCell) (n : ℕ) (p : Fin (count cell n)) : MvPolynomial (Fin cell.dim) ℝ :=
  (polynomials cell n).get (p.cast (length_polynomials cell n).symm)

theorem ofFn_member (cell : ReferenceCell) (n : ℕ) : List.ofFn (member cell n) = polynomials cell n := by
  refine List.ext_get ?_ fun p h _ => ?_
  · rw [List.length_ofFn, length_polynomials]
  · rw [List.get_ofFn]
    rfl

theorem jets_eq_jetAt {cell : ReferenceCell} {x : List ℝ} (hx : x.length = cell.dim) (n : ℕ) :
    jets cell n x = .ok (List.ofFn fun p => jetAt x (member cell n p)) := by
  rw [jets_eq hx, members_eq, ← ofFn_member]
  simp only [List.map_ofFn, Function.comp_def]

theorem tabulate_eq_jetAt {cell : ReferenceCell} {points : List (List ℝ)} (h : ∀ x ∈ points, x.length = cell.dim)
    (n : ℕ) : tabulate cell n points = .ok (points.map fun x => List.ofFn fun p => jetAt x (member cell n p)) :=
  Result.mapM_of_forall fun x hx => jets_eq_jetAt (h x hx) n

/-- The members of a set are polynomials in the coordinates of the point. A table has their values and, in each
direction, the values of their partial derivatives. -/
theorem tabulate_gradients (cell : ReferenceCell) (n : ℕ) :
    ∃ P : Fin (count cell n) → MvPolynomial (Fin cell.dim) ℝ,
      ∀ points : List (List ℝ), (∀ x ∈ points, x.length = cell.dim) →
        tabulate cell n points = .ok (points.map fun x => List.ofFn fun p =>
          ⟨eval (coordinates cell.dim x) (P p), List.ofFn fun d => eval (coordinates cell.dim x) (pderiv d (P p))⟩) :=
  ⟨member cell n, fun _ h => tabulate_eq_jetAt h n⟩

theorem tabulate_gradients_tetrahedron :
    ∃ P : Fin 4 → MvPolynomial (Fin 3) ℝ, tabulate .tetrahedron 1 [[1 / 4, 1 / 8, 1 / 2]] =
      .ok [List.ofFn fun p => ⟨eval (coordinates 3 [1 / 4, 1 / 8, 1 / 2]) (P p),
        List.ofFn fun d => eval (coordinates 3 [1 / 4, 1 / 8, 1 / 2]) (pderiv d (P p))⟩] := by
  obtain ⟨P, hP⟩ := tabulate_gradients .tetrahedron 1
  exact ⟨P, hP [[1 / 4, 1 / 8, 1 / 2]] (by simp [ReferenceCell.dim])⟩

end Expansion
end Variational
