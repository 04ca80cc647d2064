import Variational.Proofs.ExactScalar
import Variational.Cell

/-! Polynomials on cells. The degree is the total degree on simplices and the degree in each variable on boxes; on a
product cell each factor has its own. Sums, products and products over the factors of a cell of polynomials are
polynomials, with the degrees that are expected. -/
namespace Variational

/-- The monomial with the given exponents at a point. -/
def monomialAt (s : List ℕ) (x : List ℝ) : ℝ := (List.zipWith (· ^ ·) x s).prod

theorem monomialAt_append {s : List ℕ} {x : List ℝ} (h : x.length = s.length) (t : List ℕ) (y : List ℝ) :
    monomialAt (s ++ t) (x ++ y) = monomialAt s x * monomialAt t y := by
  rw [monomialAt, List.zipWith_append h, List.prod_append]
  rfl

theorem monomialAt_zero {n : ℕ} {x : List ℝ} (h : x.length = n) : monomialAt (List.replicate n 0) x = 1 := by
  subst h
  induction x with
  | nil => rfl
  | cons a x ih => simpa [monomialAt, List.replicate_succ] using ih

theorem monomialAt_unit {x : List ℝ} {j : ℕ} (hj : j < x.length) :
    monomialAt ((List.replicate x.length 0).set j 1) x = x.getD j 0 := by
  induction x generalizing j with
  | nil => cases hj
  | cons a x ih =>
    cases j with
    | zero =>
      have hrest := monomialAt_zero (x := x) rfl
      simpa [monomialAt, List.replicate_succ] using congrArg (a * ·) hrest
    | succ j => simpa [monomialAt, List.replicate_succ] using ih (Nat.lt_of_succ_lt_succ hj)

theorem monomialAt_add {s t : List ℕ} {x : List ℝ} (hs : x.length = s.length) (ht : x.length = t.length) :
    monomialAt (List.zipWith (· + ·) s t) x = monomialAt s x * monomialAt t x := by
  induction x generalizing s t with
  | nil => simp [monomialAt]
  | cons a x ih =>
    obtain ⟨i, s, rfl⟩ := List.exists_cons_of_length_eq_add_one hs.symm
    obtain ⟨j, t, rfl⟩ := List.exists_cons_of_length_eq_add_one ht.symm
    have hrest := ih (s := s) (t := t) (by simpa using hs) (by simpa using ht)
    simp only [monomialAt, List.zipWith_cons_cons, List.prod_cons] at hrest ⊢
    rw [hrest, pow_add]
    ring

theorem monomialAt_eq_prod {s : List ℕ} {x : List ℝ} (h : x.length = s.length) :
    monomialAt s x = ((List.range s.length).map fun j => x.getD j 0 ^ s.getD j 0).prod := by
  have hlength : (List.zipWith (· ^ ·) x s).length = s.length := by rw [List.length_zipWith, h, Nat.min_self]
  refine congrArg List.prod (List.ext_getElem (by simp [hlength]) fun j hj _ => ?_)
  rw [hlength] at hj
  simp [hj, h]

/-- The exponents of the monomials of a degree on a reference cell. -/
structure ReferenceCell.Admits (c : ReferenceCell) (n : ℕ) (s : List ℕ) : Prop where
  length : s.length = c.dim
  total : c.isSimplex = true → s.sum ≤ n
  each : ∀ k ∈ s, k ≤ n

namespace Cell

section Factors

variable {β : Type} {a b : Cell} {x : List β}

theorem length_take (h : x.length = (product a b).dim) : (x.take a.dim).length = a.dim := by
  rw [List.length_take, h, dim_product]
  omega

theorem length_drop (h : x.length = (product a b).dim) : (x.drop a.dim).length = b.dim := by
  rw [List.length_drop, h, dim_product]
  omega

end Factors

/-- The exponents of the monomials of a degree on a cell. -/
def Admits : Cell → ℕ → List ℕ → Prop
  | simple c, n, s => c.Admits n s
  | product a b, n, s => ∃ t u, s = t ++ u ∧ a.Admits n t ∧ b.Admits n u

theorem Admits.length {cell : Cell} {n : ℕ} {s : List ℕ} (h : cell.Admits n s) : s.length = cell.dim := by
  induction cell generalizing s with
  | simple c => exact ReferenceCell.Admits.length h
  | product a b ha hb =>
    obtain ⟨t, u, rfl, ht, hu⟩ := h
    rw [List.length_append, ha ht, hb hu, dim_product]

theorem Admits.mono {cell : Cell} {n m : ℕ} (hnm : n ≤ m) {s : List ℕ} (h : cell.Admits n s) :
    cell.Admits m s := by
  induction cell generalizing s with
  | simple c =>
    obtain ⟨hlength, htotal, heach⟩ := h
    exact ⟨hlength, fun hc => (htotal hc).trans hnm, fun k hk => (heach k hk).trans hnm⟩
  | product a b ha hb =>
    obtain ⟨t, u, rfl, ht, hu⟩ := h
    exact ⟨t, u, rfl, ha ht, hb hu⟩

theorem admits_zero (cell : Cell) (n : ℕ) : cell.Admits n (List.replicate cell.dim 0) := by
  induction cell with
  | simple c => exact ⟨by simp, by simp, by simp⟩
  | product a b ha hb => exact ⟨_, _, List.replicate_add .., ha, hb⟩

theorem Admits.add {cell : Cell} {n m : ℕ} {s t : List ℕ} (hs : cell.Admits n s) (ht : cell.Admits m t) :
    cell.Admits (n + m) (List.zipWith (· + ·) s t) := by
  induction cell generalizing s t with
  | simple c =>
    have hlength : s.length = t.length := hs.length.trans ht.length.symm
    obtain ⟨hs, hstotal, hseach⟩ := hs
    obtain ⟨ht, httotal, hteach⟩ := ht
    refine ⟨by rw [List.length_zipWith, hs, ht, Nat.min_self], fun hc => ?_, fun k hk => ?_⟩
    · rw [← List.sum_add_sum_eq_sum_zipWith_of_length_eq s t hlength]
      exact Nat.add_le_add (hstotal hc) (httotal hc)
    · obtain ⟨i, hi, hk⟩ := List.mem_iff_getElem.mp hk
      rw [List.length_zipWith] at hi
      rw [← hk, List.getElem_zipWith]
      exact Nat.add_le_add (hseach _ (List.getElem_mem _)) (hteach _ (List.getElem_mem _))
  | product a b ha hb =>
    obtain ⟨s, s', rfl, hs, hs'⟩ := hs
    obtain ⟨t, t', rfl, ht, ht'⟩ := ht
    exact ⟨_, _, List.zipWith_append (hs.length.trans ht.length.symm), ha hs ht, hb hs' ht'⟩

/-- The sum of monomials with the given coefficients and exponents. -/
def combination (terms : List (ℝ × List ℕ)) (x : List ℝ) : ℝ :=
  (terms.map fun t => t.1 * monomialAt t.2 x).sum

/-- On the points of the cell, the function is a combination of monomials of the degree. -/
def IsPolynomial (cell : Cell) (n : ℕ) (f : List ℝ → ℝ) : Prop :=
  ∃ terms, (∀ t ∈ terms, cell.Admits n t.2) ∧ ∀ x, x.length = cell.dim → f x = combination terms x

namespace IsPolynomial

variable {cell : Cell} {n m : ℕ} {f g : List ℝ → ℝ}

theorem congr (hf : cell.IsPolynomial n f) (h : ∀ x, x.length = cell.dim → g x = f x) :
    cell.IsPolynomial n g := by
  obtain ⟨terms, hterms, hvalue⟩ := hf
  exact ⟨terms, hterms, fun x hx => (h x hx).trans (hvalue x hx)⟩

theorem mono (hf : cell.IsPolynomial n f) (hnm : n ≤ m) : cell.IsPolynomial m f := by
  obtain ⟨terms, hterms, hvalue⟩ := hf
  exact ⟨terms, fun t ht => (hterms t ht).mono hnm, hvalue⟩

theorem monomial {s : List ℕ} (hs : cell.Admits n s) : cell.IsPolynomial n (monomialAt s) :=
  ⟨[(1, s)], List.forall_mem_singleton.mpr hs, fun x _ => by simp [combination]⟩

theorem add (hf : cell.IsPolynomial n f) (hg : cell.IsPolynomial n g) :
    cell.IsPolynomial n fun x => f x + g x := by
  obtain ⟨terms, hterms, hvalue⟩ := hf
  obtain ⟨terms', hterms', hvalue'⟩ := hg
  refine ⟨terms ++ terms', List.forall_mem_append.mpr ⟨hterms, hterms'⟩, fun x hx => ?_⟩
  simp only [hvalue x hx, hvalue' x hx, combination, List.map_append, List.sum_append]

theorem const_mul (c : ℝ) (hf : cell.IsPolynomial n f) : cell.IsPolynomial n fun x => c * f x := by
  obtain ⟨terms, hterms, hvalue⟩ := hf
  refine ⟨terms.map fun t => (c * t.1, t.2), List.forall_mem_map.mpr hterms, fun x hx => ?_⟩
  simp only [hvalue x hx, combination, List.map_map, ← List.sum_map_mul_left, Function.comp_def, mul_assoc]

theorem const (cell : Cell) (n : ℕ) (c : ℝ) : cell.IsPolynomial n fun _ => c := by
  refine ((monomial (cell.admits_zero n)).const_mul c).congr fun x hx => ?_
  rw [monomialAt_zero hx, mul_one]

theorem sum {T : Type} {F : T → List ℝ → ℝ} (ts : List T) (h : ∀ t ∈ ts, cell.IsPolynomial n (F t)) :
    cell.IsPolynomial n fun x => (ts.map fun t => F t x).sum := by
  induction ts with
  | nil => exact const cell n 0
  | cons t ts ih =>
    rw [List.forall_mem_cons] at h
    exact h.1.add (ih h.2)

theorem mul (hf : cell.IsPolynomial n f) (hg : cell.IsPolynomial m g) :
    cell.IsPolynomial (n + m) fun x => f x * g x := by
  obtain ⟨terms, hterms, hvalue⟩ := hf
  obtain ⟨terms', hterms', hvalue'⟩ := hg
  refine (sum terms fun t ht => sum terms' fun u hu =>
    (monomial ((hterms t ht).add (hterms' u hu))).const_mul (t.1 * u.1)).congr fun x hx => ?_
  rw [hvalue x hx, hvalue' x hx, combination, ← List.sum_map_mul_right]
  congr 1
  refine List.map_congr_left fun t ht => ?_
  rw [combination, ← List.sum_map_mul_left]
  congr 1
  refine List.map_congr_left fun u hu => ?_
  rw [monomialAt_add (hx.trans (hterms t ht).length.symm) (hx.trans (hterms' u hu).length.symm)]
  ring

theorem neg (hf : cell.IsPolynomial n f) : cell.IsPolynomial n fun x => -f x :=
  (hf.const_mul (-1)).congr fun x _ => by ring

theorem sub (hf : cell.IsPolynomial n f) (hg : cell.IsPolynomial n g) :
    cell.IsPolynomial n fun x => f x - g x :=
  (hf.add hg.neg).congr fun x _ => sub_eq_add_neg (f x) (g x)

theorem mul_const (hf : cell.IsPolynomial n f) (c : ℝ) : cell.IsPolynomial n fun x => f x * c :=
  (hf.const_mul c).congr fun x _ => mul_comm (f x) c

theorem pow (hf : cell.IsPolynomial n f) (k : ℕ) : cell.IsPolynomial (k * n) fun x => f x ^ k := by
  induction k with
  | zero => exact (const cell (0 * n) 1).congr fun x _ => pow_zero (f x)
  | succ k ih =>
    rw [Nat.succ_mul]
    exact (ih.mul hf).congr fun x _ => pow_succ (f x) k

theorem prod {T : Type} {F : T → List ℝ → ℝ} {degree : T → ℕ} (ts : List T)
    (h : ∀ t ∈ ts, cell.IsPolynomial (degree t) (F t)) :
    cell.IsPolynomial (ts.map degree).sum fun x => (ts.map fun t => F t x).prod := by
  induction ts with
  | nil => exact const cell 0 1
  | cons t ts ih =>
    rw [List.forall_mem_cons] at h
    rw [List.map_cons, List.sum_cons]
    exact h.1.mul (ih h.2)

/-- A coordinate on a reference cell. -/
theorem coordinate {c : ReferenceCell} {j : ℕ} (hj : j < c.dim) :
    (simple c).IsPolynomial 1 fun x => x.getD j 0 := by
  have hadmits : (simple c).Admits 1 ((List.replicate c.dim 0).set j 1) := by
    cases c <;> simp only [ReferenceCell.dim] at hj <;> interval_cases j <;>
      exact ⟨rfl, by decide, by decide⟩
  refine (monomial hadmits).congr fun x hx => ?_
  rw [dim_simple] at hx
  rw [← hx] at hj ⊢
  exact (monomialAt_unit hj).symm

/-- Other coordinates keep the degree if the monomials keep it. -/
theorem comp_of_monomials {domain : Cell} {φ : List ℝ → List ℝ} (hf : cell.IsPolynomial n f)
    (hlength : ∀ x, x.length = domain.dim → (φ x).length = cell.dim)
    (h : ∀ s, cell.Admits n s → domain.IsPolynomial n fun x => monomialAt s (φ x)) :
    domain.IsPolynomial n fun x => f (φ x) := by
  obtain ⟨terms, hterms, hvalue⟩ := hf
  exact (sum terms fun t ht => (h t.2 (hterms t ht)).const_mul t.1).congr fun x hx => hvalue (φ x) (hlength x hx)

/-- On a simplex the degree is kept if the new coordinates are linear. -/
theorem comp_linear {c : ReferenceCell} (hc : c.isSimplex = true) {φ : List ℝ → List ℝ}
    (hf : (simple c).IsPolynomial n f) (hlength : ∀ x, x.length = cell.dim → (φ x).length = c.dim)
    (hφ : ∀ j < c.dim, cell.IsPolynomial 1 fun x => (φ x).getD j 0) : cell.IsPolynomial n fun x => f (φ x) := by
  refine hf.comp_of_monomials hlength fun s hs => ?_
  have hdim : s.length = c.dim := hs.length
  have hpower (j : ℕ) (hj : j ∈ List.range s.length) :
      cell.IsPolynomial (s.getD j 0 * 1) fun x => (φ x).getD j 0 ^ s.getD j 0 := by
    rw [List.mem_range, hdim] at hj
    exact (hφ j hj).pow (s.getD j 0)
  have hdegree : ((List.range s.length).map fun j => s.getD j 0 * 1).sum ≤ n := by
    simp only [mul_one]
    exact (sum_eq_getD s).symm.trans_le (hs.total hc)
  refine ((prod _ hpower).mono hdegree).congr fun x hx => ?_
  exact monomialAt_eq_prod ((hlength x hx).trans hdim.symm)

/-- Polynomials on the factors of a product cell. -/
theorem tensor {a b : Cell} (hf : a.IsPolynomial n f) (hg : b.IsPolynomial n g) :
    (product a b).IsPolynomial n fun x => f (x.take a.dim) * g (x.drop a.dim) := by
  obtain ⟨terms, hterms, hvalue⟩ := hf
  obtain ⟨terms', hterms', hvalue'⟩ := hg
  have hadmits (t : ℝ × List ℕ) (ht : t ∈ terms) (u : ℝ × List ℕ) (hu : u ∈ terms') :
      (product a b).Admits n (t.2 ++ u.2) := ⟨t.2, u.2, rfl, hterms t ht, hterms' u hu⟩
  refine (sum terms fun t ht => sum terms' fun u hu =>
    (monomial (hadmits t ht u hu)).const_mul (t.1 * u.1)).congr fun x hx => ?_
  rw [hvalue _ (length_take hx), hvalue' _ (length_drop hx), combination, ← List.sum_map_mul_right]
  congr 1
  refine List.map_congr_left fun t ht => ?_
  rw [combination, ← List.sum_map_mul_left]
  congr 1
  refine List.map_congr_left fun u hu => ?_
  have hsplit := monomialAt_append ((length_take hx).trans (hterms t ht).length.symm) u.2 (x.drop a.dim)
  rw [List.take_append_drop] at hsplit
  rw [hsplit]
  ring

end IsPolynomial

/-- A function of one variable that is a polynomial on the interval. -/
def IntervalPolynomial (n : ℕ) (f : ℝ → ℝ) : Prop := (simple .interval).IsPolynomial n fun x => f (x.getD 0 0)

namespace IntervalPolynomial

variable {n : ℕ} {f g h : ℝ → ℝ}

/-- Each coordinate of a square has the degree for itself. -/
theorem quadrilateral (hf : IntervalPolynomial n f) (hg : IntervalPolynomial n g) :
    (simple .quadrilateral).IsPolynomial n fun x => f (x.getD 0 0) * g (x.getD 1 0) := by
  obtain ⟨terms, hterms, hvalue⟩ := IsPolynomial.tensor hf hg
  refine ⟨terms, fun x hx => ?_, fun x hx => ?_⟩
  · obtain ⟨t, u, hx, ht, hu⟩ := hterms x hx
    refine ⟨?_, nofun, ?_⟩
    · rw [hx, List.length_append, ht.length, hu.length]
      rfl
    · rw [hx]
      exact List.forall_mem_append.mpr ⟨ht.each, hu.each⟩
  · match x, hx with
    | [a, b], _ => exact hvalue [a, b] rfl

/-- Each coordinate of a cube has the degree for itself. -/
theorem hexahedron (hf : IntervalPolynomial n f) (hg : IntervalPolynomial n g) (hh : IntervalPolynomial n h) :
    (simple .hexahedron).IsPolynomial n fun x => f (x.getD 0 0) * g (x.getD 1 0) * h (x.getD 2 0) := by
  obtain ⟨terms, hterms, hvalue⟩ := (IsPolynomial.tensor hf hg).tensor hh
  refine ⟨terms, fun x hx => ?_, fun x hx => ?_⟩
  · obtain ⟨-, u, hx, ⟨s, t, rfl, hs, ht⟩, hu⟩ := hterms x hx
    refine ⟨?_, nofun, ?_⟩
    · rw [hx, List.length_append, List.length_append, hs.length, ht.length, hu.length]
      rfl
    · rw [hx]
      exact List.forall_mem_append.mpr ⟨List.forall_mem_append.mpr ⟨hs.each, ht.each⟩, hu.each⟩
  · match x, hx with
    | [a, b, c], _ => exact hvalue [a, b, c] rfl

end IntervalPolynomial
end Cell
end Variational
