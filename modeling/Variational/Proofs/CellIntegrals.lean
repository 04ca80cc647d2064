import Variational.Proofs.CellPolynomials
import Variational.Proofs.ExactScalar

/-! Integrals over cells. In collapsed coordinates an integral over a cell is made of functionals of one variable that
are applied one after the other. Two families of functionals that agree on the Bernstein polynomials of one variable up
to a degree agree on all polynomials on the cell of that degree. -/
namespace Variational

/-- The functions of one variable that the monomials of a simplex are made of. -/
def bernstein (i j : ℕ) (t : ℝ) : ℝ := (1 - t) ^ i * t ^ j

theorem continuous_bernstein (i j : ℕ) : Continuous (bernstein i j) := by
  unfold bernstein
  fun_prop

/-- The functional respects sums of multiples of continuous functions. -/
def RespectsSums (L : (ℝ → ℝ) → ℝ) : Prop :=
  ∀ (ts : List (ℝ × List ℕ)) (c : ℝ × List ℕ → ℝ) (g : ℝ × List ℕ → ℝ → ℝ), (∀ t, Continuous (g t)) →
    L (fun x => (ts.map fun t => c t * g t x).sum) = (ts.map fun t => c t * L (g t)).sum

namespace RespectsSums

variable {L M N : (ℝ → ℝ) → ℝ} {ts : List (ℝ × List ℕ)} {f g h : ℝ × List ℕ → ℝ → ℝ}

theorem eq_sum (hL : RespectsSums L) (hf : ∀ t, Continuous (f t)) (c : ℝ × List ℕ → ℝ) {F : ℝ → ℝ}
    (hF : ∀ x, F x = (ts.map fun t => c t * f t x).sum) : L F = (ts.map fun t => c t * L (f t)).sum := by
  rw [show F = fun x => (ts.map fun t => c t * f t x).sum from funext hF]
  exact hL ts c f hf

/-- Two functionals, each of its own variable. -/
theorem eq_sum₂ (hL : RespectsSums L) (hM : RespectsSums M) (hf : ∀ t, Continuous (f t))
    (hg : ∀ t, Continuous (g t)) (c : ℝ × List ℕ → ℝ) {F : ℝ → ℝ → ℝ}
    (hF : ∀ x y, F x y = (ts.map fun t => c t * (f t x * g t y)).sum) :
    (L fun x => M fun y => F x y) = (ts.map fun t => c t * (L (f t) * M (g t))).sum := by
  have hinner (x : ℝ) : (M fun y => F x y) = (ts.map fun t => c t * f t x * M (g t)).sum :=
    hM.eq_sum hg (fun t => c t * f t x) fun y => by simp only [hF, mul_assoc]
  have houter : (L fun x => M fun y => F x y) = (ts.map fun t => c t * M (g t) * L (f t)).sum :=
    hL.eq_sum hf (fun t => c t * M (g t)) fun x => (hinner x).trans (by simp only [mul_right_comm])
  exact houter.trans (congrArg List.sum (List.map_congr_left fun t _ => by ring))

/-- Three functionals, each of its own variable. -/
theorem eq_sum₃ (hL : RespectsSums L) (hM : RespectsSums M) (hN : RespectsSums N) (hf : ∀ t, Continuous (f t))
    (hg : ∀ t, Continuous (g t)) (hh : ∀ t, Continuous (h t)) (c : ℝ × List ℕ → ℝ) {F : ℝ → ℝ → ℝ → ℝ}
    (hF : ∀ x y z, F x y z = (ts.map fun t => c t * (f t x * g t y * h t z)).sum) :
    (L fun x => M fun y => N fun z => F x y z) = (ts.map fun t => c t * (L (f t) * M (g t) * N (h t))).sum := by
  have hinner (x y : ℝ) : (N fun z => F x y z) = (ts.map fun t => c t * (f t x * g t y) * N (h t)).sum :=
    hN.eq_sum hh (fun t => c t * (f t x * g t y)) fun z => by simp only [hF, mul_assoc]
  have houter : (L fun x => M fun y => N fun z => F x y z) =
      (ts.map fun t => c t * N (h t) * (L (f t) * M (g t))).sum :=
    hL.eq_sum₂ hM hf hg (fun t => c t * N (h t)) fun x y => (hinner x y).trans (by simp only [mul_right_comm])
  exact houter.trans (congrArg List.sum (List.map_congr_left fun t _ => by ring))

end RespectsSums

section Monomials

variable {s : List ℕ}

theorem monomialAt_one (h : s.length = 1) (x : ℝ) : monomialAt s [x] = bernstein 0 (s.getD 0 0) x := by
  match s, h with
  | [i], _ => simp [monomialAt, bernstein]

theorem monomialAt_two (h : s.length = 2) (x y : ℝ) :
    monomialAt s [x, y] = x ^ s.getD 0 0 * y ^ s.getD 1 0 := by
  match s, h with
  | [i, j], _ => simp [monomialAt]

theorem monomialAt_three (h : s.length = 3) (x y z : ℝ) :
    monomialAt s [x, y, z] = x ^ s.getD 0 0 * y ^ s.getD 1 0 * z ^ s.getD 2 0 := by
  match s, h with
  | [i, j, k], _ => simp [monomialAt, mul_assoc]

end Monomials

section Collapsed

variable (L : ℕ → (ℝ → ℝ) → ℝ)

/-- Functionals of one variable applied one after the other, in collapsed coordinates. The functional with number `a`
is for the weight `(1 - t) ^ a` on the unit interval. -/
def ReferenceCell.collapsed : ReferenceCell → (List ℝ → ℝ) → ℝ
  | .point, f => f []
  | .interval, f => L 0 fun x => f [x]
  | .triangle, f => L 1 fun y => L 0 fun x => f [x * (1 - y), y]
  | .quadrilateral, f => L 0 fun x => L 0 fun y => f [x, y]
  | .tetrahedron, f => L 2 fun z => L 1 fun y => L 0 fun x => f [x * (1 - y) * (1 - z), y * (1 - z), z]
  | .hexahedron, f => L 0 fun x => L 0 fun y => L 0 fun z => f [x, y, z]

def Cell.collapsed : Cell → (List ℝ → ℝ) → ℝ
  | .simple c, f => c.collapsed L f
  | .product a b, f => a.collapsed fun p => b.collapsed fun q => f (p ++ q)

/-- What becomes of the monomial with the given exponents. -/
def ReferenceCell.moment (c : ReferenceCell) (s : List ℕ) : ℝ :=
  let i := s.getD 0 0
  let j := s.getD 1 0
  let k := s.getD 2 0
  match c with
  | .point => 1
  | .interval => L 0 (bernstein 0 i)
  | .triangle => L 1 (bernstein i j) * L 0 (bernstein 0 i)
  | .quadrilateral => L 0 (bernstein 0 i) * L 0 (bernstein 0 j)
  | .tetrahedron => L 2 (bernstein (i + j) k) * L 1 (bernstein i j) * L 0 (bernstein 0 i)
  | .hexahedron => L 0 (bernstein 0 i) * L 0 (bernstein 0 j) * L 0 (bernstein 0 k)

def Cell.moment : Cell → List ℕ → ℝ
  | .simple c, s => c.moment L s
  | .product a b, s => a.moment (s.take a.dim) * b.moment (s.drop a.dim)

theorem ReferenceCell.collapsed_congr {c : ReferenceCell} {f g : List ℝ → ℝ}
    (h : ∀ x, x.length = c.dim → f x = g x) : c.collapsed L f = c.collapsed L g := by
  cases c with
  | point => exact h [] rfl
  | interval => simp only [collapsed, h [_] rfl]
  | triangle => simp only [collapsed, h [_, _] rfl]
  | quadrilateral => simp only [collapsed, h [_, _] rfl]
  | tetrahedron => simp only [collapsed, h [_, _, _] rfl]
  | hexahedron => simp only [collapsed, h [_, _, _] rfl]

theorem Cell.collapsed_congr {cell : Cell} {f g : List ℝ → ℝ} (h : ∀ x, x.length = cell.dim → f x = g x) :
    cell.collapsed L f = cell.collapsed L g := by
  induction cell generalizing f g with
  | simple c => exact ReferenceCell.collapsed_congr L h
  | product a b ha hb =>
    refine ha fun p hp => hb fun q hq => h (p ++ q) ?_
    rw [List.length_append, hp, hq, dim_product]

variable {L}

theorem ReferenceCell.collapsed_combination (hL : ∀ a, RespectsSums (L a)) {c : ReferenceCell}
    {terms : List (ℝ × List ℕ)} (h : ∀ t ∈ terms, t.2.length = c.dim) :
    c.collapsed L (Cell.combination terms) = (terms.map fun t => t.1 * c.moment L t.2).sum := by
  have hmap {F G : ℝ × List ℕ → ℝ} (hFG : ∀ t ∈ terms, F t = G t) : (terms.map F).sum = (terms.map G).sum :=
    congrArg List.sum (List.map_congr_left hFG)
  cases c with
  | point =>
    refine hmap fun t ht => ?_
    rw [List.length_eq_zero_iff.mp (h t ht)]
    rfl
  | interval =>
    refine (hL 0).eq_sum (fun t => continuous_bernstein _ _) Prod.fst fun x => hmap fun t ht => ?_
    rw [monomialAt_one (h t ht)]
  | triangle =>
    refine (hL 1).eq_sum₂ (hL 0) (fun t => continuous_bernstein _ _) (fun t => continuous_bernstein _ _) Prod.fst
      fun y x => hmap fun t ht => ?_
    simp only [monomialAt_two (h t ht), bernstein, mul_pow]
    ring
  | quadrilateral =>
    refine (hL 0).eq_sum₂ (hL 0) (fun t => continuous_bernstein _ _) (fun t => continuous_bernstein _ _) Prod.fst
      fun x y => hmap fun t ht => ?_
    rw [monomialAt_two (h t ht), bernstein, bernstein]
    ring
  | tetrahedron =>
    refine (hL 2).eq_sum₃ (hL 1) (hL 0) (fun t => continuous_bernstein _ _) (fun t => continuous_bernstein _ _)
      (fun t => continuous_bernstein _ _) Prod.fst fun z y x => hmap fun t ht => ?_
    simp only [monomialAt_three (h t ht), bernstein, mul_pow, pow_add]
    ring
  | hexahedron =>
    refine (hL 0).eq_sum₃ (hL 0) (hL 0) (fun t => continuous_bernstein _ _) (fun t => continuous_bernstein _ _)
      (fun t => continuous_bernstein _ _) Prod.fst fun x y z => hmap fun t ht => ?_
    rw [monomialAt_three (h t ht), bernstein, bernstein, bernstein]
    ring

theorem Cell.collapsed_combination (hL : ∀ a, RespectsSums (L a)) {cell : Cell} {terms : List (ℝ × List ℕ)}
    (h : ∀ t ∈ terms, t.2.length = cell.dim) :
    cell.collapsed L (combination terms) = (terms.map fun t => t.1 * cell.moment L t.2).sum := by
  induction cell generalizing terms with
  | simple c => exact c.collapsed_combination hL h
  | product a b ha hb =>
    have htake : ∀ t ∈ terms, (t.2.take a.dim).length = a.dim := fun t ht => length_take (h t ht)
    have hdrop : ∀ t ∈ terms, (t.2.drop a.dim).length = b.dim := fun t ht => length_drop (h t ht)
    have hinner (p : List ℝ) (hp : p.length = a.dim) : (b.collapsed L fun q => combination terms (p ++ q)) =
        combination (terms.map fun t => (t.1 * b.moment L (t.2.drop a.dim), t.2.take a.dim)) p := by
      have hsplit (q : List ℝ) : combination terms (p ++ q) =
          combination (terms.map fun t => (t.1 * monomialAt (t.2.take a.dim) p, t.2.drop a.dim)) q := by
        simp only [combination, List.map_map]
        refine congrArg List.sum (List.map_congr_left fun t ht => ?_)
        have happend := monomialAt_append (hp.trans (htake t ht).symm) (t.2.drop a.dim) q
        rw [List.take_append_drop] at happend
        rw [happend, Function.comp_apply, mul_assoc]
      simp only [hsplit]
      rw [hb (List.forall_mem_map.mpr hdrop), combination, List.map_map, List.map_map]
      refine congrArg List.sum (List.map_congr_left fun t _ => ?_)
      simp only [Function.comp_apply]
      ring
    rw [collapsed, a.collapsed_congr L hinner, ha (List.forall_mem_map.mpr htake), List.map_map]
    refine congrArg List.sum (List.map_congr_left fun t _ => ?_)
    simp only [Function.comp_apply, moment]
    ring

/-- The moments of the monomials of a degree depend on the functionals of polynomials of this degree only. -/
theorem ReferenceCell.moment_congr {L M : ℕ → (ℝ → ℝ) → ℝ} {n : ℕ}
    (h : ∀ a ≤ 2, ∀ i j, i + j ≤ n → L a (bernstein i j) = M a (bernstein i j)) {c : ReferenceCell} {s : List ℕ}
    (hs : c.Admits n s) : c.moment L s = c.moment M s := by
  obtain ⟨hlength, htotal, heach⟩ := hs
  cases c with
  | point => rfl
  | interval =>
    match s, hlength with
    | [i], _ =>
      have hi := heach i (by simp)
      simp [moment, h 0 (by omega) 0 i (by omega)]
  | triangle =>
    match s, hlength with
    | [i, j], _ =>
      have htotal : i + j ≤ n := by simpa using htotal rfl
      simp [moment, h 0 (by omega) 0 i (by omega), h 1 (by omega) i j htotal]
  | quadrilateral =>
    match s, hlength with
    | [i, j], _ =>
      simp only [List.forall_mem_cons] at heach
      simp [moment, h 0 (by omega) 0 i (by omega), h 0 (by omega) 0 j (by omega)]
  | tetrahedron =>
    match s, hlength with
    | [i, j, k], _ =>
      have htotal : i + (j + k) ≤ n := by simpa using htotal rfl
      simp [moment, h 0 (by omega) 0 i (by omega), h 1 (by omega) i j (by omega),
        h 2 (by omega) (i + j) k (by omega)]
  | hexahedron =>
    match s, hlength with
    | [i, j, k], _ =>
      simp only [List.forall_mem_cons] at heach
      simp [moment, h 0 (by omega) 0 i (by omega), h 0 (by omega) 0 j (by omega), h 0 (by omega) 0 k (by omega)]

theorem Cell.moment_congr {L M : ℕ → (ℝ → ℝ) → ℝ} {n : ℕ}
    (h : ∀ a ≤ 2, ∀ i j, i + j ≤ n → L a (bernstein i j) = M a (bernstein i j)) {cell : Cell} {s : List ℕ}
    (hs : cell.Admits n s) : cell.moment L s = cell.moment M s := by
  induction cell generalizing s with
  | simple c => exact ReferenceCell.moment_congr h hs
  | product a b ha hb =>
    obtain ⟨t, u, rfl, ht, hu⟩ := hs
    have hlength := ht.length
    rw [moment, moment, List.take_left' hlength, List.drop_left' hlength, ha ht, hb hu]

/-- Functionals that agree on the polynomials of a degree in one variable do so on those on a cell. -/
theorem Cell.IsPolynomial.collapsed_eq {L M : ℕ → (ℝ → ℝ) → ℝ} (hL : ∀ a, RespectsSums (L a))
    (hM : ∀ a, RespectsSums (M a)) {n : ℕ}
    (h : ∀ a ≤ 2, ∀ i j, i + j ≤ n → L a (bernstein i j) = M a (bernstein i j)) {cell : Cell} {f : List ℝ → ℝ}
    (hf : cell.IsPolynomial n f) : cell.collapsed L f = cell.collapsed M f := by
  obtain ⟨terms, hterms, hvalue⟩ := hf
  have hlength : ∀ t ∈ terms, t.2.length = cell.dim := fun t ht => (hterms t ht).length
  rw [cell.collapsed_congr L hvalue, cell.collapsed_congr M hvalue, cell.collapsed_combination hL hlength,
    cell.collapsed_combination hM hlength]
  refine congrArg List.sum (List.map_congr_left fun t ht => ?_)
  rw [moment_congr h (hterms t ht)]

end Collapsed

section Integrals

/-- The integral over a reference cell. -/
noncomputable def ReferenceCell.integral : ReferenceCell → (List ℝ → ℝ) → ℝ
  | .point, f => f []
  | .interval, f => ∫ x in (0 : ℝ)..1, f [x]
  | .triangle, f => ∫ y in (0 : ℝ)..1, ∫ x in (0 : ℝ)..1 - y, f [x, y]
  | .quadrilateral, f => ∫ x in (0 : ℝ)..1, ∫ y in (0 : ℝ)..1, f [x, y]
  | .tetrahedron, f => ∫ z in (0 : ℝ)..1, ∫ y in (0 : ℝ)..1 - z, ∫ x in (0 : ℝ)..1 - y - z, f [x, y, z]
  | .hexahedron, f => ∫ x in (0 : ℝ)..1, ∫ y in (0 : ℝ)..1, ∫ z in (0 : ℝ)..1, f [x, y, z]

/-- The integral over a cell; over a product cell it is one factor after the other. -/
noncomputable def Cell.integral : Cell → (List ℝ → ℝ) → ℝ
  | .simple c, f => c.integral f
  | .product a b, f => a.integral fun p => b.integral fun q => f (p ++ q)

/-- The integral over the unit interval against a weight. -/
noncomputable def weightedIntegral (a : ℕ) (g : ℝ → ℝ) : ℝ := ∫ t in (0 : ℝ)..1, (1 - t) ^ a * g t

theorem weightedIntegral_respectsSums (a : ℕ) : RespectsSums (weightedIntegral a) := by
  intro ts c g hg
  induction ts with
  | nil => simp [weightedIntegral]
  | cons t ts ih =>
    have hsum : Continuous fun x => (ts.map fun t => c t * g t x).sum :=
      continuous_list_sum ts fun t _ => continuous_const.mul (hg t)
    have hweight : Continuous fun x : ℝ => (1 - x) ^ a := by fun_prop
    simp only [List.map_cons, List.sum_cons]
    rw [← ih, weightedIntegral, weightedIntegral, weightedIntegral, ← intervalIntegral.integral_const_mul,
      ← intervalIntegral.integral_add]
    · refine intervalIntegral.integral_congr fun x _ => ?_
      ring
    · exact (continuous_const.mul (hweight.mul (hg t))).intervalIntegrable 0 1
    · exact (hweight.mul hsum).intervalIntegrable 0 1

theorem weightedIntegral_mul_const (a : ℕ) (g : ℝ → ℝ) (c : ℝ) :
    (weightedIntegral a fun t => g t * c) = weightedIntegral a g * c := by
  simp only [weightedIntegral, ← mul_assoc, intervalIntegral.integral_mul_const]

theorem weightedIntegral_const_mul (a : ℕ) (c : ℝ) (g : ℝ → ℝ) :
    (weightedIntegral a fun t => c * g t) = c * weightedIntegral a g := by
  simp only [mul_comm c, weightedIntegral_mul_const]

theorem integral_scaled (g : ℝ → ℝ) (h : ℝ) : ∫ x in (0 : ℝ)..h, g x = h * ∫ t in (0 : ℝ)..1, g (t * h) := by
  have hscale := intervalIntegral.mul_integral_comp_mul_right (a := 0) (b := 1) (f := g) h
  rw [zero_mul, one_mul] at hscale
  exact hscale.symm

theorem ReferenceCell.integral_eq_collapsed (c : ReferenceCell) (f : List ℝ → ℝ) :
    c.integral f = c.collapsed weightedIntegral f := by
  cases c with
  | point => rfl
  | interval => simp only [integral, collapsed, weightedIntegral, pow_zero, one_mul]
  | triangle =>
    simp only [integral, collapsed, weightedIntegral, pow_zero, one_mul, pow_one]
    refine intervalIntegral.integral_congr fun y _ => ?_
    exact integral_scaled (fun x => f [x, y]) (1 - y)
  | quadrilateral => simp only [integral, collapsed, weightedIntegral, pow_zero, one_mul]
  | tetrahedron =>
    simp only [integral, collapsed, weightedIntegral, pow_zero, one_mul, pow_one]
    refine intervalIntegral.integral_congr fun z _ => ?_
    have hx (y : ℝ) : ∫ x in (0 : ℝ)..1 - y * (1 - z) - z, f [x, y * (1 - z), z] =
        (1 - z) * ((1 - y) * ∫ x in (0 : ℝ)..1, f [x * (1 - y) * (1 - z), y * (1 - z), z]) := by
      rw [show 1 - y * (1 - z) - z = (1 - y) * (1 - z) by ring, integral_scaled]
      simp only [← mul_assoc]
      ring
    refine (integral_scaled (fun y => ∫ x in (0 : ℝ)..1 - y - z, f [x, y, z]) (1 - z)).trans ?_
    simp only [hx, intervalIntegral.integral_const_mul]
    ring
  | hexahedron => simp only [integral, collapsed, weightedIntegral, pow_zero, one_mul]

theorem Cell.integral_eq_collapsed (cell : Cell) (f : List ℝ → ℝ) :
    cell.integral f = cell.collapsed weightedIntegral f := by
  induction cell generalizing f with
  | simple c => exact c.integral_eq_collapsed f
  | product a b ha hb => simp only [integral, collapsed, ha, hb]

end Integrals

end Variational
