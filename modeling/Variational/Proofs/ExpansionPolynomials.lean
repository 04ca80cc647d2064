import Variational.Proofs.CellPolynomials
import Variational.Proofs.ExpansionValues

/-! Members of the expansion sets are polynomials. The recurrences raise the degree by one in each step, on simplices
also in their homogenised form, so the members of a set and all their derivatives have at most the degree of the set. -/
namespace Variational

open Result

namespace Jacobi

variable {cell : Cell} {f t s : List ℝ → ℝ}

theorem isPolynomial_pair (a b : ℝ) (hf : cell.IsPolynomial 1 f) (k : ℕ) :
    cell.IsPolynomial k (fun x => (pair a b (f x) k).1) ∧
      cell.IsPolynomial (k + 1) fun x => (pair a b (f x) k).2 := by
  have hlinear (c d : ℝ) : cell.IsPolynomial 1 fun x => c + d * f x :=
    (Cell.IsPolynomial.const cell 1 c).add (hf.const_mul d)
  induction k with
  | zero => exact ⟨.const cell 0 _, hlinear _ _⟩
  | succ k ih =>
    have hfirst := ((hlinear (step a b (k + 2)).constant (step a b (k + 2)).slope).mul ih.2).mono
      (show 1 + (k + 1) ≤ k + 1 + 1 by omega)
    have hsecond := (ih.1.const_mul (step a b (k + 2)).previous).mono (show k ≤ k + 1 + 1 by omega)
    exact ⟨ih.2, hfirst.add hsecond⟩

theorem isPolynomial_value (a b : ℝ) (hf : cell.IsPolynomial 1 f) (k : ℕ) :
    cell.IsPolynomial k fun x => value a b k (f x) := (isPolynomial_pair a b hf k).1

theorem isPolynomial_derivative (a b : ℝ) (hf : cell.IsPolynomial 1 f) (k : ℕ) :
    cell.IsPolynomial k fun x => derivative a b k (f x) := by
  cases k with
  | zero => exact .const cell 0 _
  | succ k => exact ((isPolynomial_value _ _ hf k).const_mul _).mono (Nat.le_succ k)

/-- The value and both derivatives are polynomials. -/
structure IsPolynomial (cell : Cell) (n : ℕ) (J : List ℝ → Jet2 ℝ) : Prop where
  value : cell.IsPolynomial n fun x => (J x).value
  byT : cell.IsPolynomial n fun x => (J x).byT
  byS : cell.IsPolynomial n fun x => (J x).byS

theorem isPolynomial_homogeneousPair (a : ℝ) (ht : cell.IsPolynomial 1 t) (hs : cell.IsPolynomial 1 s) (k : ℕ) :
    IsPolynomial cell k (fun x => (homogeneousPair a (t x) (s x) k).1) ∧
      IsPolynomial cell (k + 1) fun x => (homogeneousPair a (t x) (s x) k).2 := by
  have hlinear (c d : ℝ) : cell.IsPolynomial 1 fun x => c * s x + d * (t x - s x) :=
    (hs.const_mul c).add ((ht.sub hs).const_mul d)
  have hsquare (c : ℝ) {n : ℕ} {g : List ℝ → ℝ} (hg : cell.IsPolynomial n g) :
      cell.IsPolynomial (n + 1 + 1) fun x => c * s x * s x * g x :=
    (((hs.const_mul c).mul hs).mul hg).mono (by omega)
  induction k with
  | zero => exact ⟨⟨.const cell 0 _, .const cell 0 _, .const cell 0 _⟩, hlinear _ _, .const cell 1 _, .const cell 1 _⟩
  | succ k ih =>
    obtain ⟨hp, hq⟩ := ih
    have hstep (c d : ℝ) {g : List ℝ → ℝ} (hg : cell.IsPolynomial (k + 1) g) :
        cell.IsPolynomial (k + 1 + 1) fun x => (c * s x + d * (t x - s x)) * g x :=
      ((hlinear c d).mul hg).mono (by omega)
    have hraise (c : ℝ) {g : List ℝ → ℝ} (hg : cell.IsPolynomial (k + 1) g) :
        cell.IsPolynomial (k + 1 + 1) fun x => c * g x := (hg.const_mul c).mono (Nat.le_succ _)
    refine ⟨hq, (hstep _ _ hq.value).add (hsquare _ hp.value), ?_, ?_⟩
    · exact ((hraise _ hq.value).add (hstep _ _ hq.byT)).add (hsquare _ hp.byT)
    · have hlast (c : ℝ) : cell.IsPolynomial (k + 1 + 1) fun x =>
          c * s x * (homogeneousPair a (t x) (s x) k).1.value +
            s x * s x * (homogeneousPair a (t x) (s x) k).1.byS :=
        (((hs.const_mul c).mul hp.value).mono (by omega)).add (((hs.mul hs).mul hp.byS).mono (by omega))
      exact ((hraise _ hq.value).add (hstep _ _ hq.byS)).add ((hlast _).const_mul _)

theorem isPolynomial_homogeneous (a : ℝ) (ht : cell.IsPolynomial 1 t) (hs : cell.IsPolynomial 1 s) (k : ℕ) :
    IsPolynomial cell k fun x => homogeneous a k (t x) (s x) := (isPolynomial_homogeneousPair a ht hs k).1

end Jacobi

namespace Expansion

section Members

/-- The members of a set, as functions of the point. -/
noncomputable def members : ReferenceCell → ℕ → List (List ℝ → Jet ℝ)
  | .point, _ => [fun _ => ⟨1, []⟩]
  | .interval, n => (List.range (n + 1)).map fun k x =>
    let p := legendre k (x.getD 0 0)
    ⟨p.1, [p.2]⟩
  | .triangle, n => (triangleModes n).map fun m x => triangleMember m.1 m.2 (x.getD 0 0) (x.getD 1 0)
  | .quadrilateral, n => (List.range (n + 1)).flatMap fun i => (List.range (n + 1)).map fun j x =>
    let p := legendre i (x.getD 0 0)
    let q := legendre j (x.getD 1 0)
    ⟨p.1 * q.1, [p.2 * q.1, p.1 * q.2]⟩
  | .tetrahedron, n => (tetrahedronModes n).map fun m x =>
    tetrahedronMember m.1 m.2.1 m.2.2 (x.getD 0 0) (x.getD 1 0) (x.getD 2 0)
  | .hexahedron, n => (List.range (n + 1)).flatMap fun i => (List.range (n + 1)).flatMap fun j =>
    (List.range (n + 1)).map fun k x =>
      let p := legendre i (x.getD 0 0)
      let q := legendre j (x.getD 1 0)
      let r := legendre k (x.getD 2 0)
      ⟨p.1 * q.1 * r.1, [p.2 * q.1 * r.1, p.1 * q.2 * r.1, p.1 * q.1 * r.2]⟩

theorem jets_eq {cell : ReferenceCell} {x : List ℝ} (hx : x.length = cell.dim) (n : ℕ) :
    jets cell n x = .ok ((members cell n).map (· x)) := by
  cases cell with
  | point => simp [jets_eq_inOrder, inOrder, members]
  | interval =>
    obtain ⟨a, rfl⟩ := List.length_eq_one_iff.mp hx
    simp [jets_eq_inOrder, inOrder, members, legendreUpTo, Function.comp_def]
  | triangle =>
    obtain ⟨a, b, rfl⟩ := List.length_eq_two.mp hx
    simp [jets_eq_inOrder, inOrder, members, Function.comp_def]
  | quadrilateral =>
    obtain ⟨a, b, rfl⟩ := List.length_eq_two.mp hx
    simp [jets_eq_inOrder, inOrder, members, legendreUpTo, Function.comp_def, List.map_flatMap, List.flatMap_map]
  | tetrahedron =>
    obtain ⟨a, b, c, rfl⟩ := List.length_eq_three.mp hx
    simp [jets_eq_inOrder, inOrder, members, Function.comp_def]
  | hexahedron =>
    obtain ⟨a, b, c, rfl⟩ := List.length_eq_three.mp hx
    simp [jets_eq_inOrder, inOrder, members, legendreUpTo, Function.comp_def, List.map_flatMap, List.flatMap_map]

theorem degree_of_mem_triangleModes {n : ℕ} {m : ℕ × ℕ} (h : m ∈ triangleModes n) : m.1 + m.2 ≤ n := by
  simp only [triangleModes, List.mem_flatMap, List.mem_map, List.mem_range] at h
  obtain ⟨k, hk, j, hj, rfl⟩ := h
  dsimp only
  omega

theorem degree_of_mem_tetrahedronModes {n : ℕ} {m : ℕ × ℕ × ℕ} (h : m ∈ tetrahedronModes n) :
    m.1 + m.2.1 + m.2.2 ≤ n := by
  simp only [tetrahedronModes, List.mem_flatMap, List.mem_map, List.mem_range] at h
  obtain ⟨k, hk, l, hl, j, hj, rfl⟩ := h
  dsimp only
  omega

/-- The value and all first derivatives are polynomials. -/
structure IsPolynomial (cell : Cell) (n : ℕ) (J : List ℝ → Jet ℝ) : Prop where
  value : cell.IsPolynomial n fun x => (J x).value
  slope : ∀ d, cell.IsPolynomial n fun x => (J x).gradient.getD d 0

/-- The Legendre polynomials and their derivatives. -/
theorem intervalPolynomial_legendre {n k : ℕ} (hk : k ≤ n) :
    Cell.IntervalPolynomial n (fun t => (legendre k t).1) ∧ Cell.IntervalPolynomial n fun t => (legendre k t).2 := by
  have hlinear (c d : ℝ) : (Cell.simple .interval).IsPolynomial 1 fun x => c * x.getD 0 0 - d :=
    ((Cell.IsPolynomial.coordinate (c := .interval) Nat.one_pos).const_mul c).sub (.const _ 1 d)
  constructor
  · exact ((Jacobi.isPolynomial_value _ _ (hlinear _ _) k).mono hk).mul_const _
  · exact (((Jacobi.isPolynomial_derivative _ _ (hlinear _ _) k).mono hk).const_mul _).mul_const _

theorem isPolynomial_triangleMember (i j : ℕ) :
    IsPolynomial ReferenceCell.triangle (i + j) fun x => triangleMember i j (x.getD 0 0) (x.getD 1 0) := by
  have hcoordinate (d : ℕ) (hd : d < 2) : (Cell.simple .triangle).IsPolynomial 1 fun x => x.getD d 0 :=
    .coordinate (c := .triangle) hd
  have hx := hcoordinate 0 (by decide)
  have hy := hcoordinate 1 (by decide)
  have hone (c : ℝ) := Cell.IsPolynomial.const (.simple .triangle) 1 c
  have ha (c d e : ℝ) := Jacobi.isPolynomial_homogeneous c (hx.const_mul d) ((hone e).sub hy) i
  have hb (c d e r : ℝ) := Jacobi.isPolynomial_value c r ((hy.const_mul d).sub (hone e)) j
  have hdb (c d e r : ℝ) := Jacobi.isPolynomial_derivative c r ((hy.const_mul d).sub (hone e)) j
  refine ⟨((ha _ _ _).value.mul (hb _ _ _ _)).mul_const _, fun d => ?_⟩
  match d with
  | 0 => exact (((ha _ _ _).byT.const_mul _).mul (hb _ _ _ _)).mul_const _
  | 1 =>
    exact (((ha _ _ _).byS.neg.mul (hb _ _ _ _)).add
      ((ha _ _ _).value.mul ((hdb _ _ _ _).const_mul _))).mul_const _
  | _ + 2 => exact .const _ _ _

theorem isPolynomial_tetrahedronMember (i j k : ℕ) :
    IsPolynomial ReferenceCell.tetrahedron (i + j + k) fun x =>
      tetrahedronMember i j k (x.getD 0 0) (x.getD 1 0) (x.getD 2 0) := by
  have hcoordinate (d : ℕ) (hd : d < 3) : (Cell.simple .tetrahedron).IsPolynomial 1 fun x => x.getD d 0 :=
    .coordinate (c := .tetrahedron) hd
  have hx := hcoordinate 0 (by decide)
  have hy := hcoordinate 1 (by decide)
  have hz := hcoordinate 2 (by decide)
  have hone (c : ℝ) := Cell.IsPolynomial.const (.simple .tetrahedron) 1 c
  have ha (p c e : ℝ) := Jacobi.isPolynomial_homogeneous p (hx.const_mul c) (((hone e).sub hy).sub hz) i
  have hb (p c e : ℝ) := Jacobi.isPolynomial_homogeneous p (hy.const_mul c) ((hone e).sub hz) j
  have hc (p q c e : ℝ) := Jacobi.isPolynomial_value p q ((hz.const_mul c).sub (hone e)) k
  have hdc (p q c e : ℝ) := Jacobi.isPolynomial_derivative p q ((hz.const_mul c).sub (hone e)) k
  refine ⟨(((ha _ _ _).value.mul (hb _ _ _).value).mul (hc _ _ _ _)).mul_const _, fun d => ?_⟩
  match d with
  | 0 => exact ((((ha _ _ _).byT.const_mul _).mul (hb _ _ _).value).mul (hc _ _ _ _)).mul_const _
  | 1 =>
    exact ((((ha _ _ _).byS.neg.mul (hb _ _ _).value).add
      (((ha _ _ _).value.const_mul _).mul (hb _ _ _).byT)).mul (hc _ _ _ _)).mul_const _
  | 2 =>
    exact (((((ha _ _ _).byS.neg.mul (hb _ _ _).value).mul (hc _ _ _ _)).sub
      (((ha _ _ _).value.mul (hb _ _ _).byS).mul (hc _ _ _ _))).add
      (((ha _ _ _).value.mul (hb _ _ _).value).mul ((hdc _ _ _ _).const_mul _))).mul_const _
  | _ + 3 => exact .const _ _ _

theorem IsPolynomial.mono {cell : Cell} {n m : ℕ} {J : List ℝ → Jet ℝ} (h : IsPolynomial cell n J) (hnm : n ≤ m) :
    IsPolynomial cell m J := ⟨h.value.mono hnm, fun d => (h.slope d).mono hnm⟩

/-- The members of a set have at most its degree, and so have their first derivatives. -/
theorem isPolynomial_of_mem_members {cell : ReferenceCell} {n : ℕ} {J : List ℝ → Jet ℝ} (h : J ∈ members cell n) :
    IsPolynomial cell n J := by
  cases cell with
  | point =>
    obtain rfl := List.mem_singleton.mp h
    exact ⟨.const _ n _, fun d => .const _ n _⟩
  | interval =>
    obtain ⟨k, hk, rfl⟩ := List.mem_map.mp h
    have hk : k ≤ n := Nat.le_of_lt_succ (List.mem_range.mp hk)
    refine ⟨(intervalPolynomial_legendre hk).1, fun d => ?_⟩
    match d with
    | 0 => exact (intervalPolynomial_legendre hk).2
    | _ + 1 => exact .const _ n _
  | triangle =>
    obtain ⟨m, hm, rfl⟩ := List.mem_map.mp h
    exact (isPolynomial_triangleMember m.1 m.2).mono (degree_of_mem_triangleModes hm)
  | quadrilateral =>
    simp only [members, List.mem_flatMap, List.mem_map, List.mem_range, Nat.lt_succ_iff] at h
    obtain ⟨i, hi, j, hj, rfl⟩ := h
    obtain ⟨hp, hp'⟩ := intervalPolynomial_legendre hi
    obtain ⟨hq, hq'⟩ := intervalPolynomial_legendre hj
    refine ⟨hp.quadrilateral hq, fun d => ?_⟩
    match d with
    | 0 => exact hp'.quadrilateral hq
    | 1 => exact hp.quadrilateral hq'
    | _ + 2 => exact .const _ n _
  | tetrahedron =>
    obtain ⟨m, hm, rfl⟩ := List.mem_map.mp h
    exact (isPolynomial_tetrahedronMember m.1 m.2.1 m.2.2).mono (degree_of_mem_tetrahedronModes hm)
  | hexahedron =>
    simp only [members, List.mem_flatMap, List.mem_map, List.mem_range, Nat.lt_succ_iff] at h
    obtain ⟨i, hi, j, hj, k, hk, rfl⟩ := h
    obtain ⟨hp, hp'⟩ := intervalPolynomial_legendre hi
    obtain ⟨hq, hq'⟩ := intervalPolynomial_legendre hj
    obtain ⟨hr, hr'⟩ := intervalPolynomial_legendre hk
    refine ⟨hp.hexahedron hq hr, fun d => ?_⟩
    match d with
    | 0 => exact hp'.hexahedron hq hr
    | 1 => exact hp.hexahedron hq' hr
    | 2 => exact hp.hexahedron hq hr'
    | _ + 3 => exact .const _ n _

end Members

/-- Functions that give the table of a set at all points of the cell. -/
structure Tabulates (cell : ReferenceCell) (n : ℕ) (table : List (List ℝ) → Result (List (List ℝ)))
    (G : List (List ℝ → ℝ)) : Prop where
  eq : ∀ points, (∀ x ∈ points, x.length = cell.dim) → table points = .ok (points.map fun x => G.map (· x))
  polynomial : ∀ g ∈ G, (Cell.simple cell).IsPolynomial n g

theorem tabulate_eq {cell : ReferenceCell} {points : List (List ℝ)} (h : ∀ x ∈ points, x.length = cell.dim) (n : ℕ) :
    tabulate cell n points = .ok (points.map fun x => (members cell n).map (· x)) :=
  mapM_of_forall fun x hx => jets_eq (h x hx) n

theorem values_tabulates (cell : ReferenceCell) (n : ℕ) :
    Tabulates cell n (values cell n) ((members cell n).map fun J x => (J x).value) := by
  refine ⟨fun points hpoints => ?_, List.forall_mem_map.mpr fun J hJ => (isPolynomial_of_mem_members hJ).value⟩
  rw [values, tabulate_eq hpoints, ok_bind]
  simp only [List.map_map, Function.comp_def]
  rfl

theorem slopes_tabulates {cell : ReferenceCell} {d : ℕ} (hd : d < cell.dim) (n : ℕ) :
    Tabulates cell n (slopes cell n d) ((members cell n).map fun J x => (J x).gradient.getD d 0) := by
  refine ⟨fun points hpoints => ?_, List.forall_mem_map.mpr fun J hJ => (isPolynomial_of_mem_members hJ).slope d⟩
  rw [slopes, if_pos hd, tabulate_eq hpoints, ok_bind]
  simp only [List.map_map, Function.comp_def, Scalar.numeral_zero]
  rfl

/-- Combinations of polynomials with numbers as coefficients. -/
theorem isPolynomial_dot {cell : Cell} {n : ℕ} {G : List (List ℝ → ℝ)} (hG : ∀ g ∈ G, cell.IsPolynomial n g)
    (row : List ℝ) : cell.IsPolynomial n fun x => Scalar.dot row (G.map (· x)) := by
  have hterms := Cell.IsPolynomial.sum (row.zip G) fun p hp => (hG p.2 (List.of_mem_zip hp).2).const_mul p.1
  refine hterms.congr fun x _ => ?_
  rw [Scalar.dot, Scalar.sum_eq, List.zipWith_map_right, ← List.map_uncurry_zip_eq_zipWith]
  rfl

/-- If a derivative can be tabulated at some points, it can be at all, and it has at most the degree of the set. -/
theorem along_tabulates {cell : ReferenceCell} {n : ℕ} {points : List (List ℝ)} {ds : List ℕ} {table : List (List ℝ)}
    (h : along cell n points ds = .ok table) : ∃ G, Tabulates cell n (fun ps => along cell n ps ds) G := by
  induction ds generalizing table with
  | nil => exact ⟨_, values_tabulates cell n⟩
  | cons d ds ih =>
    cases ds with
    | nil =>
      have hd : d < cell.dim := by
        by_contra hnot
        rw [along, slopes, if_neg hnot] at h
        cases h
      exact ⟨_, slopes_tabulates hd n⟩
    | cons e ds =>
      simp only [along, bind_eq_ok, pure_eq_ok] at h
      obtain ⟨inner, hinner, matrix, hmatrix, -⟩ := h
      obtain ⟨G, hG⟩ := ih hinner
      refine ⟨matrix.map fun row x => Scalar.dot row (G.map (· x)), fun ps hps => ?_,
        List.forall_mem_map.mpr fun row _ => isPolynomial_dot hG.polynomial row⟩
      rw [along, hG.eq ps hps, ok_bind, hmatrix, ok_bind]
      · simp only [List.map_map, Function.comp_def]
        rfl
      · nofun

end Expansion
end Variational
