import Variational.Proofs.ExactScalar
import Variational.Proofs.ExpansionShapes

/-! Values of the expansion sets. A point with enough coordinates has a value of every member; the first member of
every set is constant. -/
namespace Variational

open Result

theorem Scalar.sqrt_real (x : ℝ) : Scalar.sqrt x = √x := rfl

namespace Expansion

section Values

variable {α : Type} [Scalar α]

/-- The values of the members at a point, if it has enough coordinates. -/
def valuesAt (cell : ReferenceCell) (degree : ℕ) (point : List α) : List α :=
  match jets cell degree point with
  | .ok js => js.map (·.value)
  | .error _ => []

theorem dim_le_of_jets {cell : ReferenceCell} {degree : ℕ} {point : List α} {js : List (Jet α)}
    (h : jets cell degree point = .ok js) : cell.dim ≤ point.length := by
  rw [jets_eq_inOrder] at h
  cases cell with
  | point => exact Nat.zero_le _
  | interval =>
    match point with
    | _ :: _ => simp [ReferenceCell.dim]
  | triangle =>
    match point with
    | _ :: _ :: _ => simp [ReferenceCell.dim]
  | quadrilateral =>
    match point with
    | _ :: _ :: _ => simp [ReferenceCell.dim]
  | tetrahedron =>
    match point with
    | _ :: _ :: _ :: _ => simp [ReferenceCell.dim]
  | hexahedron =>
    match point with
    | _ :: _ :: _ :: _ => simp [ReferenceCell.dim]

theorem length_valuesAt {cell : ReferenceCell} {point : List α} (h : cell.dim ≤ point.length) (degree : ℕ) :
    (valuesAt cell degree point).length = count cell degree := by
  obtain ⟨js, hjs, hlength⟩ := jets_of_le h degree
  rw [valuesAt, hjs, List.length_map, hlength]

theorem values_eq_ok_iff {cell : ReferenceCell} {degree : ℕ} {points : List (List α)} {vs : List (List α)} :
    values cell degree points = .ok vs ↔
      (∀ p ∈ points, cell.dim ≤ p.length) ∧ vs = points.map (valuesAt cell degree) := by
  simp only [values, tabulate, bind_eq_ok, pure_eq_ok, mapM_eq_ok]
  constructor
  · rintro ⟨table, htable, rfl⟩
    induction htable with
    | nil => simp
    | @cons p js points table hjs _ ih =>
      have hvalues : valuesAt cell degree p = js.map (·.value) := by rw [valuesAt, hjs]
      refine ⟨List.forall_mem_cons.mpr ⟨dim_le_of_jets hjs, ih.1⟩, ?_⟩
      rw [List.map_cons, List.map_cons, hvalues, ih.2]
  · rintro ⟨hpoints, rfl⟩
    induction points with
    | nil => exact ⟨[], .nil, rfl⟩
    | cons p points ih =>
      rw [List.forall_mem_cons] at hpoints
      obtain ⟨js, hjs, -⟩ := jets_of_le hpoints.1 degree
      obtain ⟨table, htable, hvalues⟩ := ih hpoints.2
      refine ⟨js :: table, .cons hjs htable, ?_⟩
      rw [List.map_cons, List.map_cons, hvalues, valuesAt, hjs]

end Values

theorem directions_zero (n : ℕ) : directions (List.replicate n 0) = [] := by
  refine List.flatMap_eq_nil_iff.mpr fun x hx => ?_
  obtain ⟨m, d⟩ := x
  obtain rfl : m = 0 := List.eq_of_mem_replicate (List.fst_mem_of_mem_zipIdx hx)
  rfl

/-- The multi-index of the first derivative in a direction. -/
def unit (dim direction : ℕ) : List ℕ := (List.replicate dim 0).set direction 1

theorem directions_unit {cell : ReferenceCell} {d : ℕ} (hd : d < cell.dim) :
    directions (unit cell.dim d) = [d] := by
  cases cell <;> simp only [ReferenceCell.dim] at hd ⊢ <;> interval_cases d <;> rfl

/-- The constant Legendre polynomial. -/
theorem legendre_zero (x : ℝ) : legendre 0 x = (√(1 / 2), 0) := by
  simp [legendre, Jacobi.value_zero, Jacobi.derivative, Scalar.sqrt_real]

theorem legendreUpTo_eq_cons (degree : ℕ) (x : ℝ) : ∃ rest, legendreUpTo degree x = (√(1 / 2), 0) :: rest := by
  rw [legendreUpTo, List.range_succ_eq_map, List.map_cons, legendre_zero]
  exact ⟨_, rfl⟩

theorem triangleMember_zero (x y : ℝ) : triangleMember 0 0 x y = ⟨√(1 / 2), [0, 0]⟩ := by
  simp [triangleMember, Jacobi.homogeneous, Jacobi.homogeneousPair, Jacobi.value_zero, Jacobi.derivative,
    Scalar.sqrt_real]

theorem tetrahedronMember_zero (x y z : ℝ) :
    tetrahedronMember 0 0 0 x y z = ⟨√(1 / 2 * (3 / 2)), [0, 0, 0]⟩ := by
  simp [tetrahedronMember, Jacobi.homogeneous, Jacobi.homogeneousPair, Jacobi.value_zero, Jacobi.derivative,
    Scalar.sqrt_real]

/-- A constant that is not zero comes first in every expansion set. -/
theorem jets_first (cell : ReferenceCell) :
    ∃ x : ℝ, x ≠ 0 ∧ ∀ {degree : ℕ} {point : List ℝ} {js : List (Jet ℝ)}, jets cell degree point = .ok js →
      ∃ j rest, js = j :: rest ∧ j.value = x ∧ j.gradient = List.replicate cell.dim 0 := by
  have hroot : √(1 / 2 : ℝ) ≠ 0 := (Real.sqrt_pos.mpr (by norm_num)).ne'
  cases cell with
  | point =>
    refine ⟨1, one_ne_zero, fun h => ?_⟩
    rw [jets_eq_inOrder] at h
    obtain rfl := Except.ok.inj h
    exact ⟨_, _, rfl, Scalar.numeral_one, rfl⟩
  | interval =>
    refine ⟨√(1 / 2), hroot, fun {degree point js} h => ?_⟩
    obtain ⟨x, _, rfl⟩ := List.exists_cons_of_length_pos (dim_le_of_jets h)
    obtain ⟨rest, hrest⟩ := legendreUpTo_eq_cons degree x
    simp only [jets_eq_inOrder, inOrder, hrest, List.map_cons, Except.ok.injEq] at h
    exact ⟨_, _, h.symm, rfl, rfl⟩
  | triangle =>
    refine ⟨√(1 / 2), hroot, fun {degree point js} h => ?_⟩
    obtain ⟨x, y, _, rfl⟩ := exists_pair_of_length (dim_le_of_jets h)
    simp only [jets_eq_inOrder, inOrder, triangleModes, List.range_succ_eq_map, List.flatMap_cons, List.map_cons,
      List.cons_append, Nat.sub_zero, triangleMember_zero, Except.ok.injEq] at h
    exact ⟨_, _, h.symm, rfl, rfl⟩
  | quadrilateral =>
    refine ⟨√(1 / 2) * √(1 / 2), mul_ne_zero hroot hroot, fun {degree point js} h => ?_⟩
    obtain ⟨x, y, _, rfl⟩ := exists_pair_of_length (dim_le_of_jets h)
    obtain ⟨rest, hrest⟩ := legendreUpTo_eq_cons degree x
    obtain ⟨rest', hrest'⟩ := legendreUpTo_eq_cons degree y
    simp only [jets_eq_inOrder, inOrder, hrest, hrest', List.flatMap_cons, List.map_cons, List.cons_append, zero_mul,
      mul_zero, Except.ok.injEq] at h
    exact ⟨_, _, h.symm, rfl, rfl⟩
  | tetrahedron =>
    refine ⟨√(1 / 2 * (3 / 2)), (Real.sqrt_pos.mpr (by norm_num)).ne', fun {degree point js} h => ?_⟩
    obtain ⟨x, y, z, _, rfl⟩ := exists_triple_of_length (dim_le_of_jets h)
    simp only [jets_eq_inOrder, inOrder, tetrahedronModes, List.range_succ_eq_map, List.flatMap_cons, List.map_cons,
      List.cons_append, Nat.sub_zero, tetrahedronMember_zero, Except.ok.injEq] at h
    exact ⟨_, _, h.symm, rfl, rfl⟩
  | hexahedron =>
    refine ⟨√(1 / 2) * √(1 / 2) * √(1 / 2), mul_ne_zero (mul_ne_zero hroot hroot) hroot,
      fun {degree point js} h => ?_⟩
    obtain ⟨x, y, z, _, rfl⟩ := exists_triple_of_length (dim_le_of_jets h)
    obtain ⟨rest, hrest⟩ := legendreUpTo_eq_cons degree x
    obtain ⟨rest', hrest'⟩ := legendreUpTo_eq_cons degree y
    obtain ⟨rest'', hrest''⟩ := legendreUpTo_eq_cons degree z
    simp only [jets_eq_inOrder, inOrder, hrest, hrest', hrest'', List.flatMap_cons, List.map_cons, List.cons_append,
      zero_mul, mul_zero, Except.ok.injEq] at h
    exact ⟨_, _, h.symm, rfl, rfl⟩

end Expansion

end Variational
