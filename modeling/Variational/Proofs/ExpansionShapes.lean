import Variational.Polynomial.Derivative
import Variational.Proofs.ExpansionTables
import Variational.Proofs.RegionRules

/-! Sizes of expansion sets. Every point of a cell gives a value and a derivative in each direction of all
members of a set, and every member has a place in the sets of higher degree. -/
namespace Variational

open Result

theorem LinearSystem.length_columns {β : Type} {n : ℕ} {rows : List (List β)}
    (h : ∀ row ∈ rows, row.length = n) : (columns n rows).length = n := by
  induction rows with
  | nil => exact List.length_replicate
  | cons row rows ih =>
    rw [List.forall_mem_cons] at h
    rw [columns, List.length_zipWith, h.1, ih h.2, Nat.min_self]

namespace Expansion

variable {α : Type} [Scalar α]

theorem jets_safe (cell : ReferenceCell) (degree : ℕ) {p : List α} (h : cell.dim ≤ p.length) :
    Safe (·.length = count cell degree) (jets cell degree p) := by
  obtain ⟨js, hjs, hlength⟩ := jets_of_le h degree
  rw [hjs]
  exact hlength

/-- A row for each point, with an entry for each member. -/
structure Rows (cell : ReferenceCell) (degree numPoints : ℕ) {β : Type} (rows : List (List β)) : Prop where
  points : rows.length = numPoints
  members : ∀ row ∈ rows, row.length = count cell degree

theorem Rows.map {cell : ReferenceCell} {degree numPoints : ℕ} {β γ : Type} {rows : List (List β)}
    (h : Rows cell degree numPoints rows) (f : β → γ) :
    Rows cell degree numPoints (rows.map (·.map f)) := by
  refine ⟨by rw [List.length_map, h.points], List.forall_mem_map.mpr fun row hrow => ?_⟩
  rw [List.length_map, h.members row hrow]

section Points

variable {cell : ReferenceCell} {points : List (List α)} (h : ∀ p ∈ points, cell.dim ≤ p.length)
include h

theorem tabulate_safe (degree : ℕ) :
    Safe (Rows cell degree points.length) (tabulate cell degree points) := by
  have hjets := Safe.mapM_each fun p hp => jets_safe cell degree (h p hp)
  exact hjets.mono fun table htable => ⟨htable.1, htable.2⟩

theorem values_safe (degree : ℕ) : Safe (Rows cell degree points.length) (values cell degree points) :=
  (tabulate_safe h degree).bind fun _ htable => .pure (htable.map _)

theorem slopes_safe (degree : ℕ) {direction : ℕ} (hdirection : direction < cell.dim) :
    Safe (Rows cell degree points.length) (slopes cell degree direction points) := by
  unfold slopes
  rw [if_pos hdirection]
  exact (tabulate_safe h degree).bind fun _ htable => .pure (htable.map _)

end Points

theorem derivativeMatrix_safe {cell : ReferenceCell} (degree : ℕ) {direction : ℕ}
    (hdirection : direction < cell.dim) :
    Safe (fun _ => True) (derivativeMatrix cell degree direction : Result (List (List α))) := by
  unfold derivativeMatrix
  refine (Rule.onReference_safe cell (degree + 1)).bind fun rule hrule => ?_
  have hpoints : ∀ p ∈ rule.points, cell.dim ≤ p.length := fun p hp => (hrule.coordinates p hp).ge
  refine (values_safe hpoints degree).bind fun psi _ => ?_
  refine (slopes_safe hpoints degree hdirection).bind fun dpsi _ => ?_
  dsimp only
  split
  · trivial
  · exact Error.noConfusion

theorem along_safe {cell : ReferenceCell} {points : List (List α)} (h : ∀ p ∈ points, cell.dim ≤ p.length)
    (degree : ℕ) {ds : List ℕ} (hds : ∀ d ∈ ds, d < cell.dim) :
    Safe (·.length = points.length) (along cell degree points ds) := by
  induction ds with
  | nil => exact (values_safe h degree).mono fun _ hrows => hrows.points
  | cons d ds ih =>
    rw [List.forall_mem_cons] at hds
    cases ds with
    | nil => exact (slopes_safe h degree hds.1).mono fun _ hrows => hrows.points
    | cons d' ds =>
      refine (ih hds.2).bind fun inner hinner => ?_
      refine (derivativeMatrix_safe degree hds.1).bind fun matrix _ => ?_
      exact .pure (by rw [List.length_map, hinner])

theorem lt_of_mem_directions {derivative : List ℕ} {d : ℕ} (h : d ∈ directions derivative) :
    d < derivative.length := by
  obtain ⟨⟨n, d'⟩, hmem, hd⟩ := List.mem_flatMap.mp h
  obtain rfl := List.eq_of_mem_replicate hd
  rw [List.mem_zipIdx_iff_getElem?] at hmem
  exact (List.getElem?_eq_some_iff.mp hmem).1

theorem derivative_safe {cell : ReferenceCell} {points : List (List α)}
    (h : ∀ p ∈ points, cell.dim ≤ p.length) (degree : ℕ) {derivative : List ℕ}
    (hlength : derivative.length = cell.dim) :
    Safe (·.length = points.length) (Expansion.derivative cell degree derivative points) :=
  along_safe h degree fun _ hd => hlength ▸ lt_of_mem_directions hd

/-- The coefficients of a projection: a row for each component with an entry for each member. -/
theorem project_safe (cell : ReferenceCell) (degree : ℕ) {valueSize : ℕ} {f : List α → List α}
    (hf : ∀ p : List α, p.length = cell.dim → (f p).length ≤ valueSize) :
    Safe (Rows cell degree valueSize) (project cell degree valueSize f) := by
  unfold project
  refine (Rule.onReference_safe cell (degree + 2)).bind fun rule hrule => ?_
  have hpoints : ∀ p ∈ rule.points, cell.dim ≤ p.length := fun p hp => (hrule.coordinates p hp).ge
  refine (values_safe hpoints degree).bind fun table htable => ?_
  have himages : ¬ (rule.points.map f).any (valueSize < ·.length) = true := by
    simp only [List.any_map, List.any_eq_true, not_exists, not_and]
    intro p hp
    simpa using hf p (hrule.coordinates p hp)
  rw [if_neg himages]
  refine .pure ⟨by simp, List.forall_mem_map.mpr fun c _ => ?_⟩
  rw [List.length_map, LinearSystem.length_columns htable.members]

section Embedding

theorem count_mono (cell : ReferenceCell) {degree target : ℕ} (h : degree ≤ target) :
    count cell degree ≤ count cell target := by
  cases cell <;> simp only [count] <;> gcongr

theorem length_embedding (cell : ReferenceCell) (degree target : ℕ) :
    (embedding cell degree target).length = count cell degree := by
  cases cell <;> simp [embedding, count, List.length_flatMap, Nat.mul_assoc]

/-- Every member has a place in the set of a higher degree. -/
theorem lt_of_mem_embedding {cell : ReferenceCell} {degree target i : ℕ} (h : degree ≤ target)
    (hi : i ∈ embedding cell degree target) : i < count cell target := by
  -- Both factors of a place stay below the number of degrees in one variable.
  have hplace {a b m n : ℕ} (ha : a < m) (hb : b < n) : a * n + b < m * n := by
    calc a * n + b < (a + 1) * n := by rw [Nat.succ_mul]; omega
      _ ≤ m * n := Nat.mul_le_mul_right n ha
  have hsimplex (hi : i ∈ List.range (count cell degree)) : i < count cell target :=
    (List.mem_range.mp hi).trans_le (count_mono cell h)
  cases cell with
  | quadrilateral =>
    simp only [embedding, List.mem_flatMap, List.mem_map, List.mem_range] at hi
    obtain ⟨a, ha, b, hb, rfl⟩ := hi
    exact hplace (by omega) (by omega)
  | hexahedron =>
    simp only [embedding, List.mem_flatMap, List.mem_map, List.mem_range] at hi
    obtain ⟨a, ha, b, hb, c, hc, rfl⟩ := hi
    exact hplace (hplace (by omega) (by omega)) (by omega)
  | _ => exact hsimplex hi

end Embedding
end Expansion
end Variational
