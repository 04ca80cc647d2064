import Variational.Proofs.ExpansionValues
import Variational.Proofs.MatrixInverse
import Variational.Proofs.SingleCell
import Variational.Element.Lagrange
import Variational.Element.Time

/-! Dual bases. The basis that is made from a span and functionals is dual to the functionals, and it reproduces
the span. Elements with point values as dofs are therefore nodal, and as constants are in their span, their basis
functions add up to one. -/
namespace Variational

open Result

/-- A functional on the function whose components have the given coefficients. -/
def Functional.on {α : Type} [Scalar α] (f : Functional α) (cell : ReferenceCell) (degree : ℕ)
    (coefficients : List (List α)) : α :=
  Scalar.dot f.weights (coefficients.map fun row => Scalar.dot row (Expansion.valuesAt cell degree f.point))

namespace PolynomialElement

section Coefficients

theorem sum_scaled (w : ℝ) (row values : List ℝ) :
    (List.zipWith (fun c v => w * c * v) row values).sum = w * Scalar.dot row values := by
  rw [Scalar.dot, Scalar.sum_eq]
  induction row generalizing values with
  | nil => simp
  | cons c row ih =>
    cases values with
    | nil => simp
    | cons v values =>
      simp only [List.zipWith_cons_cons, List.sum_cons, ih]
      ring

/-- The weights may be multiplied in before or after the sum over the members. -/
theorem applyFunctional_eq (f : Functional ℝ) (values : List ℝ) (member : List (List ℝ)) :
    applyFunctional f values member = Scalar.dot f.weights (member.map fun row => Scalar.dot row values) := by
  rw [applyFunctional, Scalar.dot, Scalar.sum_eq, Scalar.sum_eq, List.sum_flatten]
  congr 1
  rw [List.map_zipWith, List.zipWith_map_right]
  simp only [sum_scaled]

/-- One row more; a row of weight zero changes nothing. -/
theorem addRow_spec {n : ℕ} (w : ℝ) {acc row : List ℝ} (hacc : acc.length = n) (hrow : row.length = n) :
    let total := if w == 0 then acc else List.zipWith (fun a x => a + w * x) acc row
    total.length = n ∧ ∀ k, total.getD k 0 = acc.getD k 0 + w * row.getD k 0 := by
  dsimp only
  split_ifs with hw
  · have hzero : w = 0 := of_decide_eq_true hw
    exact ⟨hacc, fun k => by rw [hzero]; ring⟩
  · refine ⟨by rw [List.length_zipWith, hacc, hrow, Nat.min_self], fun k => ?_⟩
    have hsub := LinearSystem.getD_zipWith_sub_mul (-w) (hacc.trans hrow.symm) k
    simpa only [neg_mul, sub_neg_eq_add] using hsub

/-- A combination of rows, by entries. -/
theorem combine_spec {n : ℕ} (weights : List ℝ) {rows : List (List ℝ)} (hrows : ∀ row ∈ rows, row.length = n) :
    (combine n weights rows).length = n ∧
      ∀ k, (combine n weights rows).getD k 0 = LinearSystem.side weights rows k := by
  suffices hfold : ∀ acc : List ℝ, acc.length = n →
      let total := (List.zip weights rows).foldl (fun acc wr =>
        if wr.1 == 0 then acc else List.zipWith (fun a x => a + wr.1 * x) acc wr.2) acc
      total.length = n ∧ ∀ k, total.getD k 0 = acc.getD k 0 + LinearSystem.side weights rows k by
    obtain ⟨hlength, hvalue⟩ := hfold (List.replicate n 0) (by simp)
    refine ⟨by simpa [combine] using hlength, fun k => ?_⟩
    have hzero : (List.replicate n (0 : ℝ)).getD k 0 = 0 := by simp
    rw [← zero_add (LinearSystem.side weights rows k), ← hzero, ← hvalue k]
    simp [combine]
  induction weights generalizing rows with
  | nil => simp [LinearSystem.side]
  | cons w weights ih =>
    intro acc hacc
    cases rows with
    | nil => simp [LinearSystem.side, hacc]
    | cons row rows =>
      rw [List.forall_mem_cons] at hrows
      obtain ⟨hlength, hvalue⟩ := addRow_spec w hacc hrows.1
      obtain ⟨hlength', hvalue'⟩ := ih hrows.2 _ hlength
      refine ⟨hlength', fun k => ?_⟩
      rw [List.zip_cons_cons, List.foldl_cons, hvalue' k, hvalue k, LinearSystem.side_cons]
      ring

end Coefficients

/-- The coefficient of a function in a list, for a component and a member of the expansion set. -/
def coefficient (functions : List (List (List ℝ))) (i c k : ℕ) : ℝ :=
  ((functions.getD i []).getD c []).getD k 0

/-- Each function has a row for each component, with an entry for each member of the expansion set. -/
def Full (size n : ℕ) (functions : List (List (List ℝ))) : Prop :=
  ∀ member ∈ functions, member.length = size ∧ ∀ row ∈ member, row.length = n

theorem Full.getD {size n : ℕ} {functions : List (List (List ℝ))} (h : Full size n functions) {i : ℕ}
    (hi : i < functions.length) :
    (functions.getD i []).length = size ∧ ∀ c < size, ((functions.getD i []).getD c []).length = n := by
  rw [List.getD_eq_getElem _ _ hi]
  obtain ⟨hlength, hrows⟩ := h _ (List.getElem_mem hi)
  refine ⟨hlength, fun c hc => ?_⟩
  rw [← hlength] at hc
  rw [List.getD_eq_getElem _ _ hc]
  exact hrows _ (List.getElem_mem hc)

/-- A functional is a weighted sum over components and members. -/
theorem on_eq_sum {cell : ReferenceCell} {degree size : ℕ} {f : Functional ℝ} (hweights : f.weights.length = size)
    (hpoint : cell.dim ≤ f.point.length)
    {functions : List (List (List ℝ))} (h : Full size (Expansion.count cell degree) functions) {i : ℕ}
    (hi : i < functions.length) :
    f.on cell degree (functions.getD i []) = ∑ c ∈ Finset.range size,
      ∑ k ∈ Finset.range (Expansion.count cell degree),
        f.weights.getD c 0 * (coefficient functions i c k * (Expansion.valuesAt cell degree f.point).getD k 0) := by
  obtain ⟨hsize, hrows⟩ := h.getD hi
  rw [Functional.on, Scalar.dot_eq _ _ (by rw [List.length_map, hsize, hweights]), hweights]
  refine Finset.sum_congr rfl fun c hc => ?_
  rw [Finset.mem_range] at hc
  have hrow : ((functions.getD i []).map fun row =>
      Scalar.dot row (Expansion.valuesAt cell degree f.point)).getD c 0 =
      Scalar.dot ((functions.getD i []).getD c []) (Expansion.valuesAt cell degree f.point) := by
    have hc' : c < (functions.getD i []).length := by rwa [hsize]
    rw [List.getD_eq_getElem _ _ (by simpa using hc'), List.getElem_map, List.getD_eq_getElem _ _ hc']
  rw [hrow, Scalar.dot_eq _ _ (by rw [hrows c hc, Expansion.length_valuesAt hpoint]), hrows c hc, Finset.mul_sum]
  rfl

/-- The functionals on the members of a span, by member and functional. -/
noncomputable def pairings (cell : ReferenceCell) (degree : ℕ) (span : List (List (List ℝ)))
    (functionals : List (Functional ℝ)) : List (List ℝ) :=
  span.map fun member => functionals.map fun f => f.on cell degree member

theorem map_applyFunctional (cell : ReferenceCell) (degree : ℕ) (span : List (List (List ℝ)))
    (functionals : List (Functional ℝ)) :
    (span.map fun member => List.zipWith (fun f v => applyFunctional f v member) functionals
      ((functionals.map (·.point)).map (Expansion.valuesAt cell degree))) = pairings cell degree span functionals := by
  refine List.map_congr_left fun member _ => ?_
  rw [List.map_map, List.zipWith_map_right, List.zipWith_self]
  exact List.map_congr_left fun f _ => applyFunctional_eq f _ member

/-- What is known of a dual basis: it combines the span with the inverse of the matrix of the functionals. -/
structure Combines (cell : ReferenceCell) (degree size : ℕ) (span : List (List (List ℝ)))
    (functionals : List (Functional ℝ)) (inverse : List (List ℝ)) (basis : List (List (List ℝ))) : Prop where
  number : functionals.length = span.length
  weights : ∀ f ∈ functionals, f.weights.length = size
  points : ∀ f ∈ functionals, cell.dim ≤ f.point.length
  full : Full size (Expansion.count cell degree) span
  square : LinearSystem.Square span.length inverse
  mul_eq_one : LinearSystem.toMatrix span.length (pairings cell degree span functionals) *
    LinearSystem.toMatrix span.length inverse = 1
  eq_map : basis = inverse.map fun weights => (List.range size).map fun c =>
    combine (Expansion.count cell degree) weights (span.map fun member => member.getD c [])

theorem dualBasis_combines {family : String} {cell : ReferenceCell} {degree size : ℕ}
    {span : List (List (List ℝ))} {functionals : List (Functional ℝ)} {embeddedDegree : ℕ}
    {basis : List (List (List ℝ))}
    (h : dualBasis family cell degree size span functionals embeddedDegree = .ok basis)
    (hspan : Full size (Expansion.count cell embeddedDegree) span) :
    ∃ inverse, Combines cell embeddedDegree size span functionals inverse basis := by
  obtain ⟨hnumber, hweights, -, values, inverse, hvalues, hinverse, hbasis⟩ := dualBasis_ok h
  obtain ⟨hpoints, rfl⟩ := Expansion.values_eq_ok_iff.mp hvalues
  have hsquare : LinearSystem.Square span.length (pairings cell embeddedDegree span functionals) := by
    refine ⟨List.length_map _, List.forall_mem_map.mpr fun member _ => ?_⟩
    rw [List.length_map, hnumber]
  rw [map_applyFunctional] at hinverse
  obtain ⟨hsquare', hone⟩ := LinearSystem.inverse_spec hsquare hinverse
  exact ⟨inverse, hnumber, hweights, fun f hf => hpoints _ (List.mem_map_of_mem hf), hspan, hsquare', hone, hbasis⟩

section Duality

variable {cell : ReferenceCell} {degree size : ℕ} {span : List (List (List ℝ))}
  {functionals : List (Functional ℝ)} {inverse : List (List ℝ)} {basis : List (List (List ℝ))}

theorem Combines.length_basis (h : Combines cell degree size span functionals inverse basis) :
    basis.length = span.length := by
  rw [h.eq_map, List.length_map, h.square.rows]

theorem length_getD_of_full {n : ℕ} (hspan : Full size n span) {c : ℕ} (hc : c < size) :
    ∀ row ∈ span.map fun member => member.getD c [], row.length = n := by
  refine List.forall_mem_map.mpr fun member hmember => ?_
  obtain ⟨hsize, hrows⟩ := hspan member hmember
  rw [← hsize] at hc
  rw [List.getD_eq_getElem _ _ hc]
  exact hrows _ (List.getElem_mem hc)

theorem Combines.full_basis (h : Combines cell degree size span functionals inverse basis) :
    Full size (Expansion.count cell degree) basis := by
  rw [h.eq_map]
  refine List.forall_mem_map.mpr fun weights _ => ⟨by simp, List.forall_mem_map.mpr fun c hc => ?_⟩
  exact (combine_spec weights (length_getD_of_full h.full (List.mem_range.mp hc))).1

/-- A basis function is a combination of the span. -/
theorem Combines.coefficient_basis (h : Combines cell degree size span functionals inverse basis) {i c : ℕ}
    (hi : i < span.length) (hc : c < size) (k : ℕ) :
    coefficient basis i c k =
      ∑ j : Fin span.length, LinearSystem.entry inverse i j * coefficient span j c k := by
  have hi' : i < inverse.length := by rwa [h.square.rows]
  have hrow : (basis.getD i []).getD c [] = combine (Expansion.count cell degree) (inverse.getD i [])
      (span.map fun member => member.getD c []) := by
    simp [h.eq_map, List.getD_eq_getElem?_getD, hi', hc]
  have hweights : (inverse.getD i []).length = span.length := by
    rw [List.getD_eq_getElem _ _ hi']
    exact h.square.columns _ (List.getElem_mem hi')
  rw [coefficient, hrow, (combine_spec _ (length_getD_of_full h.full hc)).2,
    LinearSystem.side_eq_sum hweights (List.length_map _)]
  refine Finset.sum_congr rfl fun j _ => ?_
  simp [LinearSystem.entry, coefficient, List.getD_eq_getElem?_getD]

/-- Functionals are linear. -/
theorem Combines.on_basis (h : Combines cell degree size span functionals inverse basis) {f : Functional ℝ}
    (hf : f ∈ functionals) {i : ℕ} (hi : i < span.length) :
    f.on cell degree (basis.getD i []) =
      ∑ j : Fin span.length, LinearSystem.entry inverse i j * f.on cell degree (span.getD j []) := by
  rw [on_eq_sum (h.weights f hf) (h.points f hf) h.full_basis (h.length_basis ▸ hi)]
  simp only [on_eq_sum (h.weights f hf) (h.points f hf) h.full (Fin.isLt _), Finset.mul_sum]
  rw [Finset.sum_comm (s := Finset.univ)]
  refine Finset.sum_congr rfl fun c hc => ?_
  rw [Finset.sum_comm (s := Finset.univ)]
  refine Finset.sum_congr rfl fun k _ => ?_
  rw [h.coefficient_basis hi (Finset.mem_range.mp hc), Finset.sum_mul, Finset.mul_sum]
  exact Finset.sum_congr rfl fun j _ => by ring

theorem toMatrix_pairings (h : Combines cell degree size span functionals inverse basis)
    (j l : Fin span.length) :
    LinearSystem.toMatrix span.length (pairings cell degree span functionals) j l =
      (functionals.get (l.cast h.number.symm)).on cell degree (span.getD j []) := by
  have hl : (l : ℕ) < functionals.length := by rw [h.number]; exact l.isLt
  simp [LinearSystem.toMatrix, LinearSystem.entry, pairings, List.getD_eq_getElem?_getD, hl]

/-- Each functional is one on its own basis function and zero on the others. -/
theorem Combines.dual (h : Combines cell degree size span functionals inverse basis) (i j : Fin span.length) :
    (functionals.get (i.cast h.number.symm)).on cell degree (basis.getD j []) = if i = j then 1 else 0 := by
  have hcomm : LinearSystem.toMatrix span.length inverse *
      LinearSystem.toMatrix span.length (pairings cell degree span functionals) = 1 :=
    mul_eq_one_comm.mp h.mul_eq_one
  have hone := congrFun₂ hcomm j i
  rw [Matrix.mul_apply, Matrix.one_apply] at hone
  simp only [toMatrix_pairings h] at hone
  rw [h.on_basis (List.get_mem _ _) j.isLt]
  exact hone.trans (if_congr eq_comm rfl rfl)

/-- A member of the span is the combination of the basis functions with the functionals on it. -/
theorem Combines.reproduces (h : Combines cell degree size span functionals inverse basis)
    (j : Fin span.length) {c : ℕ} (hc : c < size) (k : ℕ) :
    coefficient span j c k = ∑ i : Fin span.length,
      (functionals.get (i.cast h.number.symm)).on cell degree (span.getD j []) * coefficient basis i c k := by
  have hrows (l : Fin span.length) :=
    congrFun₂ h.mul_eq_one j l
  simp only [Matrix.mul_apply, toMatrix_pairings h] at hrows
  calc coefficient span j c k
    _ = ∑ l : Fin span.length, (1 : Matrix (Fin span.length) (Fin span.length) ℝ) j l *
          coefficient span l c k := by
      simp [Matrix.one_apply]
    _ = ∑ l : Fin span.length, ∑ i : Fin span.length,
          (functionals.get (i.cast h.number.symm)).on cell degree (span.getD j []) *
            LinearSystem.toMatrix span.length inverse i l * coefficient span l c k := by
      simp only [← hrows, Finset.sum_mul]
    _ = _ := by
      rw [Finset.sum_comm]
      refine Finset.sum_congr rfl fun i _ => ?_
      rw [h.coefficient_basis i.isLt hc, Finset.mul_sum]
      exact Finset.sum_congr rfl fun l _ => mul_assoc _ _ _

end Duality

/-- The values of the basis functions at points. -/
theorem tabulate_values (e : PolynomialElement ℝ) {points : List (List ℝ)}
    (h : ∀ p ∈ points, e.cell.dim ≤ p.length) :
    e.tabulate (List.replicate e.cell.dim 0) points = .ok (e.coefficients.map (·.map fun row =>
      points.map fun p => Scalar.dot row (Expansion.valuesAt e.cell e.embeddedDegree p))) := by
  have hvalues : Expansion.derivative e.cell e.embeddedDegree (List.replicate e.cell.dim 0) points =
      .ok (points.map (Expansion.valuesAt e.cell e.embeddedDegree)) := by
    rw [Expansion.derivative, Expansion.directions_zero]
    exact Expansion.values_eq_ok_iff.mpr ⟨h, rfl⟩
  simp only [tabulate, hvalues, ok_bind, List.map_map]
  rfl

/-- The first derivatives of the basis functions at a point. -/
theorem tabulate_slopes (e : PolynomialElement ℝ) {point : List ℝ} {js : List (Expansion.Jet ℝ)}
    (hjs : Expansion.jets e.cell e.embeddedDegree point = .ok js) {d : ℕ} (hd : d < e.cell.dim) :
    e.tabulate (Expansion.unit e.cell.dim d) [point] = .ok (e.coefficients.map (·.map fun row =>
      [Scalar.dot row (js.map (·.gradient.getD d 0))])) := by
  have hslopes : Expansion.derivative e.cell e.embeddedDegree (Expansion.unit e.cell.dim d) [point] =
      .ok [js.map (·.gradient.getD d 0)] := by
    rw [Expansion.derivative, Expansion.directions_unit hd]
    simp [Expansion.along, Expansion.slopes, if_pos hd, Expansion.tabulate, hjs]
  simp only [tabulate, hslopes]
  rfl

/-- The functionals on all basis functions, from their tabulated components. -/
theorem Combines.tabulated {e : PolynomialElement ℝ} {size : ℕ} {span : List (List (List ℝ))}
    {functionals : List (Functional ℝ)} {inverse : List (List ℝ)}
    (h : Combines e.cell e.embeddedDegree size span functionals inverse e.coefficients) {i : ℕ}
    {f : Functional ℝ} (hf : functionals[i]? = some f) :
    ∃ table, e.tabulate (List.replicate e.cell.dim 0) [f.point] = .ok table ∧
      table.map (fun φ => Scalar.dot f.weights (φ.map (·.headD 0))) =
        (List.range functionals.length).map fun j => if i = j then 1 else 0 := by
  have hmem := List.mem_of_getElem? hf
  obtain ⟨hi, rfl⟩ := List.getElem?_eq_some_iff.mp hf
  refine ⟨_, e.tabulate_values (List.forall_mem_singleton.mpr (h.points _ hmem)), ?_⟩
  apply List.ext_getElem
  · simp [h.length_basis, h.number]
  · intro j hj _
    have hj' : j < span.length := by simpa [h.length_basis] using hj
    have hdual := h.dual ⟨i, h.number ▸ hi⟩ ⟨j, hj'⟩
    have hbasis : j < e.coefficients.length := by rwa [h.length_basis]
    simp only [List.getD_eq_getElem _ _ hbasis, Fin.mk.injEq] at hdual
    simpa [Functional.on, List.map_map, Function.comp_def] using hdual

/-- The basis functions are one at their own node and zero at the others. They add up to one at every point, and
their first derivatives to zero. -/
structure Nodal (e : PolynomialElement ℝ) (nodes : List (List ℝ)) : Prop where
  values : e.tabulate (List.replicate e.cell.dim 0) nodes =
    .ok ((LinearSystem.identity nodes.length).map fun row => [row])
  sum : ∀ point, e.cell.dim ≤ point.length → ∃ vs : List ℝ,
    e.tabulate (List.replicate e.cell.dim 0) [point] = .ok (vs.map fun v => [[v]]) ∧ vs.sum = 1
  slopes : ∀ point, e.cell.dim ≤ point.length → ∀ d < e.cell.dim, ∃ vs : List ℝ,
    e.tabulate (Expansion.unit e.cell.dim d) [point] = .ok (vs.map fun v => [[v]]) ∧ vs.sum = 0

theorem full_fullSpan (cell : ReferenceCell) (degree : ℕ) :
    Full 1 (Expansion.count cell degree) (fullSpan cell degree) := by
  refine List.forall_mem_map.mpr fun row hrow => ⟨rfl, List.forall_mem_singleton.mpr ?_⟩
  obtain ⟨i, -, rfl⟩ := List.mem_map.mp hrow
  rw [List.length_map, List.length_range]

theorem coefficient_fullSpan {cell : ReferenceCell} {degree i k : ℕ} (hi : i < Expansion.count cell degree)
    (hk : k < Expansion.count cell degree) :
    coefficient (fullSpan cell degree) i 0 k = if i = k then 1 else 0 := by
  simp [coefficient, fullSpan, LinearSystem.identity, List.getD_eq_getElem?_getD, hi, hk]

theorem length_fullSpan (cell : ReferenceCell) (degree : ℕ) :
    (fullSpan cell degree : List (List (List ℝ))).length = Expansion.count cell degree := by
  simp [fullSpan, LinearSystem.identity]

/-- The value of a member of the expansion set at a point, as a functional on the full span. -/
theorem at_on (cell : ReferenceCell) (degree : ℕ) (point row : List ℝ) :
    (Functional.at point).on cell degree [row] = Scalar.dot row (Expansion.valuesAt cell degree point) := by
  simp [Functional.on, Functional.at, Scalar.dot_eq]

theorem at_on_member {cell : ReferenceCell} {degree i : ℕ} (hi : i < Expansion.count cell degree)
    {point : List ℝ} (hpoint : cell.dim ≤ point.length) :
    (Functional.at point).on cell degree ((fullSpan cell degree).getD i []) =
      (Expansion.valuesAt cell degree point).getD i 0 := by
  have hweights : (Functional.at point).weights.length = 1 := rfl
  rw [on_eq_sum hweights hpoint (full_fullSpan cell degree) (by rwa [length_fullSpan]), Finset.sum_range_one,
    Finset.sum_eq_single_of_mem i (Finset.mem_range.mpr hi)]
  · simp [coefficient_fullSpan hi hi, Functional.at]
  · intro k hk hne
    simp [coefficient_fullSpan hi (Finset.mem_range.mp hk), hne.symm]

section Nodes

variable {cell : ReferenceCell} {degree : ℕ} {nodes : List (List ℝ)} {inverse : List (List ℝ)}
  {basis : List (List (List ℝ))}
  (h : Combines cell degree 1 (fullSpan cell degree) (nodes.map Functional.at) inverse basis)
include h

/-- The basis functions add up to a multiple of the first member of the expansion set, which is constant. -/
theorem Combines.sum_coefficients {x : ℝ}
    (hx : ∀ p ∈ nodes, (Expansion.valuesAt cell degree p).getD 0 0 = x) {k : ℕ}
    (hk : k < Expansion.count cell degree) :
    x * ∑ i ∈ Finset.range basis.length, coefficient basis i 0 k = if 0 = k then 1 else 0 := by
  have hcount : 0 < Expansion.count cell degree := by omega
  have hfirst := h.reproduces ⟨0, by rwa [length_fullSpan]⟩ one_pos k
  rw [coefficient_fullSpan hcount hk] at hfirst
  rw [hfirst, h.length_basis, Finset.sum_range, Finset.mul_sum]
  refine Finset.sum_congr rfl fun i _ => ?_
  have hmem := List.get_mem (nodes.map Functional.at) (i.cast h.number.symm)
  obtain ⟨p, hp, hget⟩ := List.mem_map.mp hmem
  have hpoint : cell.dim ≤ p.length := h.points _ (hget ▸ hmem)
  rw [← hget, at_on_member hcount hpoint, hx p hp]

/-- A combination of the values of the members of the expansion set, added up over the basis functions. -/
theorem Combines.sum_dot {x : ℝ} (hx : ∀ p ∈ nodes, (Expansion.valuesAt cell degree p).getD 0 0 = x)
    {values : List ℝ} (hvalues : values.length = Expansion.count cell degree) :
    x * (basis.map fun φ => Scalar.dot (φ.getD 0 []) values).sum = values.getD 0 0 := by
  have hdot (i : ℕ) (hi : i ∈ Finset.range basis.length) :
      (basis.map fun φ => Scalar.dot (φ.getD 0 []) values).getD i 0 =
        ∑ k ∈ Finset.range (Expansion.count cell degree), coefficient basis i 0 k * values.getD k 0 := by
    rw [Finset.mem_range] at hi
    have hrow := (h.full_basis.getD hi).2 0 one_pos
    rw [List.getD_eq_getElem _ _ (by simpa using hi), List.getElem_map, ← List.getD_eq_getElem _ [] hi,
      Scalar.dot_eq _ _ (hrow.trans hvalues.symm), hrow]
    rfl
  rw [sum_eq_getD, List.length_map, Finset.sum_congr rfl hdot, Finset.sum_comm, Finset.mul_sum]
  simp only [← Finset.sum_mul, ← mul_assoc]
  rw [Finset.sum_congr rfl fun k hk => by rw [h.sum_coefficients hx (Finset.mem_range.mp hk)], ← hvalues]
  simp only [ite_mul, one_mul, zero_mul, Finset.sum_ite_eq, Finset.mem_range]
  split_ifs with hpos
  · rfl
  · rw [List.getD_eq_default _ _ (by omega)]

end Nodes

theorem ofPoints_combines {family : String} {cell : ReferenceCell} {degree : ℕ} {nodes : List (List ℝ)}
    {entityDofs : EntityDofs} {e : PolynomialElement ℝ}
    (h : ofPoints family cell degree nodes entityDofs = .ok e) :
    e.cell = cell ∧ e.embeddedDegree = degree ∧
      ∃ inverse, Combines cell degree 1 (fullSpan cell degree) (nodes.map Functional.at) inverse
        e.coefficients := by
  obtain ⟨coefficients, hcoefficients, rfl⟩ := exists_dualBasis h
  exact ⟨rfl, rfl, dualBasis_combines hcoefficients (full_fullSpan cell degree)⟩

/-- A scalar function has one row of coefficients. -/
theorem map_scalar {n : ℕ} {functions : List (List (List ℝ))} (h : Full 1 n functions)
    {β : Type} (f : List ℝ → β) : functions.map (·.map f) = functions.map fun φ => [f (φ.getD 0 [])] := by
  refine List.map_congr_left fun φ hφ => ?_
  obtain ⟨row, rfl⟩ := List.length_eq_one_iff.mp (h φ hφ).1
  rfl

theorem Combines.map_nodes {cell : ReferenceCell} {degree : ℕ} {nodes inverse : List (List ℝ)}
    {basis : List (List (List ℝ))}
    (h : Combines cell degree 1 (fullSpan cell degree) (nodes.map Functional.at) inverse basis) :
    (basis.map fun φ => nodes.map fun p => Scalar.dot (φ.getD 0 []) (Expansion.valuesAt cell degree p)) =
      LinearSystem.identity nodes.length := by
  have hnumber : nodes.length = (fullSpan cell degree : List (List (List ℝ))).length := by
    rw [← h.number, List.length_map]
  apply List.ext_getElem
  · simp [LinearSystem.identity, h.length_basis, hnumber]
  intro j hj hj'
  apply List.ext_getElem
  · simp [LinearSystem.identity]
  intro i hi hi'
  rw [List.length_map] at hj
  have hdual := h.dual ⟨i, by simpa [← hnumber] using hi⟩ ⟨j, by rwa [← h.length_basis]⟩
  obtain ⟨row, hrow⟩ := List.length_eq_one_iff.mp (h.full_basis _ (List.getElem_mem hj)).1
  simp only [List.getD_eq_getElem _ _ hj, hrow, List.get_eq_getElem, Fin.val_cast, List.getElem_map, at_on,
    Fin.mk.injEq] at hdual
  simpa [LinearSystem.identity, hrow, eq_comm] using hdual

/-- The element that is dual to evaluation at nodes is nodal. -/
theorem ofPoints_nodal {family : String} {cell : ReferenceCell} {degree : ℕ} {nodes : List (List ℝ)}
    {entityDofs : EntityDofs} {e : PolynomialElement ℝ}
    (h : ofPoints family cell degree nodes entityDofs = .ok e) : e.Nodal nodes := by
  obtain ⟨rfl, rfl, inverse, hbasis⟩ := ofPoints_combines h
  have hpoints : ∀ p ∈ nodes, e.cell.dim ≤ p.length := fun p hp =>
    hbasis.points _ (List.mem_map_of_mem hp)
  obtain ⟨x, hx, hfirst⟩ := Expansion.jets_first e.cell
  have hconstant (p : List ℝ) (hp : e.cell.dim ≤ p.length) :
      (Expansion.valuesAt e.cell e.embeddedDegree p).getD 0 0 = x := by
    obtain ⟨js, hjs, -⟩ := Expansion.jets_of_le hp e.embeddedDegree
    obtain ⟨j, rest, rfl, hvalue, -⟩ := hfirst hjs
    rw [Expansion.valuesAt, hjs]
    exact hvalue
  have hnodes := fun p hp => hconstant p (hpoints p hp)
  refine ⟨?_, fun point hpoint => ?_, fun point hpoint d hd => ?_⟩
  · rw [e.tabulate_values hpoints, map_scalar hbasis.full_basis, ← hbasis.map_nodes, List.map_map]
    rfl
  · refine ⟨e.coefficients.map fun φ =>
      Scalar.dot (φ.getD 0 []) (Expansion.valuesAt e.cell e.embeddedDegree point), ?_, ?_⟩
    · rw [e.tabulate_values (List.forall_mem_singleton.mpr hpoint), map_scalar hbasis.full_basis, List.map_map]
      rfl
    · have hsum := hbasis.sum_dot hnodes (Expansion.length_valuesAt hpoint e.embeddedDegree)
      rw [hconstant point hpoint] at hsum
      exact mul_left_cancel₀ hx (hsum.trans (mul_one x).symm)
  · obtain ⟨js, hjs, hlength⟩ := Expansion.jets_of_le hpoint e.embeddedDegree
    obtain ⟨j, rest, rfl, -, hgradient⟩ := hfirst hjs
    refine ⟨e.coefficients.map fun φ =>
      Scalar.dot (φ.getD 0 []) ((j :: rest).map (·.gradient.getD d 0)), ?_, ?_⟩
    · rw [e.tabulate_slopes hjs hd, map_scalar hbasis.full_basis, List.map_map]
      rfl
    · have hcount : ((j :: rest).map (·.gradient.getD d 0)).length =
          Expansion.count e.cell e.embeddedDegree := by rw [List.length_map, hlength]
      have hsum := hbasis.sum_dot hnodes hcount
      have hzero : ((j :: rest).map (·.gradient.getD d 0)).getD 0 0 = 0 := by
        rw [List.map_cons, List.getD_cons_zero, hgradient]
        simp
      exact (mul_eq_zero.mp (hsum.trans hzero)).resolve_left hx

theorem Combines.reproduces_member {cell : ReferenceCell} {degree size : ℕ} {span : List (List (List ℝ))}
    {functionals : List (Functional ℝ)} {inverse : List (List ℝ)} {basis : List (List (List ℝ))}
    (h : Combines cell degree size span functionals inverse basis) {member : List (List ℝ)}
    (hmember : member ∈ span) {c : ℕ} (hc : c < size) (k : ℕ) :
    (member.getD c []).getD k 0 = ((functionals.zip basis).map fun x =>
      x.1.on cell degree member * (x.2.getD c []).getD k 0).sum := by
  obtain ⟨j, hj, rfl⟩ := List.mem_iff_getElem.mp hmember
  have hlength : ((functionals.zip basis).map fun x =>
      x.1.on cell degree span[j] * (x.2.getD c []).getD k 0).length = span.length := by
    rw [List.length_map, List.length_zip, h.number, h.length_basis, Nat.min_self]
  have hsum := h.reproduces ⟨j, hj⟩ hc k
  rw [coefficient, List.getD_eq_getElem _ _ hj] at hsum
  rw [hsum, sum_eq_getD, hlength, Finset.sum_range]
  refine Finset.sum_congr rfl fun i _ => ?_
  have hi : (i : ℕ) < functionals.length := by rw [h.number]; exact i.isLt
  have hi' : (i : ℕ) < basis.length := by rw [h.length_basis]; exact i.isLt
  rw [List.getD_eq_getElem _ _ (by rw [hlength]; exact i.isLt)]
  simp [coefficient, List.getD_eq_getElem?_getD, hi']

/-- What is created from a span and functionals is the dual basis: each functional is one on its own basis function
and zero on the others, and a member of the span is the combination of the basis functions with the functionals on
it. Lagrange, Crouzeix-Raviart and time elements are nodal. -/
theorem create_dual {family : String} {cell : ReferenceCell} {degree : ℕ} {valueShape : List ℕ}
    {span : List (List (List ℝ))} {functionals : List (Functional ℝ)} {entityDofs : EntityDofs}
    {map : ValueMap} {embeddedDegree : ℕ} {e : PolynomialElement ℝ}
    (h : create family cell degree valueShape span functionals entityDofs map embeddedDegree = .ok e)
    (hspan : ∀ member ∈ span, member.length = valueShape.prod ∧
      ∀ row ∈ member, row.length = Expansion.count cell embeddedDegree) :
    (∀ i f, functionals[i]? = some f → ∃ table, e.tabulate (List.replicate cell.dim 0) [f.point] = .ok table ∧
      table.map (fun φ => Scalar.dot f.weights (φ.map (·.headD 0))) =
        (List.range functionals.length).map fun j => if i = j then 1 else 0) ∧
    (∀ member ∈ span, ∀ c < valueShape.prod, ∀ k < Expansion.count cell embeddedDegree,
      (member.getD c []).getD k 0 = ((functionals.zip e.coefficients).map fun x =>
        x.1.on cell embeddedDegree member * (x.2.getD c []).getD k 0).sum) ∧
    (∀ cell degree, ∀ x : PolynomialElement ℝ, Lagrange.continuous cell degree = .ok x →
      x.Nodal (Lagrange.points cell degree)) ∧
    (∀ cell degree, ∀ x : PolynomialElement ℝ, Lagrange.discontinuous cell degree = .ok x →
      x.Nodal (if degree = 0 then [cell.midpoint] else Lagrange.points cell degree)) ∧
    (∀ cell degree, ∀ x : PolynomialElement ℝ, Lagrange.crouzeixRaviart cell degree = .ok x →
      x.Nodal (cell.facets.map (Lagrange.centre cell))) ∧
    ∀ (family : TimeFamily) (degree : ℕ), ∀ x : PolynomialElement ℝ, family.create degree = .ok x →
      x.Nodal ((family.nodes degree).map fun t => [t]) := by
  rw [List.prod_eq_foldr] at hspan ⊢
  obtain ⟨coefficients, hcoefficients, rfl⟩ := exists_dualBasis h
  obtain ⟨inverse, hbasis⟩ := dualBasis_combines hcoefficients hspan
  refine ⟨fun i f hf => hbasis.tabulated hf, fun member hmember c hc k _ => hbasis.reproduces_member hmember hc k,
    fun cell degree x hx => ?_, fun cell degree x hx => ofPoints_nodal hx, fun cell degree x hx => ?_,
    fun family degree x hx => ?_⟩
  · exact ofPoints_nodal (Lagrange.continuous_ok hx).2
  · exact ofPoints_nodal (Lagrange.crouzeixRaviart_ok hx).2
  · exact ofPoints_nodal (TimeFamily.create_ok hx).2

/-- The linear functions on the interval have the end points as nodes. -/
theorem create_dual_linear :
    ∃ e : PolynomialElement ℝ, create "Lagrange" .interval 1 [] (fullSpan .interval 1)
        [.at [0], .at [1]] [[[0], [1]], [[]]] .identity 1 = .ok e ∧
      (∀ member ∈ (fullSpan .interval 1 : List (List (List ℝ))), member.length = 1 ∧
        ∀ row ∈ member, row.length = 2) ∧
      (∃ table, e.tabulate [0] [[1]] = .ok table ∧
        table.map (fun φ => Scalar.dot [1] (φ.map (·.headD 0))) = [0, 1]) ∧
      e.Nodal [[0], [1]] := by
  obtain ⟨e, he, -, -⟩ := Lagrange.continuous_linear
  have hcreate : create "Lagrange" .interval 1 [] (fullSpan .interval 1)
        [.at [0], .at [1]] [[[0], [1]], [[]]] .identity 1 = .ok e := by
    rw [Lagrange.continuous, if_neg one_ne_zero, Lagrange.points_linear] at he
    exact he
  have hspan := full_fullSpan .interval 1
  obtain ⟨hdual, -, hnodal, -⟩ := create_dual hcreate hspan
  obtain ⟨table, htable, hvalues⟩ := hdual 1 (.at [1]) rfl
  refine ⟨e, hcreate, hspan, ⟨table, htable, ?_⟩, Lagrange.points_linear ▸ hnodal .interval 1 e he⟩
  simpa [Functional.at, List.range_succ] using hvalues

end PolynomialElement

end Variational
