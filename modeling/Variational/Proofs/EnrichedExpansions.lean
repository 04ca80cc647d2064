import Variational.Proofs.EmbeddedExpansions
import Variational.Proofs.Composition
import Variational.Element.Tabulate

/-! Enriched elements in one expansion set. The coefficients of the operands are scattered over the expansion set of the
higher degree, to the places where the members of their own sets stand, so that the merged element has the values and
the first derivatives of the enriched one. -/
namespace Variational

open Result Expansion

theorem Result.map_eq_of_mapM {β γ δ : Type} {f : β → Result γ} {xs : List β} {ys : List γ} (h : xs.mapM f = .ok ys)
    {g : γ → δ} {k : β → δ} (hgk : ∀ x y, f x = .ok y → g y = k x) : ys.map g = xs.map k := by
  have hpairs := mapM_eq_ok.mp h
  clear h
  induction hpairs with
  | nil => rfl
  | cons hxy _ ih => rw [List.map_cons, List.map_cons, hgk _ _ hxy, ih]

section Scattering

variable {α : Type} [ExactScalar α]

theorem Scalar.dot_set {xs ys : List α} {i : ℕ} (hi : i < xs.length) (hi' : i < ys.length) (hzero : xs[i] = 0) (x : α) :
    dot (xs.set i x) ys = dot xs ys + x * ys[i] := by
  induction xs generalizing ys i with
  | nil => simp at hi
  | cons y xs ih =>
    cases ys with
    | nil => simp at hi'
    | cons z ys =>
      cases i with
      | zero =>
        obtain rfl : y = 0 := hzero
        rw [List.set_cons_zero, dot_cons, dot_cons, List.getElem_cons_zero, zero_mul, zero_add, add_comm]
      | succ i =>
        rw [List.set_cons_succ, dot_cons, dot_cons, List.getElem_cons_succ,
          ih (Nat.lt_of_succ_lt_succ hi) (Nat.lt_of_succ_lt_succ hi') hzero, add_assoc]

/-- A row that is scattered over different places, which held zeros, takes in the entries there. -/
theorem Scalar.dot_foldl_set {n : ℕ} {places : List ℕ} (hnodup : places.Nodup) (hplaces : ∀ i ∈ places, i < n)
    (row : List α) {xs ys : List α} (hxs : xs.length = n) (hys : ys.length = n)
    (hzero : ∀ i ∈ places, xs[i]? = some 0) :
    dot ((List.zip places row).foldl (fun acc p => acc.set p.1 p.2) xs) ys = dot xs ys + dot row (pick places ys) := by
  induction places generalizing row xs with
  | nil => rw [List.zip_nil_left, List.foldl_nil, pick_nil, dot_nil_right, add_zero]
  | cons i places ih =>
    cases row with
    | nil => rw [List.zip_nil_right, List.foldl_nil, dot_nil_left, numeral_zero, add_zero]
    | cons x row =>
      rw [List.forall_mem_cons] at hplaces hzero
      rw [List.nodup_cons] at hnodup
      obtain ⟨hi, hentry⟩ := List.getElem?_eq_some_iff.mp hzero.1
      have hi' : i < ys.length := hys ▸ hplaces.1
      have hrest : ∀ j ∈ places, (xs.set i x)[j]? = some 0 := by
        intro j hj
        have hne : i ≠ j := fun h => hnodup.1 (h ▸ hj)
        rw [List.getElem?_set_ne hne, hzero.2 j hj]
      rw [List.zip_cons_cons, List.foldl_cons, ih hnodup.2 hplaces.2 row (by rw [List.length_set, hxs]) hrest,
        dot_set hi hi' hentry, pick_cons hi', dot_cons, add_assoc]

theorem zip_take_length {β γ : Type} (xs : List β) (ys : List γ) :
    List.zip (xs.take ys.length) ys = List.zip xs ys := by
  induction ys generalizing xs with
  | nil => simp
  | cons y ys ih => cases xs <;> simp [ih]

end Scattering

namespace PolynomialElement

variable {α : Type} [ExactScalar α] {cell : ReferenceCell} {degree target : ℕ} (htarget : degree ≤ target)
include htarget

/-- A lifted row gives in the larger set what the row gives in its own. -/
theorem dot_liftRow {row lifted values : List α} (h : liftRow cell degree target row = .ok lifted)
    (hvalues : values.length = count cell target) :
    Scalar.dot lifted values = Scalar.dot row (pick (embedding cell degree target) values) := by
  simp only [liftRow] at h
  split_ifs at h with hfits
  obtain rfl := Except.ok.inj h
  have hplaces : ∀ i ∈ embedding cell degree target, i < count cell target := fun i => lt_of_mem_embedding htarget
  rw [zip_take_length, Scalar.numeral_zero]
  refine (Scalar.dot_foldl_set (nodup_embedding htarget cell) hplaces row List.length_replicate hvalues ?_).trans ?_
  · exact fun i hi => List.getElem?_replicate_of_lt (hplaces i hi)
  · rw [Scalar.dot_replicate_zero, zero_add]

theorem map_dot_lift {rows lifted : List (List α)} (h : rows.mapM (liftRow cell degree target) = .ok lifted)
    {values : List (List α)} (hvalues : ∀ v ∈ values, v.length = count cell target) :
    (lifted.map fun row => values.map fun v => Scalar.dot row v) =
      rows.map fun row => (values.map (pick (embedding cell degree target))).map fun v => Scalar.dot row v := by
  refine map_eq_of_mapM h fun row row' hrow => ?_
  rw [List.map_map]
  exact List.map_congr_left fun v hv => dot_liftRow htarget hrow (hvalues v hv)

omit htarget

/-- A table of the coefficients in the larger set is the table of the element. -/
theorem tabulate_lift {e : PolynomialElement α} {target : ℕ} (htarget : e.embeddedDegree ≤ target)
    {lifted : List (List (List α))} (h : e.lift target = .ok lifted) {derivative : List ℕ}
    (horder : derivative.sum ≤ 1) (points : List (List α)) :
    e.tabulate derivative points = (Expansion.derivative e.cell target derivative points).map fun values =>
      lifted.map (·.map fun row => values.map fun v => Scalar.dot row v) := by
  rw [tabulate, derivative_eq_pick horder htarget]
  cases hvalues : Expansion.derivative e.cell target derivative points with
  | error _ => rfl
  | ok values =>
    refine congrArg Except.ok ?_
    have hlength := length_of_derivative horder hvalues
    exact (map_eq_of_mapM h fun rows lifted hrows => map_dot_lift htarget hrows hlength).symm

end PolynomialElement

namespace Element

variable {α : Type}

theorem joinExpansions_ok [Scalar α] {l : Layout} {x y z : PolynomialElement α} (h : joinExpansions l x y = .ok z) :
    ∃ first second, x.lift (max x.embeddedDegree y.embeddedDegree) = .ok first ∧
      y.lift (max x.embeddedDegree y.embeddedDegree) = .ok second ∧
      z = { family := l.family, cell := x.cell, degree := l.degree, map := l.map, valueShape := l.valueShape
            embeddedDegree := max x.embeddedDegree y.embeddedDegree, coefficients := first ++ second
            entityDofs := l.entityDofs } := by
  simp only [joinExpansions, bind_eq_ok, pure_eq_ok] at h
  obtain ⟨first, hfirst, second, hsecond, rfl⟩ := h
  exact ⟨first, second, hfirst, hsecond, rfl⟩

variable [ExactScalar α]

/-- Joined expansions have the functions of the first, followed by those of the second. -/
theorem joinExpansions_tabulate {l : Layout} {x y z : PolynomialElement α} (hcell : x.cell = y.cell)
    (h : joinExpansions l x y = .ok z) {derivative : List ℕ} (horder : derivative.sum ≤ 1) (points : List (List α)) :
    z.tabulate derivative points = (do
      let first ← x.tabulate derivative points
      return first ++ (← y.tabulate derivative points)) := by
  obtain ⟨first, second, hfirst, hsecond, rfl⟩ := joinExpansions_ok h
  rw [PolynomialElement.tabulate_lift (le_max_left _ _) hfirst horder points,
    PolynomialElement.tabulate_lift (le_max_right _ _) hsecond horder points, ← hcell, PolynomialElement.tabulate]
  cases Expansion.derivative x.cell (max x.embeddedDegree y.embeddedDegree) derivative points with
  | error _ => rfl
  | ok values => exact congrArg Except.ok List.map_append

theorem expansion?_enriched {a b : Element α} {z : PolynomialElement α} (h : (enriched a b).expansion? = some z) :
    ∃ x y, a.expansion? = some x ∧ b.expansion? = some y ∧ x.cell = y.cell ∧
      joinExpansions (.enriched a.layout b.layout) x y = .ok z := by
  rw [expansion?] at h
  obtain ⟨x, hx, h⟩ := Option.bind_eq_some_iff.mp h
  obtain ⟨y, hy, h⟩ := Option.bind_eq_some_iff.mp h
  split_ifs at h with hcell
  exact ⟨x, y, hx, hy, hcell, toOption_eq_some.mp h⟩

/-- The expansion of an element has its values and first derivatives. -/
theorem expansion?_tabulate {e : Element α} {x : PolynomialElement α} (h : e.expansion? = some x)
    {derivative : List ℕ} (horder : derivative.sum ≤ 1) (points : List (List α)) :
    x.tabulate derivative points = e.tabulate derivative points := by
  match e with
  | polynomial _ | reals _ | time _ =>
    obtain rfl := Option.some.inj h
    rfl
  | enriched a b =>
    obtain ⟨y, z, hy, hz, hcell, hjoin⟩ := expansion?_enriched h
    rw [joinExpansions_tabulate hcell hjoin horder, expansion?_tabulate hy horder, expansion?_tabulate hz horder,
      tabulate]
  | quadrature _ _ _ | mixed _ | restricted _ _ _ | product _ _ _ => cases h

/-- The expansion of an enriched element is the same element: it has the basis functions of the first operand, followed
by those of the second, with their values and first derivatives at all points, and the dofs, the kind of values and the
map of the enriched element. Points and directions for which one of them has no table are those for which the other
has none. -/
theorem enriched_expansion {a b e : Element α} {x : PolynomialElement α} (h : enrich a b = .ok e)
    (hx : e.expansion? = some x) :
    (∀ derivative : List ℕ, derivative.sum ≤ 1 → ∀ points : List (List α),
      x.tabulate derivative points = e.tabulate derivative points ∧
      x.tabulate derivative points = (do
        let first ← a.tabulate derivative points
        return first ++ (← b.tabulate derivative points))) ∧
    x.entityDofs = e.layout.entityDofs ∧ x.valueShape = e.layout.valueShape ∧ x.map = e.layout.map := by
  obtain rfl := enrich_ok h
  refine ⟨fun derivative horder points => ?_, ?_⟩
  · have htable := expansion?_tabulate hx horder points
    exact ⟨htable, htable.trans (by rw [tabulate])⟩
  · obtain ⟨y, z, -, -, -, hjoin⟩ := expansion?_enriched hx
    obtain ⟨first, second, -, -, rfl⟩ := joinExpansions_ok hjoin
    exact ⟨rfl, rfl, rfl⟩

/-- One function on the square, by its coefficients in the expansion set of a degree. -/
noncomputable def squareFunction (degree : ℕ) (row : List ℝ) : Element ℝ := .polynomial
  { family := "Bubble", cell := .quadrilateral, degree, embeddedDegree := degree, map := .identity, valueShape := []
    coefficients := [[row]], entityDofs := EntityDofs.inside ReferenceCell.quadrilateral.entityCounts 1 }

/-- A function of degree one and one of degree two: the four coefficients of the first move to the corner of the three
by three that the set of degree two has. -/
theorem enriched_expansion_square : ∃ e x,
    enrich (squareFunction 1 [1, 2, 3, 4]) (squareFunction 2 [1, 2, 3, 4, 5, 6, 7, 8, 9]) = .ok e ∧
    e.expansion? = some x ∧
    x.coefficients = [[[1, 2, 0, 3, 4, 0, 0, 0, 0]], [[1, 2, 3, 4, 5, 6, 7, 8, 9]]] ∧
    x.entityDofs = [[[], [], [], []], [[], [], [], []], [[0, 1]]] ∧
    x.tabulate [0, 1] [[1 / 2, 1 / 3]] = e.tabulate [0, 1] [[1 / 2, 1 / 3]] := by
  have hadmitted : ∃ e x,
      enrich (squareFunction 1 [1, 2, 3, 4]) (squareFunction 2 [1, 2, 3, 4, 5, 6, 7, 8, 9]) = .ok e ∧
      e.expansion? = some x ∧
      x.coefficients = [[[1, 2, 0, 3, 4, 0, 0, 0, 0]], [[1, 2, 3, 4, 5, 6, 7, 8, 9]]] := by
    refine ⟨_, _, rfl, rfl, ?_⟩
    rw [← Scalar.numeral_zero (α := ℝ)]
    rfl
  obtain ⟨e, x, he, hx, hcoefficients⟩ := hadmitted
  obtain ⟨htable, hdofs, -⟩ := enriched_expansion he hx
  refine ⟨e, x, he, hx, hcoefficients, hdofs.trans ?_, (htable [0, 1] (by decide) _).1⟩
  obtain rfl := enrich_ok he
  rfl

end Element
end Variational
