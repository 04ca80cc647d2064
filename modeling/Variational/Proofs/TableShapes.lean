import Variational.Element.Tabulate
import Variational.Proofs.SafeResolution

/-! Shapes of tables. The table of a resolved element has a row for each basis function, each row a list for
each component, and each list a value at every point; no way of building elements reads or writes outside of
the tables of its parts. -/
namespace Variational

open Result

/-- A number of which nothing is known. What is left of a computation with such numbers is its shape, and
this can be evaluated: every number is below every other one, and none is found to be equal to another. -/
inductive Blank
  | blank

instance : Scalar Blank where
  add _ _ := .blank
  sub _ _ := .blank
  mul _ _ := .blank
  div _ _ := .blank
  neg _ := .blank
  natCast _ := .blank
  beq _ _ := false
  sqrt _ := .blank
  cos _ := .blank
  pow _ _ := .blank
  pi := .blank
  abs _ := .blank
  below _ _ := true

/-- A row for each basis function, with a value for each component and point. -/
structure Table.Shape {α : Type} (dimension size numPoints : ℕ) (t : Table α) : Prop where
  rows : t.length = dimension
  components : ∀ row ∈ t, row.length = size
  points : ∀ row ∈ t, ∀ values ∈ row, values.length = numPoints

theorem Table.Shape.of_rows {α : Type} {dimension size numPoints : ℕ} {t : Table α}
    (hrows : t.length = dimension)
    (h : ∀ row ∈ t, row.length = size ∧ ∀ values ∈ row, values.length = numPoints) :
    t.Shape dimension size numPoints := ⟨hrows, fun row hrow => (h row hrow).1, fun row hrow => (h row hrow).2⟩

theorem Table.Shape.row {α : Type} {dimension size numPoints : ℕ} {t : Table α}
    (h : t.Shape dimension size numPoints) {row : List (List α)} (hrow : row ∈ t) :
    row.length = size ∧ ∀ values ∈ row, values.length = numPoints := ⟨h.components row hrow, h.points row hrow⟩

theorem Table.Shape.append {α : Type} {m n size numPoints : ℕ} {t u : Table α}
    (ht : t.Shape m size numPoints) (hu : u.Shape n size numPoints) :
    Table.Shape (m + n) size numPoints (t ++ u) :=
  ⟨by rw [List.length_append, ht.rows, hu.rows],
    List.forall_mem_append.mpr ⟨ht.components, hu.components⟩,
    List.forall_mem_append.mpr ⟨ht.points, hu.points⟩⟩

theorem PolynomialElement.tabulate_safe {α : Type} [Scalar α] {e : PolynomialElement α} (he : e.Shaped)
    {derivative : List ℕ} {points : List (List α)} (hderivative : derivative.length = e.cell.dim)
    (hpoints : ∀ p ∈ points, p.length = e.cell.dim) :
    Safe (Table.Shape e.dimension e.valueSize points.length) (e.tabulate derivative points) := by
  refine (Expansion.derivative_safe (fun p hp => (hpoints p hp).ge) e.embeddedDegree hderivative).bind
    fun values hvalues => .pure ⟨List.length_map _, ?_, ?_⟩
  · refine List.forall_mem_map.mpr fun dof hdof => ?_
    rw [List.length_map, he.components dof hdof]
  · refine List.forall_mem_map.mpr fun dof _ => List.forall_mem_map.mpr fun row _ => ?_
    rw [List.length_map, hvalues]

namespace Element

variable {α : Type} [Scalar α]

theorem tabulateNodes_safe (nodes : List (Node α)) (derivative : List ℕ) (points : List (List α)) :
    Safe (Table.Shape nodes.length 1 points.length) (tabulateNodes nodes derivative points) := by
  unfold tabulateNodes
  split
  · exact Error.noConfusion
  refine Safe.bind (Safe.mapM_each fun p _ => show Safe (fun _ => True) _ from ?_)
    fun positions hpositions => .pure ⟨by simp, ?_, ?_⟩
  · split
    · trivial
    · exact Error.noConfusion
  · exact List.forall_mem_map.mpr fun _ _ => rfl
  · refine List.forall_mem_map.mpr fun i _ => List.forall_mem_singleton.mpr ?_
    rw [List.length_map, hpositions.1]

/-- A row that fits between its offset and the end is filled up with zeros. -/
theorem placeRow_safe {numPoints offset size : ℕ} {row : List (List α)}
    (hfit : offset + row.length ≤ size) (hrow : ∀ values ∈ row, values.length = numPoints) :
    Safe (fun row' => row'.length = size ∧ ∀ values ∈ row', values.length = numPoints)
      (placeRow numPoints offset size row) := by
  simp only [placeRow, if_pos hfit]
  refine ⟨?_, ?_⟩
  · simp only [List.length_append, List.length_replicate]
    omega
  · have hzero (n : ℕ) : ∀ values ∈ List.replicate n (List.replicate numPoints (0 : α)),
        values.length = numPoints := by
      intro values hvalues
      rw [List.eq_of_mem_replicate hvalues, List.length_replicate]
    exact List.forall_mem_append.mpr ⟨List.forall_mem_append.mpr ⟨hzero _, hrow⟩, hzero _⟩

/-- The tables of parts whose components fill at most the given number are stacked. -/
theorem stack_safe {numPoints size : ℕ} {es : List (Element α)} {tables : List (Table α × ℕ)}
    (h : List.Forall₂ (fun e x => x.2 = e.valueSize ∧
      Table.Shape e.dimension e.valueSize numPoints x.1) es tables) {offset : ℕ}
    (hfit : offset + (es.map valueSize).foldr (· + ·) 0 ≤ size) :
    Safe (Table.Shape ((es.map dimension).foldr (· + ·) 0) size numPoints)
      (stack numPoints size offset tables) := by
  induction h generalizing offset with
  | nil => exact ⟨rfl, by simp, by simp⟩
  | @cons e x es tables hx _ ih =>
    obtain ⟨table, width⟩ := x
    obtain ⟨rfl, hshape⟩ := hx
    simp only [List.map_cons, List.foldr_cons] at hfit
    rw [stack]
    have hwidth : ∀ row ∈ table, offset + row.length ≤ size := by
      intro row hrow
      rw [hshape.components row hrow]
      omega
    refine (Safe.mapM_each fun row hrow => placeRow_safe (hwidth row hrow) (hshape.points row hrow)).bind
      fun first hfirst => (ih (by omega)).bind fun rest hrest => .pure ?_
    exact (Table.Shape.of_rows (hfirst.1.trans hshape.rows) hfirst.2).append hrest

/-- The products of all components go to components that there are. -/
theorem multiplyRows_safe {numPoints size m n : ℕ} {component : Option ℕ} {ra rb : List (List α)}
    (hra : ra.length = m ∧ ∀ values ∈ ra, values.length = numPoints)
    (hrb : rb.length = n ∧ ∀ values ∈ rb, values.length = numPoints)
    (hsize : ∀ i < m, ∀ j < n, component.getD (max i j) < size) :
    Safe (fun row => row.length = size ∧ ∀ values ∈ row, values.length = numPoints)
      (multiplyRows numPoints size component ra rb) := by
  have hproducts : ∀ x ∈ ra.zipIdx.flatMap (fun u => rb.zipIdx.map fun v =>
      (component.getD (max u.2 v.2), List.zipWith (· * ·) u.1 v.1)),
      x.1 < size ∧ x.2.length = numPoints := by
    rw [List.forall_mem_flatMap]
    rintro ⟨u, i⟩ hu
    rw [List.forall_mem_map]
    rintro ⟨v, j⟩ hv
    rw [List.mem_zipIdx_iff_getElem?] at hu hv
    have hi : i < m := hra.1 ▸ (List.getElem?_eq_some_iff.mp hu).1
    have hj : j < n := hrb.1 ▸ (List.getElem?_eq_some_iff.mp hv).1
    refine ⟨hsize i hi j hj, ?_⟩
    simp only [List.length_zipWith, hra.2 u (List.mem_of_getElem? hu), hrb.2 v (List.mem_of_getElem? hv),
      Nat.min_self]
  simp only [multiplyRows]
  rw [if_pos (List.all_eq_true.mpr fun x hx => decide_eq_true (hproducts x hx).1)]
  refine List.foldlRecOn _ _ (motive := fun row : List (List α) =>
    row.length = size ∧ ∀ values ∈ row, values.length = numPoints) ⟨by simp, by simp⟩ ?_
  rintro row ⟨hlength, hrow⟩ ⟨c, products⟩ hmem
  refine ⟨by rw [List.length_set, hlength], fun values hvalues => ?_⟩
  rcases List.mem_or_eq_of_mem_set hvalues with hvalues | rfl
  · exact hrow values hvalues
  · exact (hproducts _ hmem).2

/-- Derivatives at points of the cell are tabulated for every basis function and component. -/
def Tabulates (e : Element α) : Prop :=
  ∀ (derivative : List ℕ) (points : List (List α)), derivative.length = e.cell.dim →
    (∀ p ∈ points, p.length = e.cell.dim) →
    Safe (Table.Shape e.dimension e.valueSize points.length) (e.tabulate derivative points)

theorem tabulateAll_safe {es : List (Element α)} {dim : ℕ} {derivative : List ℕ} {points : List (List α)}
    (h : ∀ e ∈ es, e.Tabulates ∧ e.cell.dim = dim) (hderivative : derivative.length = dim)
    (hpoints : ∀ p ∈ points, p.length = dim) :
    Safe (List.Forall₂ (fun e x => x.2 = e.valueSize ∧
      Table.Shape e.dimension e.valueSize points.length x.1) es) (tabulateAll derivative points es) := by
  induction es with
  | nil => exact .nil
  | cons e es ih =>
    rw [List.forall_mem_cons] at h
    obtain ⟨⟨he, rfl⟩, hes⟩ := h
    rw [tabulateAll]
    exact (he derivative points hderivative hpoints).bind fun table htable =>
      (ih hes).bind fun tables htables => .pure (.cons ⟨rfl, htable⟩ htables)

theorem Tabulates.mixed {e : Element α} {es : List (Element α)} (h : ∀ x ∈ e :: es, x.Tabulates)
    (hcell : ∀ x ∈ es, x.cell = e.cell) : (mixed (e :: es)).Tabulates := by
  intro derivative points hderivative hpoints
  have hparts : ∀ x ∈ e :: es, x.Tabulates ∧ x.cell.dim = e.cell.dim :=
    List.forall_mem_cons.mpr ⟨⟨h e List.mem_cons_self, rfl⟩, fun x hx =>
      ⟨h x (List.mem_cons_of_mem e hx), by rw [hcell x hx]⟩⟩
  have hdimension : (Element.mixed (e :: es)).dimension = ((e :: es).map dimension).foldr (· + ·) 0 := by
    change ((layouts (e :: es)).map (·.dimension)).foldr (· + ·) 0 = _
    rw [layouts_eq_map, List.map_map]
    rfl
  rw [tabulate, hdimension]
  refine (tabulateAll_safe hparts hderivative hpoints).bind fun tables htables => ?_
  refine stack_safe htables ?_
  rw [Nat.zero_add, ← valueSize_mixed]

theorem Tabulates.restricted {e : Element α} (h : e.Tabulates) {indices : List ℕ}
    (hindices : ∀ i ∈ indices, i < e.dimension) (domain : Domain) :
    (restricted e indices domain).Tabulates := by
  intro derivative points hderivative hpoints
  rw [tabulate]
  refine (h derivative points hderivative hpoints).bind fun table htable => ?_
  refine (Safe.mapM_each fun i hi => ?_).mono fun rows hrows => Table.Shape.of_rows hrows.1 hrows.2
  have hlt : i < table.length := htable.rows ▸ hindices i hi
  exact .inRange (List.getElem?_eq_getElem hlt) (htable.row (List.getElem_mem hlt))

theorem Tabulates.enriched {a b : Element α} (ha : a.Tabulates) (hb : b.Tabulates)
    (hcell : a.cell = b.cell) (hsize : a.valueSize = b.valueSize) : (enriched a b).Tabulates := by
  intro derivative points hderivative hpoints
  rw [tabulate]
  refine (ha derivative points hderivative hpoints).bind fun first hfirst => ?_
  rw [show (Element.enriched a b).cell = a.cell from rfl, hcell] at hderivative hpoints
  refine (hb derivative points hderivative hpoints).bind fun second hsecond => .pure ?_
  rw [← hsize] at hsecond
  exact hfirst.append hsecond

theorem Tabulates.product {a b : Element α} (ha : a.Tabulates) (hb : b.Tabulates) {w : Option Wrapping}
    (hsize : ∀ i < a.valueSize, ∀ j < b.valueSize,
      (w.map (·.component)).getD (max i j) < (product a b w).valueSize) : (product a b w).Tabulates := by
  intro derivative points hderivative hpoints
  have hcell : (Element.product a b w).cell.dim = a.cell.dim + b.cell.dim := by cases w <;> rfl
  have hdimension : (Element.product a b w).dimension = a.dimension * b.dimension := by cases w <;> rfl
  rw [hcell] at hderivative hpoints
  have hlong : ¬ points.any (·.length < a.cell.dim) = true := by
    simp only [List.any_eq_true, decide_eq_true_eq, not_exists, not_and, not_lt]
    intro p hp
    rw [hpoints p hp]
    exact Nat.le_add_right _ _
  rw [tabulate, hdimension]
  simp only [if_neg (not_not.mpr hderivative), if_neg hlong]
  have htake := ha (derivative.take a.cell.dim) (points.map (·.take a.cell.dim))
    (by rw [List.length_take, hderivative]; omega)
    (List.forall_mem_map.mpr fun p hp => by rw [List.length_take, hpoints p hp]; omega)
  have hdrop := hb (derivative.drop a.cell.dim) (points.map (·.drop a.cell.dim))
    (by rw [List.length_drop, hderivative]; omega)
    (List.forall_mem_map.mpr fun p hp => by rw [List.length_drop, hpoints p hp]; omega)
  rw [List.length_map] at htake hdrop
  refine htake.bind fun ta hta => hdrop.bind fun tb htb => ?_
  have hpairs : ∀ x ∈ ta.flatMap (fun ra => tb.map fun rb => (ra, rb)), x.1 ∈ ta ∧ x.2 ∈ tb :=
    List.forall_mem_flatMap.mpr fun ra hra => List.forall_mem_map.mpr fun rb hrb => ⟨hra, hrb⟩
  have hcount : (ta.flatMap fun ra => tb.map fun rb => (ra, rb)).length = a.dimension * b.dimension := by
    rw [MultiIndex.length_flatMap_of_length _ tb.length (fun _ => List.length_map _), hta.rows, htb.rows]
  refine (Safe.mapM_each fun x hx => ?_).mono fun rows hrows =>
    Table.Shape.of_rows (hrows.1.trans hcount) hrows.2
  exact multiplyRows_safe (hta.row (hpairs x hx).1) (htb.row (hpairs x hx).2) hsize

/-- The element gives tables; so do its factors, if it is a product. -/
structure Tabular (e : Element α) : Prop where
  partitioned : e.layout.Partitioned
  table : e.Tabulates
  factors : ∀ a b w, e = Element.product a b w → a.Tabulates ∧ b.Tabulates

theorem OfFamily.tabulates {family : String} {cell : Cell} {degree : ℕ} {e : Element α}
    (h : OfFamily family cell degree e) : e.Tabulates := by
  intro derivative points hderivative hpoints
  cases h with
  | reals _ _ hx =>
    exact PolynomialElement.tabulate_safe (PolynomialElement.ofFamily_shaped hx) hderivative hpoints
  | time _ hx => exact PolynomialElement.tabulate_safe (TimeFamily.create_shaped hx) hderivative hpoints
  | quadrature => exact tabulateNodes_safe _ derivative points
  | polynomial _ hx =>
    exact PolynomialElement.tabulate_safe (PolynomialElement.ofFamily_shaped hx) hderivative hpoints

theorem max_lt_productShape {a b : Layout} (h : a.valueSize = 1 ∨ b.valueSize = 1) {i j : ℕ}
    (hi : i < a.valueSize) (hj : j < b.valueSize) :
    max i j < (Layout.productShape a b).foldr (· * ·) 1 := by
  unfold Layout.productShape
  split_ifs with ha hb
  · simp only [List.foldr_nil]
    omega
  · change max i j < b.valueSize
    omega
  · change max i j < a.valueSize
    omega

theorem closed_tabular : Closed fun e : Element α => e.Tabular where
  family h := by
    have hfamily := (ofFamily_ok h).2
    refine ⟨closed_partitioned.family h, hfamily.tabulates, ?_⟩
    rintro a b w rfl
    cases hfamily
  restrict he h := by
    refine ⟨closed_partitioned.restrict he.partitioned h, he.table.restricted (fun i hi => ?_) _, by simp⟩
    exact he.partitioned.numbers.lt ((selectIndices_sublist h).subset hi)
  enrich ha hb h := by
    obtain ⟨hcell, hvalues, -⟩ := enrich_compatible h
    have hpartitioned := closed_partitioned.enrich ha.partitioned hb.partitioned h
    obtain rfl := enrich_ok h
    refine ⟨hpartitioned, ha.table.enriched hb.table hcell ?_, by simp⟩
    rw [valueSize, valueSize, Layout.valueSize, Layout.valueSize, hvalues]
  tensor ha hb h := by
    have hpartitioned := closed_partitioned.tensor ha.partitioned hb.partitioned h
    have hscalar := tensor_scalar h
    obtain rfl := tensor_ok h
    refine ⟨hpartitioned, ha.table.product hb.table fun i hi j hj => max_lt_productShape hscalar hi hj, ?_⟩
    rintro _ _ _ ⟨⟩
    exact ⟨ha.table, hb.table⟩
  wrap ha h := by
    have hpartitioned := closed_partitioned.wrap ha.partitioned h
    obtain ⟨a, b, c, rfl, hc, rfl⟩ := wrap_ok h
    obtain ⟨hta, htb⟩ := ha.factors a b none rfl
    refine ⟨hpartitioned, hta.product htb fun i _ j _ => ?_, ?_⟩
    · change c < (a.layout.cell.dim + b.layout.cell.dim) * 1
      rw [mul_one]
      exact wrappingComponent?_lt hc
    · rintro _ _ _ ⟨⟩
      exact ⟨hta, htb⟩
  mix hparts h := by
    have hpartitioned := closed_partitioned.mix (fun a ha => (hparts a ha).partitioned) h
    obtain ⟨first, rest, rfl, hsame⟩ := mix_compatible h
    obtain rfl := mix_ok h
    have htables : ∀ x ∈ first :: rest, x.Tabulates := fun x hx => (hparts x hx).table
    exact ⟨hpartitioned, .mixed htables fun x hx => (hsame x hx).1, by simp⟩

/-- Whatever is nested in a resolved element, its tables have a row for each basis function, and all rows
have a list for each component with a value at every point. Where its basis is given by coefficients, there
is one for each component and member of the expansion set. -/
theorem tabulate_shape {c c' : Cache α} (hc : c.Reachable) {d : Descriptor} {e : Element α}
    (h : Resolve.Returns (resolve d) c e c') :
    e.valueSize = e.layout.valueShape.prod ∧
      (∀ (derivative : List ℕ) (points : List (List α)) (table : Table α),
        derivative.length = e.cell.dim → (∀ p ∈ points, p.length = e.cell.dim) →
        e.tabulate derivative points = .ok table → table.length = e.dimension ∧
          ∀ row ∈ table, row.length = e.valueSize ∧ ∀ values ∈ row, values.length = points.length) ∧
      ∀ x, e.expansion? = some x → ∀ dof ∈ x.coefficients, dof.length = e.valueSize ∧
        ∀ coefficients ∈ dof, coefficients.length = Expansion.count x.cell x.embeddedDegree := by
  obtain ⟨-, -, htabular⟩ := (closed_tabular.resolve d).of_returns (hc.all closed_tabular) h
  obtain ⟨-, -, hexpansion⟩ := (closed_expansion.resolve d).of_returns (hc.all closed_expansion) h
  refine ⟨List.prod_eq_foldr.symm, ?_, ?_⟩
  · intro derivative points table hderivative hpoints htable
    have hshape := (htabular.table derivative points hderivative hpoints).of_eq_ok htable
    exact ⟨hshape.rows, fun row hrow => hshape.row hrow⟩
  · intro x hx dof hdof
    obtain ⟨hshaped, hvalues⟩ := hexpansion x hx
    have hsize : x.valueSize = e.valueSize := by
      rw [PolynomialElement.valueSize, hvalues, valueSize, Layout.valueSize]
    exact ⟨hsize ▸ hshaped.components dof hdof, hshaped.rows dof hdof⟩

/-- Linear functions on the triangle with the cubic one that vanishes on its sides. -/
def enrichedLinear : Descriptor :=
  .enriched (.simple "Lagrange" (.simple .triangle) (some 1)) (.simple "Bubble" (.simple .triangle) (some 3))

/-- Next to a vector field, the functions take the first of three components. -/
theorem tabulate_shape_nested :
    (∃ (e : Element Blank) (c' : Cache Blank) (table : Table Blank),
      (resolve (.mixed [enrichedLinear, .simple "Raviart-Thomas" (.simple .triangle) (some 1)])).Returns
          .empty e c' ∧
        e.tabulate [0, 1] [[.blank, .blank], [.blank, .blank]] = .ok table ∧ table.length = 7 ∧
        ∀ row ∈ table, row.length = 3 ∧ ∀ values ∈ row, values.length = 2) ∧
      ∃ (e : Element Blank) (c' : Cache Blank) (x : PolynomialElement Blank),
        (resolve enrichedLinear).Returns .empty e c' ∧ e.expansion? = some x ∧ x.dimension = 4 ∧
        ∀ dof ∈ x.coefficients, dof.length = 1 ∧ ∀ coefficients ∈ dof, coefficients.length = 10 := by
  constructor
  · have hresolve : ∃ (e : Element Blank) (c' : Cache Blank) (table : Table Blank),
        (resolve (.mixed [enrichedLinear, .simple "Raviart-Thomas" (.simple .triangle) (some 1)])).Returns
            .empty e c' ∧
          e.tabulate [0, 1] [[.blank, .blank], [.blank, .blank]] = .ok table ∧ e.cell.dim = 2 ∧
          e.dimension = 7 ∧ e.valueSize = 3 := ⟨_, _, _, rfl, rfl, rfl, rfl, rfl⟩
    obtain ⟨e, c', table, he, htable, hdim, hdimension, hsize⟩ := hresolve
    have hshape := (tabulate_shape Cache.Reachable.empty he).2.1 [0, 1] _ table hdim.symm
      (by simp [hdim]) htable
    rw [hdimension, hsize] at hshape
    exact ⟨e, c', table, he, htable, hshape⟩
  · have hresolve : ∃ (e : Element Blank) (c' : Cache Blank) (x : PolynomialElement Blank),
        (resolve enrichedLinear).Returns .empty e c' ∧ e.expansion? = some x ∧ x.dimension = 4 ∧
          e.valueSize = 1 ∧ Expansion.count x.cell x.embeddedDegree = 10 :=
      ⟨_, _, _, rfl, rfl, rfl, rfl, rfl⟩
    obtain ⟨e, c', x, he, hx, hdimension, hsize, hcount⟩ := hresolve
    have hshape := (tabulate_shape Cache.Reachable.empty he).2.2 x hx
    rw [hsize, hcount] at hshape
    exact ⟨e, c', x, he, hx, hdimension, hshape⟩

end Element
end Variational
