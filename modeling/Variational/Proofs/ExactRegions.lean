import Variational.Proofs.ExactRules
import Variational.Proofs.ReferenceValues
import Variational.Proofs.RegionRules

/-! Regions of integration in coordinates of their own. A facet of a simplex, and a side, the bottom or the top of an
extruded simplex, is the image of a cell with one dimension less. Its rule is the image of the rule on this cell, and a
polynomial on the whole cell is one of the same degree in the coordinates of the facet. -/
namespace Variational

open Result

theorem drop_eq_getLast {β : Type} {n : ℕ} {p : List β} (h : p.length = n + 1) : p.drop n = p.getLast?.toList := by
  rcases List.eq_nil_or_concat p with rfl | ⟨q, x, rfl⟩
  · cases h
  · have hq : q.length = n := by simpa using h
    simp [← hq]

namespace Region

/-- A cell with coordinates of its own, and where its points lie on the cell that is integrated over. -/
structure Piece where
  domain : Cell
  chart : List ℝ → List ℝ

/-- Where the points of the reference facet lie on a facet of a simplex. -/
noncomputable def facetChart (c : ReferenceCell) (facet : ℕ) : List ℝ → List ℝ :=
  FacetMap.combine c.dim ((c.facets.getD facet []).map fun v => (c.vertices : List (List ℝ)).getD v [])

/-- The facets of a simplex. -/
noncomputable def facets (c base : ReferenceCell) : List Piece :=
  (List.range c.facets.length).map fun facet => ⟨base, facetChart c facet⟩

/-- The side of a product cell over a facet of the first factor. -/
def Piece.extruded (b : Cell) (s : Piece) : Piece :=
  ⟨.product s.domain b, fun x => s.chart (x.take s.domain.dim) ++ x.drop s.domain.dim⟩

/-- The bottom and the top of a product cell. -/
noncomputable def ends (a : ReferenceCell) : List Piece :=
  (List.range 2).map fun k : ℕ => ⟨a, (· ++ [(k : ℝ)])⟩

/-- The regions that an integral runs over. -/
noncomputable def pieces : IntegralKind → Cell → List Piece
  | .interior, cell => [⟨cell, id⟩]
  | .boundary, .simple c =>
    match simplexFacet c with
    | .ok base => facets c base
    | .error _ => []
  | .boundary, .product (.simple a) b =>
    match simplexFacet a with
    | .ok base => (facets a base).map (·.extruded b) ++ ends a
    | .error _ => []
  | .boundary, .product (.product _ _) _ => []

namespace Piece

/-- The rule on a region, made of rules on the line. -/
noncomputable def rule (line : ℕ → List (ℝ × ℝ)) (dim : ℕ) (s : Piece) : Rule ℝ :=
  ⟨dim, (Rule.cellFrom line s.domain).nodes.map fun q => ⟨s.chart q.point, q.weight⟩⟩

theorem sum_rule (line : ℕ → List (ℝ × ℝ)) (dim : ℕ) (s : Piece) (f : List ℝ → ℝ) :
    (s.rule line dim).sum f = (Rule.cellFrom line s.domain).sum fun x => f (s.chart x) := by
  rw [Rule.sum, rule, List.map_map]
  rfl

/-- The region lies on the cell, and polynomials on the cell keep their degree on it. -/
structure On (cell : Cell) (s : Piece) : Prop where
  length : ∀ x, x.length = s.domain.dim → (s.chart x).length = cell.dim
  pull : ∀ {n : ℕ} {f : List ℝ → ℝ}, cell.IsPolynomial n f → s.domain.IsPolynomial n fun x => f (s.chart x)

/-- The rule on a region integrates the polynomials on the cell exactly. -/
theorem On.sum_rule_eq_integral {cell : Cell} {s : Piece} (hs : s.On cell) {line : ℕ → List (ℝ × ℝ)} {n : ℕ}
    (hline : LineExact line n) {f : List ℝ → ℝ} (hf : cell.IsPolynomial n f) (dim : ℕ) :
    (s.rule line dim).sum f = s.domain.integral fun x => f (s.chart x) := by
  rw [sum_rule]
  exact Rule.sum_cellFrom_eq_integral hline (hs.pull hf)

theorem On.length_points {cell : Cell} {s : Piece} (hs : s.On cell) (line : ℕ → List (ℝ × ℝ)) (dim : ℕ) :
    ∀ p ∈ (s.rule line dim).points, p.length = cell.dim := by
  refine List.forall_mem_map.mpr (List.forall_mem_map.mpr fun q hq => hs.length q.point ?_)
  exact Rule.length_of_mem_cellFrom line s.domain q.point (List.mem_map_of_mem hq)

end Piece

section Charts

theorem length_facetChart (c : ReferenceCell) (facet : ℕ) (x : List ℝ) : (facetChart c facet x).length = c.dim := by
  rw [facetChart, FacetMap.combine, List.length_map, List.length_range]

theorem isSimplex_of_simplexFacet {c base : ReferenceCell} (h : simplexFacet c = .ok base) :
    c.isSimplex = true ∧ base.isSimplex = true := by
  cases c <;> cases h <;> exact ⟨rfl, rfl⟩

theorem isPolynomial_dot (base : ReferenceCell) (ys : List ℝ) :
    (Cell.simple base).IsPolynomial 1 fun x => (List.zipWith (· * ·) x ys).sum := by
  have hterms := Cell.IsPolynomial.sum (List.range base.dim) fun j hj =>
    (Cell.IsPolynomial.coordinate (List.mem_range.mp hj)).mul_const (ys.getD j 0)
  refine hterms.congr fun x hx => ?_
  have hsum := ReferenceTensor.sum_foldl_zipWith [ys] x
  simp only [List.foldl_cons, List.foldl_nil, List.map_cons, List.map_nil, List.prod_singleton] at hsum
  rw [hsum, hx]
  rfl

/-- The coordinates of a point on a facet are linear in those of the facet. -/
theorem isPolynomial_combine (base : ReferenceCell) (dim : ℕ) (vertices : List (List ℝ)) {j : ℕ} (hj : j < dim) :
    (Cell.simple base).IsPolynomial 1 fun x => (FacetMap.combine dim vertices x).getD j 0 := by
  have hcoordinate (x : List ℝ) : (FacetMap.combine dim vertices x).getD j 0 =
      (List.zipWith (fun w v => w * v.getD j 0) ((1 - x.sum) :: x) vertices).sum := by
    simp [FacetMap.combine, hj, Scalar.sum_eq]
  simp only [hcoordinate]
  cases vertices with
  | nil => exact Cell.IsPolynomial.const _ 1 0
  | cons v vs =>
    have hsum : (Cell.simple base).IsPolynomial 1 fun x => x.sum := by
      refine (Cell.IsPolynomial.sum (List.range base.dim) fun j hj =>
        Cell.IsPolynomial.coordinate (List.mem_range.mp hj)).congr fun x hx => ?_
      rw [sum_eq_getD, hx]
      rfl
    have hfirst := ((Cell.IsPolynomial.const (.simple base) 1 1).sub hsum).mul_const (v.getD j 0)
    refine (hfirst.add (isPolynomial_dot base (vs.map (·.getD j 0)))).congr fun x hx => ?_
    rw [List.zipWith_cons_cons, List.sum_cons, List.zipWith_map_right]

/-- Facets of a simplex lie on it. -/
theorem facets_on {c base : ReferenceCell} (h : simplexFacet c = .ok base) : ∀ s ∈ facets c base, s.On c := by
  refine List.forall_mem_map.mpr fun facet _ => ⟨fun x _ => length_facetChart c facet x, fun hf => ?_⟩
  exact hf.comp_linear (isSimplex_of_simplexFacet h).1 (fun x _ => length_facetChart c facet x)
    fun j hj => isPolynomial_combine base c.dim _ hj

theorem Piece.On.extruded {a b : Cell} {s : Piece} (hs : s.On a) : (s.extruded b).On (.product a b) := by
  have htake (x : List ℝ) (hx : x.length = (s.extruded b).domain.dim) :
      (s.chart (x.take s.domain.dim)).length = a.dim := hs.length _ (Cell.length_take hx)
  have hlength (x : List ℝ) (hx : x.length = (s.extruded b).domain.dim) :
      ((s.extruded b).chart x).length = (Cell.product a b).dim := by
    rw [Piece.extruded, List.length_append, htake x hx, Cell.length_drop hx, Cell.dim_product]
  refine ⟨hlength, fun {n f} hf => hf.comp_of_monomials hlength ?_⟩
  rintro _ ⟨t, u, rfl, ht, hu⟩
  refine ((hs.pull (.monomial ht)).tensor (.monomial hu)).congr fun x hx => ?_
  exact monomialAt_append ((htake x hx).trans ht.length.symm) u _

theorem ends_on {a : ReferenceCell} {b : Cell} (hb : b.dim = 1) : ∀ s ∈ ends a, s.On (.product a b) := by
  refine List.forall_mem_map.mpr fun k _ => ?_
  have hlength (x : List ℝ) (hx : x.length = a.dim) : (x ++ [(k : ℝ)]).length = (Cell.product a b).dim := by
    rw [List.length_append, hx, List.length_singleton, Cell.dim_product, Cell.dim_simple, hb]
  refine ⟨hlength, fun {n f} hf => hf.comp_of_monomials hlength ?_⟩
  rintro _ ⟨t, u, rfl, ht, -⟩
  refine ((Cell.IsPolynomial.monomial ht).mul_const (monomialAt u [(k : ℝ)])).congr fun x hx => ?_
  exact monomialAt_append (hx.trans ht.length.symm) u _

end Charts

section Rules

variable {c base : ReferenceCell} {points : List (List ℝ)}

theorem simplexAbove_eq (h : simplexFacet c = .ok base) (hne : points ≠ [])
    (hlength : ∀ p ∈ points, p.length = base.dim) : FacetMap.simplexAbove points = .ok c := by
  obtain ⟨p, ps, rfl⟩ := List.exists_cons_of_ne_nil hne
  have hp := hlength p List.mem_cons_self
  rw [FacetMap.simplexAbove, List.head?_cons, Option.elim_some, hp]
  cases c <;> cases h <;> rfl

/-- The vertex that a facet of the interval is. -/
theorem facetChart_interval {facet : ℕ} {vs : List ℕ} (hvs : ReferenceCell.interval.facets[facet]? = some vs) :
    (vs.map fun v => (ReferenceCell.interval.vertices : List (List ℝ)).getD v []) =
      [facetChart .interval facet []] := by
  have hcorner (x : ℝ) : FacetMap.combine 1 [[x]] [] = [x] := by
    simp [FacetMap.combine, Scalar.sum_eq, List.range_succ]
  rcases facet with _ | _ | facet
  · obtain rfl := Option.some.inj hvs
    exact congrArg (fun v => [v]) (hcorner ((0 : ℕ) : ℝ)).symm
  · obtain rfl := Option.some.inj hvs
    exact congrArg (fun v => [v]) (hcorner ((1 : ℕ) : ℝ)).symm
  · cases hvs

/-- The points of a reference facet on a facet of a simplex. A facet of the interval is one point. -/
theorem onSimplex_eq (h : simplexFacet c = .ok base) (hne : points ≠ [])
    (hlength : ∀ p ∈ points, p.length = base.dim) {facet : ℕ} (hfacet : facet < c.facets.length) :
    FacetMap.onSimplex points facet =
      .ok (if base.dim = 0 then [facetChart c facet []] else points.map (facetChart c facet)) := by
  have hvs : c.facets[facet]? = some (c.facets.getD facet []) := by simp [hfacet]
  rw [FacetMap.onSimplex, simplexAbove_eq h hne hlength, Result.ok_bind]
  simp only [hvs]
  cases c <;> cases h
  · rw [if_pos rfl, facetChart_interval hvs]
    rfl
  · rfl
  · rfl

theorem apply_plain_eq (h : simplexFacet c = .ok base) (hne : points ≠ [])
    (hlength : ∀ p ∈ points, p.length = base.dim) (hsingle : base.dim = 0 → points.length = 1) {facet : ℕ}
    (hfacet : facet < c.facets.length) :
    FacetMap.apply points facet .plain = .ok (points.map (facetChart c facet)) := by
  rw [FacetMap.apply, onSimplex_eq h hne hlength hfacet]
  split_ifs with hdim
  · obtain ⟨p, rfl⟩ := List.length_eq_one_iff.mp (hsingle hdim)
    have hp := hlength p List.mem_cons_self
    rw [hdim, List.length_eq_zero_iff] at hp
    rw [hp]
    rfl
  · rfl

theorem apply_vertical_eq (h : simplexFacet c = .ok base) (hne : points ≠ [])
    (hlength : ∀ p ∈ points, p.length = base.dim + 1) {facet : ℕ} (hfacet : facet < c.facets.length) :
    FacetMap.apply points facet .vertical =
      .ok (points.map fun p => facetChart c facet (p.take base.dim) ++ p.drop base.dim) := by
  have htake (p : List ℝ) (hp : p ∈ points) : p.dropLast = p.take base.dim := by
    rw [List.dropLast_eq_take, hlength p hp, Nat.add_sub_cancel]
  have hdrop (p : List ℝ) (hp : p ∈ points) : p.getLast?.toList = p.drop base.dim :=
    (drop_eq_getLast (hlength p hp)).symm
  have hbase : ∀ p ∈ points.map (·.dropLast), p.length = base.dim :=
    List.forall_mem_map.mpr fun p hp => by rw [List.length_dropLast, hlength p hp, Nat.add_sub_cancel]
  rw [FacetMap.apply, onSimplex_eq h (by simpa using hne) hbase hfacet, Result.ok_bind]
  by_cases hdim : base.dim = 0
  · simp only [if_pos hdim]
    refine congrArg Except.ok (List.map_congr_left fun p hp => ?_)
    rw [hdrop p hp, hdim, List.take_zero]
  · simp only [if_neg hdim, List.map_map]
    have hmap : points.map (facetChart c facet ∘ fun p => p.dropLast) =
        points.map fun p => facetChart c facet (p.take base.dim) :=
      List.map_congr_left fun p hp => congrArg (facetChart c facet) (htake p hp)
    rw [hmap]
    split
    · rename_i m hm
      obtain ⟨p, rfl, rfl⟩ := List.map_eq_singleton_iff.mp hm
      rw [List.map_singleton, List.map_singleton, hdrop p (List.mem_singleton_self p)]
      rfl
    · rw [List.zipWith_map_left, List.zipWith_self]
      exact congrArg Except.ok (List.map_congr_left fun p hp => by rw [hdrop p hp])

/-- The rule on a facet is the image of the rule on the reference facet. -/
theorem onFacet_eq {rule : Rule ℝ} {facet : ℕ} {kind : FacetKind} {φ : List ℝ → List ℝ}
    (h : FacetMap.apply rule.points facet kind = .ok (rule.points.map φ)) (dim : ℕ) :
    onFacet rule dim facet kind = .ok ⟨dim, rule.nodes.map fun q => ⟨φ q.point, q.weight⟩⟩ := by
  have hlength : (rule.points.map φ).length = rule.nodes.length := by
    rw [List.length_map, Rule.points, List.length_map]
  have hnodes : List.zipWith Node.mk (rule.points.map φ) rule.weights =
      rule.nodes.map fun q => ⟨φ q.point, q.weight⟩ := by
    rw [Rule.points, Rule.weights, List.map_map, List.zipWith_map, List.zipWith_self]
    rfl
  rw [onFacet, h, Result.ok_bind, if_neg (not_not.mpr hlength), hnodes]
  rfl

variable {m : ℕ}

/-- The rules of the regions in the interior. -/
theorem interior_eq (hm : m ≠ 0) (cell : Cell) :
    interior cell m = .ok ((pieces .interior cell).map (Piece.rule (Gauss.line m) cell.dim)) := by
  have hrule : Piece.rule (Gauss.line m) cell.dim ⟨cell, id⟩ = Rule.cellFrom (Gauss.line m) cell := by
    rw [Piece.rule, ← Rule.dim_cellFrom (Gauss.line m : ℕ → List (ℝ × ℝ)) cell]
    exact congrArg (Rule.mk _) (List.map_id _)
  rw [interior, Rule.onCell_eq hm, pieces, List.map_singleton, hrule]
  rfl

theorem cellFrom_ofDim (hm : m ≠ 0) (cell : Cell) : (Rule.cellFrom (Gauss.line m) cell : Rule ℝ).OfDim cell.dim :=
  (Rule.onCell_safe cell m).of_eq_ok (Rule.onCell_eq hm cell)

/-- The rules on the facets of a simplex. -/
theorem facets_eq (h : simplexFacet c = .ok base) (hm : m ≠ 0) (dim : ℕ) :
    (List.range c.facets.length).mapM
        (fun facet => onFacet (Rule.cellFrom (Gauss.line m) base) dim facet .plain) =
      .ok ((facets c base).map (Piece.rule (Gauss.line m) dim)) := by
  have hrule := cellFrom_ofDim hm (.simple base)
  have hne : (Rule.cellFrom (Gauss.line m) base : Rule ℝ).points ≠ [] := by
    simpa [Rule.points] using hrule.nonempty
  rw [facets, List.map_map]
  refine mapM_of_forall fun facet hfacet => onFacet_eq ?_ dim
  refine apply_plain_eq h hne hrule.coordinates (fun hdim => ?_) (List.mem_range.mp hfacet)
  rw [Rule.points, List.length_map, hrule.single hdim]

/-- The rules on the sides of an extruded simplex. -/
theorem sides_eq (h : simplexFacet c = .ok base) {b : Cell} (hb : b.dim = 1) (hm : m ≠ 0) (dim : ℕ) :
    (List.range c.facets.length).mapM
        (fun facet => onFacet (Rule.cellFrom (Gauss.line m) (.product base b)) dim facet .vertical) =
      .ok (((facets c base).map (·.extruded b)).map (Piece.rule (Gauss.line m) dim)) := by
  have hrule := cellFrom_ofDim hm (.product base b)
  have hne : (Rule.cellFrom (Gauss.line m) (.product base b) : Rule ℝ).points ≠ [] := by
    simpa [Rule.points] using hrule.nonempty
  rw [facets, List.map_map, List.map_map]
  refine mapM_of_forall fun facet hfacet => onFacet_eq ?_ dim
  refine apply_vertical_eq h hne (fun p hp => ?_) (List.mem_range.mp hfacet)
  rw [hrule.coordinates p hp, Cell.dim_product, Cell.dim_simple, hb]

/-- The rules on the bottom and the top of an extruded cell. -/
theorem ends_eq (a : ReferenceCell) (dim : ℕ) :
    (List.range 2).mapM (fun facet => onFacet (Rule.cellFrom (Gauss.line m) a) dim facet .horizontal) =
      .ok ((ends a).map (Piece.rule (Gauss.line m) dim)) := by
  rw [ends, List.map_map]
  refine mapM_of_forall fun facet hfacet => onFacet_eq ?_ dim
  rw [FacetMap.apply, if_pos (List.mem_range.mp hfacet)]

theorem boundary_eq {cell : Cell} (hm : m ≠ 0) {rules : List (Rule ℝ)} (h : boundary cell m = .ok rules) :
    rules = (pieces .boundary cell).map (Piece.rule (Gauss.line m) cell.dim) ∧
      ∀ s ∈ pieces .boundary cell, s.On cell := by
  unfold boundary at h
  split at h
  · rename_i c
    simp only [bind_eq_ok, Rule.onCell_eq hm, Except.ok.injEq, exists_eq_left'] at h
    obtain ⟨base, hbase, hrules⟩ := h
    have hboundary : (Cell.simple c).boundary = (List.range c.facets.length).map fun f => (.plain, f) :=
      List.flatMap_singleton _ _
    rw [hboundary, List.mapM_map] at hrules
    have hpieces : pieces .boundary (.simple c) = facets c base := by rw [pieces, hbase]
    rw [hpieces]
    exact ⟨Except.ok.inj (hrules.symm.trans (facets_eq hbase hm _)), facets_on hbase⟩
  · rename_i a b
    split at h
    · cases h
    rename_i hb
    rw [not_not] at hb
    simp only [bind_eq_ok, Rule.onCell_eq hm, Except.ok.injEq, exists_eq_left'] at h
    obtain ⟨base, hbase, hrules⟩ := h
    have hboundary : (Cell.product a b).boundary = (List.range a.facets.length).map (fun f => (.vertical, f)) ++
        (List.range 2).map fun f => (.horizontal, f) := by
      simp [Cell.boundary, Cell.numFacets, hb]
    have hpieces : pieces .boundary (.product a b) = (facets a base).map (·.extruded b) ++ ends a := by
      rw [pieces, hbase]
    rw [hboundary, List.mapM_append, List.mapM_map, List.mapM_map, bind_eq_ok] at hrules
    obtain ⟨sides, hsides, hrules⟩ := hrules
    rw [bind_eq_ok] at hrules
    obtain ⟨tops, htops, hrules⟩ := hrules
    obtain rfl := Except.ok.inj (hsides.symm.trans (sides_eq hbase hb hm _))
    obtain rfl := Except.ok.inj (htops.symm.trans (ends_eq a _))
    rw [hpieces, List.map_append]
    refine ⟨(pure_eq_ok.mp hrules).symm, List.forall_mem_append.mpr ⟨?_, ends_on hb⟩⟩
    exact List.forall_mem_map.mpr fun s hs => (facets_on hbase s hs).extruded
  · cases h

end Rules
end Region

/-- The rules of the regions of integration, made of the Gauss rules on the line. -/
theorem Product.regions_eq {p : Product ℝ} {cell : Cell} {m : ℕ} (hm : m ≠ 0) {rules : List (Rule ℝ)}
    (h : p.regions cell m = .ok rules) :
    rules = (Region.pieces p.integral cell).map (Region.Piece.rule (Gauss.line m) cell.dim) ∧
      ∀ s ∈ Region.pieces p.integral cell, s.On cell := by
  unfold regions at h
  cases hk : p.integral with
  | boundary =>
    rw [hk] at h
    exact Region.boundary_eq hm h
  | interior =>
    rw [hk] at h
    refine ⟨Except.ok.inj (h.symm.trans (Region.interior_eq hm cell)), List.forall_mem_singleton.mpr ?_⟩
    exact ⟨fun x hx => hx, fun hf => hf⟩

end Variational
