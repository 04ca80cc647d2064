import Variational.Proofs.CacheTransparency
import Variational.Proofs.ElementShapes
import Variational.Proofs.ExpansionShapes
import Variational.Proofs.NestedRestriction

/-! Every number that resolution reads names something. The functionals of the families sit at points of
their cells, their spans have all coefficients, and the basis functions that are picked or brought to a
higher degree exist; so resolution fails for a stated reason or not at all. -/
namespace Variational

open Result

namespace EntityDofs

theorem Numbers.lt {e : EntityDofs} {n d : ℕ} (h : e.Numbers n) (hd : d ∈ e.flat) : d < n :=
  List.mem_range.mp (h.mem_iff.mp hd)

theorem Numbers.lt_of_on {e : EntityDofs} {n dim entity d : ℕ} (h : e.Numbers n)
    (hd : d ∈ on e dim entity) : d < n := by
  have hlevel := mem_level_of_on hd
  by_cases hdim : dim < e.length
  · rw [List.getD_eq_getElem _ _ hdim] at hlevel
    obtain ⟨dofs, hdofs, hd⟩ := List.mem_flatten.mp hlevel
    refine h.lt (List.mem_flatten.mpr ⟨dofs, List.mem_flatten.mpr ⟨_, List.getElem_mem hdim, hdofs⟩, hd⟩)
  · rw [List.getD_eq_default _ _ (not_lt.mp hdim)] at hlevel
    cases hlevel

end EntityDofs

namespace PolynomialElement

variable {α : Type} [Scalar α]

omit [Scalar α] in
theorem covers_of_length {valueSize n : ℕ} {member : List (List α)} (hlength : member.length = valueSize)
    (hrows : ∀ row ∈ member, row.length = n) : covers valueSize n member := by
  simp only [covers, Bool.and_eq_true, decide_eq_true_eq, List.all_eq_true]
  exact ⟨hlength.ge, fun row hrow => (hrows row (List.mem_of_mem_take hrow)).ge⟩

theorem dualBasis_safe (family : String) {cell : ReferenceCell} (degree : ℕ) {valueSize : ℕ}
    {span : List (List (List α))} {functionals : List (Functional α)} (embeddedDegree : ℕ)
    (hpoints : ∀ f ∈ functionals, cell.dim ≤ f.point.length)
    (hspan : ∀ member ∈ span, covers valueSize (Expansion.count cell embeddedDegree) member) :
    Safe (fun _ => True)
      (dualBasis family cell degree valueSize span functionals embeddedDegree) := by
  have hcovers : span.all (covers valueSize (Expansion.count cell embeddedDegree)) = true :=
    List.all_eq_true.mpr hspan
  simp only [dualBasis]
  split
  · exact Error.noConfusion
  split
  · exact Error.noConfusion
  refine (Expansion.values_safe (List.forall_mem_map.mpr hpoints) embeddedDegree).bind fun values _ => ?_
  rw [hcovers, if_neg (by simp)]
  split
  · exact Error.noConfusion
  · trivial

theorem create_safe (family : String) {cell : ReferenceCell} (degree : ℕ) {valueShape : List ℕ}
    {span : List (List (List α))} {functionals : List (Functional α)} (entityDofs : EntityDofs)
    (map : ValueMap) (embeddedDegree : ℕ) (hpoints : ∀ f ∈ functionals, cell.dim ≤ f.point.length)
    (hspan : ∀ member ∈ span,
      covers (valueShape.foldr (· * ·) 1) (Expansion.count cell embeddedDegree) member) :
    Safe (fun _ => True)
      (create family cell degree valueShape span functionals entityDofs map embeddedDegree) :=
  (dualBasis_safe family degree embeddedDegree hpoints hspan).bind fun _ _ => trivial

theorem ofPoints_safe (family : String) {cell : ReferenceCell} (degree : ℕ) {points : List (List α)}
    (entityDofs : EntityDofs) (h : ∀ p ∈ points, cell.dim ≤ p.length) :
    Safe (fun _ => True) (ofPoints family cell degree points entityDofs) := by
  refine create_safe family degree entityDofs .identity degree (List.forall_mem_map.mpr h) ?_
  intro member hmember
  simp only [fullSpan, LinearSystem.identity, List.map_map, List.mem_map] at hmember
  obtain ⟨i, -, rfl⟩ := hmember
  exact covers_of_length rfl (List.forall_mem_singleton.mpr (by simp))

omit [Scalar α] in
/-- Basis functions that exist can be picked. -/
theorem subset_safe (e : PolynomialElement α) (family : String) {dofs : List ℕ} (entityDofs : EntityDofs)
    (h : ∀ d ∈ dofs, d < e.dimension) : Safe (fun _ => True) (e.subset family dofs entityDofs) := by
  have hrows : Safe (∀ row ∈ ·, True) (dofs.mapM fun d => inRange e.coefficients[d]?) :=
    Safe.mapM_all fun d hd => .inRange (List.getElem?_eq_getElem (h d hd)) trivial
  exact hrows.bind fun _ _ => trivial

end PolynomialElement

namespace ReferenceCell

variable {α : Type} [Scalar α]

theorem length_corner (c : ReferenceCell) : ∀ corner ∈ c.corners, corner.length = c.dim := by
  cases c <;> decide

theorem length_vertex (c : ReferenceCell) {v : ℕ} (hv : v < c.corners.length) :
    ((c.vertices : List (List α)).getD v []).length = c.dim := by
  have hv' : v < (c.vertices : List (List α)).length := by rwa [vertices, List.length_map]
  rw [List.getD_eq_getElem _ _ hv']
  simp only [vertices, List.getElem_map, List.length_map]
  exact c.length_corner _ (List.getElem_mem _)

/-- The vertices of an entity are vertices of the cell, and it has those that span its axes. -/
theorem entity_vertices (c : ReferenceCell) : ∀ level ∈ c.topology.zipIdx, ∀ entity ∈ level.1,
    (∀ v ∈ entity, v < c.corners.length) ∧
      ∀ v ∈ 0 :: Lagrange.axisVertices c level.2, v < entity.length := by
  cases c <;> decide

end ReferenceCell

namespace Lagrange

variable {α : Type} [Scalar α]

/-- A lattice point has as many coordinates as the vertices that it lies between. -/
theorem length_lattice {cell : ReferenceCell} {degree dim n : ℕ} {vertices : List (List α)}
    (h : ∀ v ∈ 0 :: axisVertices cell dim, (vertices.getD v []).length = n) :
    ∀ p ∈ lattice cell degree dim vertices, p.length = n := by
  rw [List.forall_mem_cons] at h
  have horigin : (vertices.headD []).length = n := by
    rw [← h.1]
    cases vertices <;> rfl
  simp only [lattice]
  refine List.forall_mem_map.mpr fun index _ => ?_
  refine List.foldlRecOn _ _ (motive := fun p : List α => p.length = n) horigin ?_
  rintro p hp ⟨k, axis⟩ hmem
  obtain ⟨v, hv, rfl⟩ := List.mem_map.mp (List.of_mem_zip hmem).2
  simp only [List.length_zipWith, hp, h.2 v hv, horigin, Nat.min_self]

theorem length_points (cell : ReferenceCell) (degree : ℕ) :
    ∀ p ∈ (points cell degree : List (List α)), p.length = cell.dim := by
  intro p hp
  obtain ⟨level, hlevel, hp⟩ := List.mem_flatMap.mp hp
  obtain ⟨entity, hentity, hp⟩ := List.mem_flatMap.mp hp
  obtain ⟨hvertices, haxes⟩ := cell.entity_vertices level hlevel entity hentity
  refine length_lattice (fun v hv => ?_) p hp
  have hv' : v < entity.length := haxes v hv
  rw [List.getD_eq_getElem?_getD, List.getElem?_map, List.getElem?_eq_getElem hv', Option.map_some,
    Option.getD_some]
  exact cell.length_vertex (hvertices _ (List.getElem_mem hv'))

theorem continuous_safe (cell : ReferenceCell) (degree : ℕ) :
    Safe (fun _ => True) (continuous cell degree : Result (PolynomialElement α)) := by
  unfold continuous
  split_ifs
  · exact Error.noConfusion
  · exact PolynomialElement.ofPoints_safe _ _ _ fun p hp => (length_points cell degree p hp).ge

theorem discontinuous_safe (cell : ReferenceCell) (degree : ℕ) :
    Safe (fun _ => True) (discontinuous cell degree : Result (PolynomialElement α)) := by
  refine PolynomialElement.ofPoints_safe _ _ _ ?_
  split_ifs
  · refine List.forall_mem_singleton.mpr ?_
    simp [ReferenceCell.midpoint]
  · exact fun p hp => (length_points cell degree p hp).ge

theorem crouzeixRaviart_safe (cell : ReferenceCell) (degree : ℕ) :
    Safe (fun _ => True) (crouzeixRaviart cell degree : Result (PolynomialElement α)) := by
  unfold crouzeixRaviart
  split_ifs
  · refine PolynomialElement.ofPoints_safe _ _ _ (List.forall_mem_map.mpr fun vs _ => ?_)
    simp [centre]
  · exact Error.noConfusion

theorem bubble_safe (cell : ReferenceCell) (degree : ℕ) :
    Safe (fun _ => True) (bubble cell degree : Result (PolynomialElement α)) := by
  unfold bubble
  refine (continuous_safe cell degree).result.bind fun e he => ?_
  dsimp only
  split
  · exact Error.noConfusion
  exact e.subset_safe _ _ fun d hd => (continuous_numbered he.1).numbers.lt_of_on hd

end Lagrange

namespace VectorFamily

variable {α : Type} [Scalar α]

theorem facetNodes_dim (f : VectorFamily) {cell : ReferenceCell}
    (hcell : cell = .triangle ∨ cell = .tetrahedron) :
    (f.facetNodes cell.dim : List (List α)) ≠ [] ∧
      ∀ p ∈ (f.facetNodes cell.dim : List (List α)), p.length = cell.dim - 1 := by
  rcases hcell with rfl | rfl <;> cases f <;> simp [facetNodes, isFull, edgeNodes, ReferenceCell.dim]

theorem normalFunctionals_safe (f : VectorFamily) {cell : ReferenceCell}
    (hcell : cell = .triangle ∨ cell = .tetrahedron) :
    Safe (∀ l ∈ ·, cell.dim ≤ l.point.length)
      (f.normalFunctionals cell : Result (List (Functional α))) := by
  obtain ⟨hne, hlength⟩ : (f.facetNodes cell.dim : List (List α)) ≠ [] ∧ _ := f.facetNodes_dim hcell
  have hdim : cell.dim - 1 ≠ 0 ∧ cell.dim - 1 + 1 = cell.dim := by
    rcases hcell with rfl | rfl <;> decide
  have hfacet (facet : ℕ) : Safe (∀ l ∈ ·, cell.dim ≤ l.point.length) (do
      let points ← FacetMap.apply (f.facetNodes cell.dim : List (List α)) facet .plain
      return points.map fun p => Functional.mk p (scaledNormal cell facet)) := by
    refine Safe.bind (FacetMap.apply_safe hne hlength (fun h => absurd h hdim.1) facet (by simp))
      fun points hpoints => .pure (List.forall_mem_map.mpr fun p hp => ?_)
    rw [hpoints.1 p hp, hdim.2]
  unfold normalFunctionals
  refine (Safe.mapM_all fun facet _ => hfacet facet).bind fun byFacet hbyFacet => .pure fun l hl => ?_
  obtain ⟨ls, hls, hl⟩ := List.mem_flatten.mp hl
  exact hbyFacet ls hls l hl

theorem tangentialFunctionals_dim (f : VectorFamily) {cell : ReferenceCell}
    (hcell : cell = .triangle ∨ cell = .tetrahedron) :
    ∀ l ∈ (f.tangentialFunctionals cell : List (Functional α)), cell.dim ≤ l.point.length := by
  have hedge : ∀ edge ∈ cell.edges, ∃ v w, edge = [v, w] ∧ v < cell.corners.length ∧
      w < cell.corners.length := by
    rcases hcell with rfl | rfl <;> simp [ReferenceCell.edges, ReferenceCell.corners]
  intro l hl
  obtain ⟨edge, hmem, hl⟩ := List.mem_flatMap.mp hl
  obtain ⟨v, w, rfl, hv, hw⟩ := hedge edge hmem
  obtain ⟨s, -, rfl⟩ := List.mem_map.mp hl
  have hv' : ((cell.vertices : List (List α)).getD v []).length = cell.dim := cell.length_vertex hv
  have hw' : ((cell.vertices : List (List α)).getD w []).length = cell.dim := cell.length_vertex hw
  change _ ≤ (List.zipWith _ (cell.vertices.getD v [])
    (List.zipWith _ (cell.vertices.getD w []) (cell.vertices.getD v []))).length
  rw [List.length_zipWith, List.length_zipWith, hv', hw', Nat.min_self, Nat.min_self]

/-- The fields that span the space have as many components as the cell has dimensions. -/
theorem extraFields_dim {f : VectorFamily} {cell : ReferenceCell}
    (hcell : cell = .triangle ∨ cell = .tetrahedron) {field : List α → List α}
    (h : field ∈ f.extraFields cell.dim) {p : List α} (hp : p.length = cell.dim) :
    (field p).length ≤ cell.dim := by
  unfold extraFields at h
  split at h
  · obtain rfl := List.mem_singleton.mp h
    exact hp.le
  · rename_i hdim
    obtain rfl := List.mem_singleton.mp h
    exact hdim.ge
  · rename_i hother
    have hdim : cell.dim = 3 := by
      rcases hcell with rfl | rfl
      · exact absurd rfl (hother)
      · rfl
    simp only [List.mem_cons, List.not_mem_nil, or_false] at h
    rcases h with rfl | rfl | rfl <;> exact hdim.ge

theorem span_safe (f : VectorFamily) {cell : ReferenceCell}
    (hcell : cell = .triangle ∨ cell = .tetrahedron) :
    Safe (∀ member ∈ ·, PolynomialElement.covers cell.dim (Expansion.count cell 1) member)
      (f.span cell : Result (List (List (List α)))) := by
  unfold span
  split_ifs
  · refine List.forall_mem_flatMap.mpr fun c _ => List.forall_mem_map.mpr fun k _ => ?_
    refine PolynomialElement.covers_of_length (by simp) (List.forall_mem_map.mpr fun i _ => ?_)
    split_ifs <;> simp [unit]
  · refine .mapM_all fun field hfield => ?_
    refine (Expansion.project_safe cell 1 fun p hp => ?_).mono fun member hmember =>
      PolynomialElement.covers_of_length hmember.points hmember.members
    rcases List.mem_append.mp hfield with hfield | hfield
    · obtain ⟨c, -, rfl⟩ := List.mem_map.mp hfield
      simp [unit]
    · exact extraFields_dim hcell hfield hp

theorem create_safe (f : VectorFamily) (cell : ReferenceCell) (degree : ℕ) :
    Safe (fun _ => True) (f.create cell degree : Result (PolynomialElement α)) := by
  simp only [create]
  split
  · exact Error.noConfusion
  rename_i hcell
  rw [not_not] at hcell
  have hcreate {functionals : List (Functional α)} (h : ∀ l ∈ functionals, cell.dim ≤ l.point.length)
      (entityDofs : EntityDofs) (map : ValueMap) : Safe (fun _ => True) (do
        PolynomialElement.create f.name cell degree [cell.dim] (← f.span cell) functionals entityDofs
          map 1) := by
    refine (f.span_safe hcell.2).bind fun span hspan => ?_
    exact PolynomialElement.create_safe _ _ _ _ _ h (by simpa using hspan)
  split
  · exact (f.normalFunctionals_safe hcell.2).bind fun _ h => hcreate h _ _
  · exact hcreate (f.tangentialFunctionals_dim hcell.2) _ _

end VectorFamily

theorem TimeFamily.create_safe {α : Type} [Scalar α] (f : TimeFamily) (degree : ℕ) :
    Safe (fun _ => True) (f.create degree : Result (PolynomialElement α)) := by
  unfold TimeFamily.create
  split_ifs
  · exact Error.noConfusion
  · exact PolynomialElement.ofPoints_safe _ _ _ (List.forall_mem_map.mpr fun _ _ => le_rfl)

theorem PolynomialElement.ofFamily_safe {α : Type} [Scalar α] (family : String) (cell : ReferenceCell)
    (degree : ℕ) : Safe (fun _ => True) (ofFamily family cell degree : Result (PolynomialElement α)) := by
  unfold PolynomialElement.ofFamily
  split
  · exact Error.noConfusion
  split
  · exact Lagrange.continuous_safe cell degree
  · exact Lagrange.discontinuous_safe cell degree
  · exact Lagrange.crouzeixRaviart_safe cell degree
  · exact Lagrange.bubble_safe cell degree
  · exact VectorFamily.create_safe _ cell degree
  · exact VectorFamily.create_safe _ cell degree
  · exact VectorFamily.create_safe _ cell degree
  · exact VectorFamily.create_safe _ cell degree
  · exact Error.noConfusion

namespace PolynomialElement

variable {α : Type} [Scalar α]

theorem liftRow_safe {cell : ReferenceCell} {degree target : ℕ} (h : degree ≤ target) {row : List α}
    (hrow : row.length = Expansion.count cell degree) :
    Safe (·.length = Expansion.count cell target) (liftRow cell degree target row) := by
  have hslots : (Expansion.embedding cell degree target).take row.length =
      Expansion.embedding cell degree target := by
    rw [hrow, ← Expansion.length_embedding cell degree target, List.take_length]
  simp only [liftRow, hslots]
  rw [if_pos]
  · refine List.foldlRecOn _ _ (motive := fun acc : List α => acc.length = Expansion.count cell target)
      List.length_replicate ?_
    rintro acc hacc ⟨i, x⟩ -
    rw [List.length_set, hacc]
  · refine ⟨by rw [Expansion.length_embedding, hrow], List.all_eq_true.mpr fun i hi => ?_⟩
    exact decide_eq_true (Expansion.lt_of_mem_embedding h hi)

/-- All coefficients have places in the expansion set of a higher degree. -/
theorem lift_safe {e : PolynomialElement α} (he : e.Shaped) {target : ℕ}
    (h : e.embeddedDegree ≤ target) :
    Safe (∀ dof ∈ ·, dof.length = e.valueSize ∧
      ∀ row ∈ dof, row.length = Expansion.count e.cell target) (e.lift target) := by
  refine .mapM_all fun dof hdof => ?_
  have hrows := Safe.mapM_each fun row hrow => liftRow_safe h (he.rows dof hdof row hrow)
  exact hrows.mono fun lifted hlifted => ⟨hlifted.1.trans (he.components dof hdof), hlifted.2⟩

end PolynomialElement

namespace Element

variable {α : Type} [Scalar α]

theorem ofFamily_safe (family : String) (cell : Cell) (degree : Option ℕ) :
    Safe (fun _ => True) (ofFamily family cell degree : Result (Element α)) := by
  simp only [ofFamily]
  split
  · exact Error.noConfusion
  split
  · refine Safe.bind (show Safe (fun _ => True) _ from ?_) fun _ _ => trivial
    split
    · exact PolynomialElement.ofFamily_safe _ _ _
    · exact Error.noConfusion
  · exact (TimeFamily.create_safe _ _).bind fun _ _ => trivial
  · exact (TimeFamily.create_safe _ _).bind fun _ _ => trivial
  · exact (Rule.onCell_safe _ _).bind fun _ _ => trivial
  · refine Safe.bind (show Safe (fun _ => True) _ from ?_) fun _ _ => trivial
    split
    · exact PolynomialElement.ofFamily_safe _ _ _
    · exact Error.noConfusion

/-- The interior of the cell of an element of a family is an entity with dofs, if only with none. -/
theorem selectIndices_safe {family : String} {cell : Cell} {degree : Option ℕ} {e : Element α}
    (h : ofFamily family cell degree = .ok e) (domain : Domain) :
    Safe (fun _ => True) (selectIndices e.layout domain) := by
  cases domain with
  | upTo c => exact trivial
  | other name => exact Error.noConfusion
  | interior =>
    simp only [selectIndices]
    split_ifs
    · exact Error.noConfusion
    have hcounts := (ofFamily_ok h).2.counts_eq
    have hlast := Cell.getLast?_entityCounts e.cell
    rw [← hcounts, List.getLast?_eq_getElem?, EntityDofs.counts, List.length_map,
      (ofFamily_partitioned h).levels, Nat.add_sub_cancel, List.getElem?_map,
      Option.map_eq_some_iff] at hlast
    obtain ⟨entities, hentities, hone⟩ := hlast
    obtain ⟨dofs, rfl⟩ := List.length_eq_one_iff.mp hone
    exact .inRange (b := dofs) (by rw [hentities]; rfl) trivial

theorem restrictLeaf_safe (leaf : Descriptor × Domain) :
    Safe (fun _ => True) (restrictLeaf leaf : Result (Element α)) := by
  obtain ⟨d, domain⟩ := leaf
  cases d with
  | simple family cell degree =>
    exact (ofFamily_safe family cell degree).result.bind fun e he =>
      (selectIndices_safe he.1 domain).bind fun _ _ => trivial
  | _ => exact Error.noConfusion

/-- Two bases of one shape are joined into one of the same shape. -/
theorem joinExpansions_safe {l : Layout} {x y : PolynomialElement α} (hx : x.Shaped) (hy : y.Shaped)
    (hcell : x.cell = y.cell) (hxl : x.valueShape = l.valueShape) (hyl : y.valueShape = l.valueShape) :
    Safe (fun z => z.Shaped ∧ z.valueShape = l.valueShape) (joinExpansions l x y) := by
  have hyx : y.valueSize = x.valueSize := by
    rw [PolynomialElement.valueSize, PolynomialElement.valueSize, hxl, hyl]
  have hsize : x.valueSize = l.valueSize := by rw [PolynomialElement.valueSize, hxl, Layout.valueSize]
  unfold joinExpansions
  refine (PolynomialElement.lift_safe hx (le_max_left _ _)).bind fun first hfirst => ?_
  refine (PolynomialElement.lift_safe hy (le_max_right _ _)).bind fun second hsecond => ?_
  rw [hyx, ← hcell] at hsecond
  have hall := List.forall_mem_append.mpr ⟨hfirst, hsecond⟩
  rw [hsize] at hall
  have hpositive : 0 < l.valueSize := hsize ▸ hx.positive
  exact ⟨⟨hpositive, fun dof hdof => (hall dof hdof).1, fun dof hdof => (hall dof hdof).2⟩, rfl⟩

/-- The expansion of a resolved element has the shape of its values. -/
theorem closed_expansion : Closed fun e : Element α =>
    ∀ x, e.expansion? = some x → x.Shaped ∧ x.valueShape = e.layout.valueShape where
  family h x hx := by
    cases (ofFamily_ok h).2 with
    | reals _ _ hy =>
      obtain rfl := Option.some.inj hx
      exact ⟨PolynomialElement.ofFamily_shaped hy, rfl⟩
    | time _ hy =>
      obtain rfl := Option.some.inj hx
      exact ⟨TimeFamily.create_shaped hy, rfl⟩
    | quadrature => cases hx
    | polynomial _ hy =>
      obtain rfl := Option.some.inj hx
      exact ⟨PolynomialElement.ofFamily_shaped hy, rfl⟩
  restrict _ _ _ hx := by cases hx
  enrich {a b _} ha hb h z hz := by
    obtain ⟨-, hvalues, -⟩ := enrich_compatible h
    obtain rfl := enrich_ok h
    simp only [expansion?, Option.bind_eq_bind, Option.bind_eq_some_iff] at hz
    obtain ⟨x, hx, y, hy, hz⟩ := hz
    split_ifs at hz with hcell
    have hjoin : Safe _ (joinExpansions (a.layout.enriched b.layout) x y) :=
      joinExpansions_safe (ha x hx).1 (hb y hy).1 hcell (ha x hx).2 ((hb y hy).2.trans hvalues.symm)
    cases hresult : joinExpansions (a.layout.enriched b.layout) x y with
    | error _ =>
      rw [hresult] at hz
      cases hz
    | ok z' =>
      rw [hresult] at hz
      obtain rfl := Option.some.inj hz
      exact hjoin.of_eq_ok hresult
  tensor _ _ h _ hx := by
    obtain rfl := tensor_ok h
    cases hx
  wrap _ h _ hx := by
    obtain ⟨a, b, c, -, -, rfl⟩ := wrap_ok h
    cases hx
  mix _ h _ hx := by
    obtain rfl := mix_ok h
    cases hx

/-- What resolution without a cache gives has every closed property. -/
theorem Closed.direct {P : Element α → Prop} (h : Closed P) {d : Descriptor} {e : Element α}
    (he : Element.direct d = .ok e) : P e := by
  rw [← ofDescriptor_eq_direct] at he
  exact ((h.resolve d) _ (Cache.all_empty P)).2.2 e he

theorem enrich_safe {a b : Element α}
    (ha : ∀ x, a.expansion? = some x → x.Shaped ∧ x.valueShape = a.layout.valueShape)
    (hb : ∀ x, b.expansion? = some x → x.Shaped ∧ x.valueShape = b.layout.valueShape) :
    Safe (fun _ => True) (enrich a b) := by
  simp only [enrich]
  split
  · exact Error.noConfusion
  split
  · exact Error.noConfusion
  rename_i hvalues
  rw [not_or, not_not] at hvalues
  split
  · exact Error.noConfusion
  split
  · rename_i x y hx hy
    split
    · rename_i hcell
      refine Safe.bind (joinExpansions_safe (ha x hx).1 (hb y hy).1 hcell (ha x hx).2
        ((hb y hy).2.trans hvalues.1.symm)) fun _ _ => ?_
      trivial
    · trivial
  · trivial

theorem tensor_safe (a b : Element α) : Safe (fun _ => True) (tensor a b) := by
  simp only [tensor]
  split_ifs
  · exact Error.noConfusion
  · trivial

theorem wrap_safe (space : SobolevSpace) (e : Element α) : Safe (fun _ => True) (wrap space e) := by
  unfold wrap
  split
  · dsimp only
    split
    · exact Error.noConfusion
    split
    · trivial
    · exact Error.noConfusion
  · exact Error.noConfusion

theorem checkParts_safe (first : Layout) (ls : List Layout) :
    Safe (fun _ => True) (checkParts first ls) := by
  induction ls with
  | nil => trivial
  | cons l ls ih =>
    unfold checkParts
    split_ifs
    · exact Error.noConfusion
    · exact Error.noConfusion
    · exact ih

theorem mix_safe (parts : List (Element α)) : Safe (fun _ => True) (mix parts) := by
  unfold mix
  split
  · exact Error.noConfusion
  · exact (checkParts_safe _ _).bind fun _ _ => trivial

mutual

/-- Resolution does not fail over a number that is out of range. -/
theorem direct_safe : ∀ d : Descriptor, Safe (fun _ => True) (direct d : Result (Element α))
  | .simple family cell degree => ofFamily_safe _ cell degree
  | .enriched a b => by
    rw [direct]
    exact (direct_safe a).result.bind fun x hx => (direct_safe b).result.bind fun y hy =>
      enrich_safe (closed_expansion.direct hx.1) (closed_expansion.direct hy.1)
  | .product a b => by
    rw [direct]
    exact (direct_safe a).bind fun x _ => (direct_safe b).bind fun y _ => tensor_safe x y
  | .wrapped space d => by
    rw [direct]
    split_ifs
    · exact (direct_safe d).bind fun x _ => wrap_safe space x
    · exact Error.noConfusion
  | .mixed ds => by
    rw [direct]
    exact (directParts_safe ds).bind fun parts _ => mix_safe parts
  | .restricted (.mixed ds) domain => by
    rw [direct]
    exact (Safe.mapM_all fun leaf _ => restrictLeaf_safe leaf).bind fun parts _ => mix_safe parts
  | .restricted (.simple ..) _ => restrictLeaf_safe _
  | .restricted (.enriched ..) _ => restrictLeaf_safe _
  | .restricted (.product ..) _ => restrictLeaf_safe _
  | .restricted (.wrapped ..) _ => restrictLeaf_safe _
  | .restricted (.restricted ..) _ => restrictLeaf_safe _
  | .restricted (.other ..) _ => restrictLeaf_safe _
  | .other name => Error.noConfusion

theorem directParts_safe : ∀ ds : List Descriptor,
    Safe (fun _ => True) (directParts ds : Result (List (Element α)))
  | [] => trivial
  | .mixed inner :: ds => by
    rw [directParts]
    exact (directParts_safe inner).bind fun _ _ => (directParts_safe ds).bind fun _ _ => trivial
  | .restricted d domain :: ds => by
    rw [directParts]
    exact (Safe.mapM_all fun leaf _ => restrictLeaf_safe leaf).bind fun _ _ =>
      (directParts_safe ds).bind fun _ _ => trivial
  | .simple .. :: ds => (direct_safe _).bind fun _ _ => (directParts_safe ds).bind fun _ _ => trivial
  | .enriched .. :: ds => (direct_safe _).bind fun _ _ => (directParts_safe ds).bind fun _ _ => trivial
  | .product .. :: ds => (direct_safe _).bind fun _ _ => (directParts_safe ds).bind fun _ _ => trivial
  | .wrapped .. :: ds => (direct_safe _).bind fun _ _ => (directParts_safe ds).bind fun _ _ => trivial
  | .other .. :: ds => (direct_safe _).bind fun _ _ => (directParts_safe ds).bind fun _ _ => trivial

end

end Element
end Variational
