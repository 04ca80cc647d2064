import Variational.Proofs.SingleCell

/-! The dofs on the closure of a facet. On a reference cell every entity below the dimension of the cell lies on some
facet, and the closures of all facets have equally many entities of each dimension. So the facets of a resolved element
have equally many dofs, each of them once, and all dofs but those inside the cell are on a facet. -/
namespace Variational

namespace ReferenceCell

/-- All vertices of entity `i` of dimension `d` belong to the facet. -/
def OnFacet (c : ReferenceCell) (facet d i : ℕ) : Prop :=
  ∃ vertices entity, c.facets[facet]? = some vertices ∧ DofMap.entity? c.topology d i = some entity ∧
    ∀ v ∈ entity, v ∈ vertices

/-- The entities below the dimension of the cell with vertices among the given ones, by dimension and number. -/
def closure (c : ReferenceCell) (vertices : List ℕ) : List (ℕ × ℕ) :=
  (c.topology.take c.dim).zipIdx.flatMap fun (entities, d) =>
    entities.zipIdx.filterMap fun (vs, i) => if vs.all (vertices.contains ·) then some (d, i) else none

theorem mem_closure {c : ReferenceCell} {vertices : List ℕ} {d i : ℕ} :
    (d, i) ∈ c.closure vertices ↔ d < c.dim ∧ ∃ entity, DofMap.entity? c.topology d i = some entity ∧
      ∀ v ∈ entity, v ∈ vertices := by
  simp only [closure, List.mem_flatMap, List.mem_filterMap, Prod.exists, List.mem_zipIdx_iff_getElem?,
    Option.ite_none_right_eq_some, Option.some.injEq, Prod.mk.injEq, List.all_eq_true, List.contains_iff_mem,
    List.getElem?_take, DofMap.entity?, Option.bind_eq_some_iff]
  constructor
  · rintro ⟨entities, _, ⟨hd, hentities⟩, entity, _, hentity, hsub, rfl, rfl⟩
    exact ⟨hd, entity, ⟨entities, hentities, hentity⟩, hsub⟩
  · rintro ⟨hd, entity, ⟨entities, hentities, hentity⟩, hsub⟩
    exact ⟨entities, d, ⟨hd, hentities⟩, entity, i, hentity, hsub, rfl, rfl⟩

/-- The closures of all facets have the same dimensions. -/
theorem closure_dims (c : ReferenceCell) : ∀ vs ∈ c.facets, ∀ ws ∈ c.facets,
    (c.closure vs).map Prod.fst = (c.closure ws).map Prod.fst := by
  cases c <;> decide

theorem nodup_closure (c : ReferenceCell) : ∀ vs ∈ c.facets, (c.closure vs).Nodup := by
  cases c <;> decide

/-- Every entity of the boundary belongs to the closure of a facet. -/
theorem exists_closure (c : ReferenceCell) : ∀ d < c.dim, ∀ i < c.entityCounts.getD d 0,
    ∃ vs ∈ c.facets, (d, i) ∈ c.closure vs := by
  cases c <;> decide

end ReferenceCell

namespace EntityDofs

theorem entity?_eq_some {e : EntityDofs} {k i : ℕ} (h : (DofMap.entity? e k i).isSome) :
    DofMap.entity? e k i = some (on e k i) := by
  obtain ⟨dofs, hdofs⟩ := Option.isSome_iff_exists.mp h
  obtain ⟨entities, hentities, hi⟩ := Option.bind_eq_some_iff.mp hdofs
  rw [hdofs, on, List.getD_eq_getElem?_getD, List.getD_eq_getElem?_getD, hentities, Option.getD_some, hi,
    Option.getD_some]

variable {e : EntityDofs} {n : ℕ}

/-- The dofs on entities of one dimension are all different. -/
theorem Numbers.nodup_level (h : e.Numbers n) (k : ℕ) : (e.getD k []).flatten.Nodup := by
  by_cases hk : k < e.length
  · have hnodup : e.flat.Nodup := h.nodup_iff.mpr List.nodup_range
    rw [flat_eq_range, List.nodup_flatMap] at hnodup
    exact hnodup.1 k (List.mem_range.mpr hk)
  · rw [List.getD_eq_default _ _ (not_lt.mp hk)]
    exact List.nodup_nil

theorem Numbers.nodup_on (h : e.Numbers n) (k i : ℕ) : (on e k i).Nodup := by
  by_cases hi : i < (e.getD k []).length
  · rw [on, List.getD_eq_getElem _ _ hi]
    exact (List.nodup_flatten.mp (h.nodup_level k)).1 _ (List.getElem_mem hi)
  · rw [on, List.getD_eq_default _ _ (not_lt.mp hi)]
    exact List.nodup_nil

/-- A dof is on one entity only. -/
theorem Numbers.place_unique (h : e.Numbers n) {dof k i k' i' : ℕ} (hi : dof ∈ on e k i)
    (hi' : dof ∈ on e k' i') : (k, i) = (k', i') := by
  obtain rfl := h.level_unique (mem_level_of_on hi) (mem_level_of_on hi')
  have hentity {j : ℕ} (hj : dof ∈ on e k j) : ∃ hlt : j < (e.getD k []).length, dof ∈ (e.getD k [])[j] := by
    by_cases hlt : j < (e.getD k []).length
    · rw [on, List.getD_eq_getElem _ _ hlt] at hj
      exact ⟨hlt, hj⟩
    · rw [on, List.getD_eq_default _ _ (not_lt.mp hlt)] at hj
      cases hj
  obtain ⟨hlt, hmem⟩ := hentity hi
  obtain ⟨hlt', hmem'⟩ := hentity hi'
  have hdisjoint := List.pairwise_iff_getElem.mp (List.nodup_flatten.mp (h.nodup_level k)).2
  rcases Nat.lt_trichotomy i i' with hless | rfl | hmore
  · exact (hdisjoint i i' hlt hlt' hless hmem hmem').elim
  · rfl
  · exact (hdisjoint i' i hlt' hlt hmore hmem' hmem).elim

/-- Every dof is on some entity. -/
theorem Numbers.exists_place (h : e.Numbers n) {dof : ℕ} (hdof : dof < n) :
    ∃ k < e.length, ∃ i < (e.getD k []).length, dof ∈ on e k i := by
  have hmem : dof ∈ e.flat := h.mem_iff.mpr (List.mem_range.mpr hdof)
  rw [flat_eq_range, List.mem_flatMap] at hmem
  obtain ⟨k, hk, hmem⟩ := hmem
  obtain ⟨dofs, hdofs, hmem⟩ := List.mem_flatten.mp hmem
  obtain ⟨i, hi, rfl⟩ := List.getElem_of_mem hdofs
  refine ⟨k, List.mem_range.mp hk, i, hi, ?_⟩
  rwa [on, List.getD_eq_getElem _ _ hi]

end EntityDofs

namespace Layout.Even

variable {l : Layout} {c : ReferenceCell}

/-- The layout has the entities of its reference cell. -/
theorem length_entities (h : l.Even) (hc : l.cell = .simple c) (k : ℕ) :
    (l.entityDofs.getD k []).length = c.entityCounts.getD k 0 := by
  rw [← h.counts c hc, EntityDofs.counts]
  exact (List.getD_map _ [] List.length).symm

theorem isSome_entity? (h : l.Even) (hc : l.cell = .simple c) {vertices : List ℕ} {x : ℕ × ℕ}
    (hx : x ∈ c.closure vertices) : (DofMap.entity? l.entityDofs x.1 x.2).isSome := by
  obtain ⟨-, entity, hentity, -⟩ := ReferenceCell.mem_closure.mp hx
  have hsome := Option.isSome_iff_exists.mpr ⟨entity, hentity⟩
  rw [DofMap.entity?_isSome] at hsome ⊢
  have hcounts : l.entityDofs.map List.length = c.topology.map List.length := h.counts c hc
  rwa [hcounts]

end Layout.Even

namespace DofMap

variable {α : Type} [Scalar α] {e : Element α} {c : ReferenceCell}

theorem cell_ofElement (e : Element α) : (ofElement e).cell = e.cell := by
  cases e <;> rfl

/-- The dofs on the closure of a facet are those on its entities, one entity after the other. -/
theorem facetDofs_ofElement (h : e.layout.Even) (hc : e.cell = .simple c) {facet : ℕ} {vertices : List ℕ}
    (hfacet : c.facets[facet]? = some vertices) :
    (ofElement e).facetDofs facet =
      .ok ((c.closure vertices).flatMap fun x => EntityDofs.on e.layout.entityDofs x.1 x.2) := by
  have hall : (c.closure vertices).mapM (fun x => inRange (entity? (ofElement e).entityDofs x.1 x.2)) =
      .ok ((c.closure vertices).map fun x => EntityDofs.on e.layout.entityDofs x.1 x.2) := by
    refine Result.mapM_of_forall fun x hx => ?_
    rw [entityDofs_ofElement, EntityDofs.entity?_eq_some (h.isSome_entity? hc hx), inRange_some]
  unfold facetDofs
  rw [cell_ofElement, hc]
  simp only [Cell.reference?, hfacet]
  exact Result.bind_eq_ok.mpr ⟨_, hall, rfl⟩

end DofMap

namespace Layout.Even

variable {l : Layout} {c : ReferenceCell} {vertices : List ℕ}

theorem nodup_closure (h : l.Even) (hfacet : vertices ∈ c.facets) :
    ((c.closure vertices).flatMap fun x => EntityDofs.on l.entityDofs x.1 x.2).Nodup := by
  rw [List.nodup_flatMap]
  refine ⟨fun x _ => h.partitioned.numbers.nodup_on x.1 x.2, ?_⟩
  refine (c.nodup_closure vertices hfacet).imp fun {x y} hne dof hx hy => hne ?_
  exact h.partitioned.numbers.place_unique hx hy

/-- As all entities of one dimension have equally many dofs, the number of dofs on a closure follows from the
dimensions of its entities. -/
theorem length_closure (h : l.Even) (hc : l.cell = .simple c) {vertices' : List ℕ} (hfacet : vertices ∈ c.facets)
    (hfacet' : vertices' ∈ c.facets) :
    ((c.closure vertices).flatMap fun x => EntityDofs.on l.entityDofs x.1 x.2).length =
      ((c.closure vertices').flatMap fun x => EntityDofs.on l.entityDofs x.1 x.2).length := by
  have hlength {vs : List ℕ} : ((c.closure vs).flatMap fun x => EntityDofs.on l.entityDofs x.1 x.2).length =
      (((c.closure vs).map Prod.fst).map fun k => (EntityDofs.on l.entityDofs k 0).length).sum := by
    rw [List.length_flatMap, List.map_map]
    refine congrArg List.sum (List.map_congr_left fun x hx => ?_)
    have hsome := h.isSome_entity? hc hx
    obtain ⟨entities, hentities, hdofs⟩ := Option.bind_eq_some_iff.mp (EntityDofs.entity?_eq_some hsome)
    have hfirst : EntityDofs.on l.entityDofs x.1 0 ∈ entities := by
      have hpos : 0 < entities.length := List.length_pos_of_mem (List.mem_of_getElem? hdofs)
      have hlevel : l.entityDofs.getD x.1 [] = entities := by
        rw [List.getD_eq_getElem?_getD, hentities, Option.getD_some]
      rw [EntityDofs.on, hlevel, List.getD_eq_getElem _ _ hpos]
      exact List.getElem_mem hpos
    exact h.balanced c hc entities (List.mem_of_getElem? hentities) _ (List.mem_of_getElem? hdofs) _ hfirst
  rw [hlength, hlength, c.closure_dims vertices hfacet vertices' hfacet']

end Layout.Even

namespace Element

variable {α : Type} [Scalar α]

/-- The facets of a resolved element on a reference cell. The dofs on the closure of a facet can be listed; the list has
no repetition and holds the dofs on the entities below the dimension of the cell all of whose vertices belong to the
facet, and it is as long as that of the first facet. The dofs on no facet are those inside the cell. -/
theorem facetDofs_closure {c c' : Cache α} (hc : c.Reachable) {d : Descriptor} {e : Element α}
    (h : Resolve.Returns (resolve d) c e c') {r : ReferenceCell} (hcell : e.cell = .simple r) :
    (∀ facet < r.facets.length, ∃ dofs, (DofMap.ofElement e).facetDofs facet = .ok dofs ∧ dofs.Nodup ∧
      (∀ dof, dof ∈ dofs ↔
        ∃ k < r.dim, ∃ i, r.OnFacet facet k i ∧ dof ∈ EntityDofs.on e.layout.entityDofs k i) ∧
      (DofMap.ofElement e).numFacetDofs = .ok dofs.length) ∧
    ∀ dof < e.dimension,
      (∀ facet < r.facets.length, ∀ dofs, (DofMap.ofElement e).facetDofs facet = .ok dofs → dof ∉ dofs) ↔
        dof ∈ EntityDofs.on e.layout.entityDofs r.dim 0 := by
  obtain ⟨-, -, heven⟩ := (closed_even.resolve d).of_returns (Cache.Reachable.all closed_even hc) h
  have hlayout : e.layout.cell = .simple r := hcell
  have hnumbers := heven.partitioned.numbers
  have hlists {facet : ℕ} (hlt : facet < r.facets.length) :=
    DofMap.facetDofs_ofElement heven hcell (List.getElem?_eq_getElem hlt)
  refine ⟨fun facet hlt => ?_, fun dof hdof => ⟨fun hnone => ?_, fun hinside facet hlt dofs hdofs hmem => ?_⟩⟩
  · have hfacet := List.getElem?_eq_getElem hlt
    refine ⟨_, hlists hlt, heven.nodup_closure (List.getElem_mem hlt), fun dof => ?_, ?_⟩
    · rw [List.mem_flatMap]
      constructor
      · rintro ⟨⟨k, i⟩, hplace, hmem⟩
        obtain ⟨hk, entity, hentity, hsub⟩ := ReferenceCell.mem_closure.mp hplace
        exact ⟨k, hk, i, ⟨_, entity, hfacet, hentity, hsub⟩, hmem⟩
      · rintro ⟨k, hk, i, ⟨vertices, entity, hvertices, hentity, hsub⟩, hmem⟩
        obtain rfl := Option.some.inj (hfacet.symm.trans hvertices)
        exact ⟨(k, i), ReferenceCell.mem_closure.mpr ⟨hk, entity, hentity, hsub⟩, hmem⟩
    · rw [DofMap.numFacetDofs, hlists (Nat.zero_lt_of_lt hlt)]
      exact congrArg Except.ok (heven.length_closure hlayout (List.getElem_mem _) (List.getElem_mem hlt))
  · obtain ⟨k, hk, i, hi, hmem⟩ := hnumbers.exists_place hdof
    rw [heven.length_entities hlayout] at hi
    rw [heven.partitioned.levels, hlayout, Cell.dim_simple, Nat.lt_succ_iff] at hk
    rcases hk.lt_or_eq with hlow | rfl
    · -- An entity of the boundary belongs to the closure of some facet, whose list has the dof.
      obtain ⟨vertices, hvertices, hplace⟩ := r.exists_closure k hlow i hi
      obtain ⟨facet, hlt, rfl⟩ := List.getElem_of_mem hvertices
      exact absurd (List.mem_flatMap.mpr ⟨(k, i), hplace, hmem⟩) (hnone facet hlt _ (hlists hlt))
    · have hone : r.entityCounts.getD r.dim 0 = 1 := by cases r <;> rfl
      rw [hone, Nat.lt_one_iff] at hi
      rwa [hi] at hmem
  · obtain rfl := Except.ok.inj (hdofs.symm.trans (hlists hlt))
    obtain ⟨⟨k, i⟩, hplace, hmem⟩ := List.mem_flatMap.mp hmem
    have hsame := hnumbers.place_unique hmem hinside
    exact (ReferenceCell.mem_closure.mp hplace).1.ne (congrArg Prod.fst hsame)

/-- A linear function and a value in the middle of an interval. -/
def linearWithMidpoint : Descriptor :=
  .mixed [.simple "Lagrange" (.simple .interval) (some 1), .simple "Quadrature" (.simple .interval) (some 1)]

theorem exists_linearWithMidpoint : ∃ e : Element ℝ, ofDescriptor linearWithMidpoint = .ok e ∧
    e.cell = .simple .interval ∧ e.dimension = 3 ∧ e.layout.entityDofs = [[[0], [1]], [[2]]] := by
  obtain ⟨x, hx, hdimension, hdofs⟩ := Lagrange.continuous_linear
  have hcell : x.cell = .interval := (PolynomialElement.create_ok hx).1
  have hlinear : (direct (.simple "Lagrange" (.simple .interval) (some 1)) : Result (Element ℝ)) =
      .ok (.polynomial x) := Result.bind_eq_ok.mpr ⟨x, hx, rfl⟩
  have hmidpoint : ∃ nodes : List (Node ℝ), nodes.length = 1 ∧
      direct (.simple "Quadrature" (.simple .interval) (some 1)) = .ok (quadrature (.simple .interval) 1 nodes) :=
    ⟨_, rfl, rfl⟩
  obtain ⟨nodes, hnodes, hmidpoint⟩ := hmidpoint
  have hmix : mix [polynomial x, quadrature (.simple .interval) 1 nodes] =
      .ok (mixed [polynomial x, quadrature (.simple .interval) 1 nodes]) := by
    simp only [mix, layouts, layout, checkParts, Layout.ofPolynomial, Layout.quadrature, hcell, hdofs]
    rfl
  refine ⟨mixed [polynomial x, quadrature (.simple .interval) 1 nodes], ?_, ?_, ?_, ?_⟩
  · rw [ofDescriptor_eq_direct, linearWithMidpoint, direct]
    simp only [directParts, hlinear, hmidpoint]
    exact hmix
  · change Cell.simple x.cell = _
    rw [hcell]
  · change x.dimension + (nodes.length + 0) = 3
    rw [hdimension, hnodes]
  · simp only [layout, layouts, Layout.mixed, Layout.mergeAll, Layout.ofPolynomial, Layout.quadrature, hdofs,
      hdimension, hnodes]
    rfl

/-- Each end of the interval has one dof, and the value in the middle is on none of them. -/
theorem facetDofs_linearWithMidpoint : ∃ (e : Element ℝ) (c' : Cache ℝ),
    Resolve.Returns (resolve linearWithMidpoint) .empty e c' ∧ e.cell = .simple .interval ∧
    (∃ dofs, (DofMap.ofElement e).facetDofs 1 = .ok dofs ∧ 1 ∈ dofs ∧
      (DofMap.ofElement e).numFacetDofs = .ok dofs.length) ∧
    ∀ facet < 2, ∀ dofs, (DofMap.ofElement e).facetDofs facet = .ok dofs → 2 ∉ dofs := by
  obtain ⟨e, he, hcell, hdimension, hdofs⟩ := exists_linearWithMidpoint
  have hreturns : Resolve.Returns (resolve linearWithMidpoint) .empty e
      (Resolve.outcome (resolve linearWithMidpoint : Resolve ℝ (Element ℝ)) .empty).2 := Prod.ext he rfl
  obtain ⟨hlists, hinside⟩ := facetDofs_closure Cache.Reachable.empty hreturns hcell
  obtain ⟨dofs, hlist, -, hmem, hlength⟩ := hlists 1 one_lt_two
  have hone : 1 ∈ dofs := (hmem 1).mpr
    ⟨0, one_pos, 1, ⟨[1], [1], rfl, rfl, fun _ h => h⟩, by simp [hdofs, EntityDofs.on]⟩
  have htwo : 2 ∈ EntityDofs.on e.layout.entityDofs ReferenceCell.interval.dim 0 := by
    simp [hdofs, EntityDofs.on, ReferenceCell.dim]
  exact ⟨e, _, hreturns, hcell, ⟨dofs, hlist, hone, hlength⟩, (hinside 2 (by omega)).mpr htwo⟩

end Element
end Variational
