import Variational.Proofs.Composition
import Variational.Proofs.DofNumbering
import Variational.Proofs.Resolution

/-! Every resolved element attaches each of its dofs to one entity of its cell. The families number their
dofs in this way, and all ways of building elements from elements keep it. -/
namespace Variational

/-- The dofs of a layout are numbered by entity, with one level for each dimension of the cell. -/
structure Layout.Partitioned (l : Layout) : Prop where
  levels : l.entityDofs.length = l.cell.dim + 1
  numbers : l.entityDofs.Numbers l.dimension

namespace ReferenceCell

/-- A cell has one interior. -/
theorem getLast?_entityCounts (c : ReferenceCell) : c.entityCounts.getLast? = some 1 := by
  cases c <;> rfl

end ReferenceCell

namespace Cell

/-- Only the interiors of both factors contribute to the interior of a product. -/
theorem getLast?_convolve {xs ys : List ℕ} (hx : xs.getLast? = some 1) (hy : ys.getLast? = some 1) :
    (convolve xs ys).getLast? = some 1 := by
  obtain ⟨xs, rfl⟩ := List.getLast?_eq_some_iff.mp hx
  obtain ⟨ys, rfl⟩ := List.getLast?_eq_some_iff.mp hy
  have hlength : (xs ++ [1]).length + (ys ++ [1]).length - 1 = xs.length + ys.length + 1 := by
    simp only [List.length_append, List.length_singleton]
    omega
  rw [convolve, hlength, List.range_succ, List.map_append, List.map_singleton,
    List.getLast?_concat, Option.some.injEq]
  change ∑ i ∈ Finset.range (xs.length + ys.length + 1),
    (xs ++ [1]).getD i 0 * (ys ++ [1]).getD (xs.length + ys.length - i) 0 = 1
  rw [Finset.sum_eq_single xs.length]
  · simp
  · intro i _ hi
    rcases Nat.lt_or_gt_of_ne hi with h | h
    · rw [List.getD_eq_default (ys ++ [1]) 0 (by simp; omega), mul_zero]
    · rw [List.getD_eq_default (xs ++ [1]) 0 (by simp; omega), zero_mul]
  · intro h
    exact absurd (Finset.mem_range.mpr (by omega)) h

theorem getLast?_entityCounts (c : Cell) : c.entityCounts.getLast? = some 1 := by
  induction c with
  | simple c => exact c.getLast?_entityCounts
  | product a b ha hb =>
    have hlast := getLast?_convolve ha hb
    simp only [entityCounts]
    split_ifs with h
    · rw [List.getLast?_eq_getElem?, List.length_set, List.getElem?_set_ne (by omega),
        ← List.getLast?_eq_getElem?, hlast]
    · exact hlast

end Cell

namespace LinearSystem

variable {α : Type} [Scalar α]

theorem length_eliminate {n : ℕ} {es : List (Equation α)} {xs : List (List α)}
    (h : eliminate n es = some xs) : xs.length = n := by
  induction n generalizing es xs with
  | zero =>
    obtain rfl := Option.some.inj h
    rfl
  | succ n ih =>
    unfold eliminate at h
    split at h
    · split_ifs at h
      obtain ⟨rest, hrest, rfl⟩ := Option.map_eq_some_iff.mp h
      rw [List.length_cons, ih hrest]
    · cases h

theorem length_inverse {matrix inv : List (List α)} (h : inverse matrix = some inv) :
    inv.length = matrix.length := by
  have hsmall (h : inverseSmall matrix = some inv) : inv.length = matrix.length := by
    simp only [inverseSmall] at h
    split_ifs at h
    obtain rfl := Option.some.inj h
    simp [adjugate]
  unfold inverse at h
  split at h
  · rename_i hzero
    obtain rfl := Option.some.inj h
    rw [hzero]
    rfl
  · exact hsmall h
  · exact hsmall h
  · exact hsmall h
  · simp only [inverseFour] at h
    split_ifs at h
    obtain rfl := Option.some.inj h
    simp [adjugate]
  · exact length_eliminate h

end LinearSystem

namespace PolynomialElement

variable {α : Type} [Scalar α]

/-- A dual basis is made of one weight for each component of each functional, of values at their points and of an
invertible matrix. Its coefficients are combinations of the rows of the span. -/
theorem dualBasis_ok {family : String} {cell : ReferenceCell} {degree valueSize : ℕ}
    {span : List (List (List α))} {functionals : List (Functional α)} {embeddedDegree : ℕ}
    {coefficients : List (List (List α))}
    (h : dualBasis family cell degree valueSize span functionals embeddedDegree = .ok coefficients) :
    functionals.length = span.length ∧ (∀ f ∈ functionals, f.weights.length = valueSize) ∧
      (∀ member ∈ span, covers valueSize (Expansion.count cell embeddedDegree) member = true) ∧
      ∃ values inverse, Expansion.values cell embeddedDegree (functionals.map (·.point)) = .ok values ∧
        LinearSystem.inverse (span.map fun member =>
          List.zipWith (fun f v => applyFunctional f v member) functionals values) = some inverse ∧
        coefficients = inverse.map fun weights => (List.range valueSize).map fun c =>
          combine (Expansion.count cell embeddedDegree) weights (span.map fun member => member.getD c []) := by
  simp only [dualBasis] at h
  split at h
  · cases h
  rename_i hcount
  split at h
  · cases h
  rename_i hweights
  rw [Result.bind_eq_ok] at h
  obtain ⟨values, hvalues, h⟩ := h
  split at h
  · cases h
  rename_i hcovers
  split at h
  · cases h
  rename_i inverse hinverse
  rw [Result.pure_eq_ok] at h
  simp only [Bool.not_eq_true', Bool.not_eq_false, List.all_eq_true] at hcovers
  refine ⟨not_not.mp hcount, fun f hf => ?_, hcovers, values, inverse, hvalues, hinverse, ?_⟩
  · have hnone := List.find?_eq_none.mp (Option.eq_none_iff_forall_ne_some.mpr hweights) f hf
    simpa using hnone
  · rw [← h]
    simp only [List.map_map]
    rfl

/-- There are as many basis functions as functionals, and as members of the span. -/
theorem length_dualBasis {family : String} {cell : ReferenceCell} {degree valueSize : ℕ}
    {span : List (List (List α))} {functionals : List (Functional α)} {embeddedDegree : ℕ}
    {coefficients : List (List (List α))}
    (h : dualBasis family cell degree valueSize span functionals embeddedDegree = .ok coefficients) :
    coefficients.length = span.length ∧ functionals.length = span.length := by
  obtain ⟨hcount, -, -, _, _, -, hinverse, rfl⟩ := dualBasis_ok h
  have hlength := LinearSystem.length_inverse hinverse
  rw [List.length_map] at hlength
  exact ⟨(List.length_map _).trans hlength, hcount⟩

theorem exists_dualBasis {family : String} {cell : ReferenceCell} {degree : ℕ} {valueShape : List ℕ}
    {span : List (List (List α))} {functionals : List (Functional α)} {entityDofs : EntityDofs}
    {map : ValueMap} {embeddedDegree : ℕ} {e : PolynomialElement α}
    (h : create family cell degree valueShape span functionals entityDofs map embeddedDegree = .ok e) :
    ∃ coefficients, dualBasis family cell degree (valueShape.foldr (· * ·) 1) span functionals embeddedDegree =
        .ok coefficients ∧
      e = { family, cell, degree, embeddedDegree, map, valueShape, coefficients, entityDofs } := by
  simp only [create, Result.bind_eq_ok, Result.pure_eq_ok] at h
  obtain ⟨coefficients, hcoefficients, rfl⟩ := h
  exact ⟨coefficients, hcoefficients, rfl⟩

theorem create_ok {family : String} {cell : ReferenceCell} {degree : ℕ} {valueShape : List ℕ}
    {span : List (List (List α))} {functionals : List (Functional α)} {entityDofs : EntityDofs}
    {map : ValueMap} {embeddedDegree : ℕ} {e : PolynomialElement α}
    (h : create family cell degree valueShape span functionals entityDofs map embeddedDegree = .ok e) :
    e.cell = cell ∧ e.entityDofs = entityDofs ∧ e.dimension = span.length ∧
      functionals.length = span.length := by
  obtain ⟨coefficients, hcoefficients, rfl⟩ := exists_dualBasis h
  exact ⟨rfl, rfl, length_dualBasis hcoefficients⟩

/-- The dofs of an element are numbered by entity, with one level for each dimension of the cell. -/
structure Numbered (e : PolynomialElement α) : Prop where
  levels : e.entityDofs.length = e.cell.dim + 1
  numbers : e.entityDofs.Numbers e.dimension

theorem Numbered.partitioned {e : PolynomialElement α} (h : e.Numbered) :
    (Layout.ofPolynomial e).Partitioned := ⟨h.levels, h.numbers⟩

theorem create_numbered {family : String} {cell : ReferenceCell} {degree : ℕ} {valueShape : List ℕ}
    {span : List (List (List α))} {functionals : List (Functional α)} {entityDofs : EntityDofs}
    {map : ValueMap} {embeddedDegree : ℕ} {e : PolynomialElement α}
    (h : create family cell degree valueShape span functionals entityDofs map embeddedDegree = .ok e)
    (hlevels : entityDofs.length = cell.dim + 1)
    (hnumbers : functionals.length = span.length → entityDofs.Numbers span.length) : e.Numbered := by
  obtain ⟨rfl, rfl, hdimension, hlength⟩ := create_ok h
  exact ⟨hlevels, hdimension ▸ hnumbers hlength⟩

theorem ofPoints_numbered {family : String} {cell : ReferenceCell} {degree : ℕ}
    {points : List (List α)} {entityDofs : EntityDofs} {e : PolynomialElement α}
    (h : ofPoints family cell degree points entityDofs = .ok e)
    (hlevels : entityDofs.length = cell.dim + 1) (hnumbers : entityDofs.Numbers points.length) :
    e.Numbered := by
  refine create_numbered h hlevels fun hlength => ?_
  rwa [← hlength, List.length_map]

end PolynomialElement

namespace Lagrange

variable {α : Type} [Scalar α]

theorem length_latticePoints (cell : ReferenceCell) (degree : ℕ) (vertices : List (List α))
    (topology : List (List (List ℕ))) (dim : ℕ) :
    ((topology.zipIdx dim).flatMap fun x => x.1.flatMap fun entity =>
        lattice cell degree x.2 (entity.map fun v => vertices.getD v [])).length =
      EntityDofs.total (fun d => (steps cell d degree).length) dim (topology.map List.length) := by
  induction topology generalizing dim with
  | nil => rfl
  | cons entities topology ih =>
    have hfirst : (entities.flatMap fun entity =>
        lattice cell degree dim (entity.map fun v => vertices.getD v [])).length =
          entities.length * (steps cell dim degree).length := by
      simp [lattice, List.length_flatMap]
    rw [List.zipIdx_cons, List.flatMap_cons, List.length_append, ih, hfirst]
    rfl

theorem continuous_numbered {cell : ReferenceCell} {degree : ℕ} {e : PolynomialElement α}
    (h : continuous cell degree = .ok e) : e.Numbered := by
  refine PolynomialElement.ofPoints_numbered (continuous_ok h).2 (by simp) ?_
  rw [points, length_latticePoints]
  exact EntityDofs.uniform_numbers _ _

theorem discontinuous_numbered {cell : ReferenceCell} {degree : ℕ} {e : PolynomialElement α}
    (h : discontinuous cell degree = .ok e) : e.Numbered :=
  PolynomialElement.ofPoints_numbered h (by simp)
    (EntityDofs.inside_numbers cell.getLast?_entityCounts _)

theorem crouzeixRaviart_numbered {cell : ReferenceCell} {degree : ℕ} {e : PolynomialElement α}
    (h : crouzeixRaviart cell degree = .ok e) : e.Numbered := by
  obtain ⟨⟨-, hcell⟩, h⟩ := crouzeixRaviart_ok h
  refine PolynomialElement.ofPoints_numbered h (by simp) ?_
  have htotal : EntityDofs.total (fun d => if d + 1 = cell.dim then 1 else 0) 0 cell.entityCounts =
      (cell.facets.map (centre cell : List ℕ → List α)).length := by
    rw [List.length_map]
    rcases hcell with rfl | rfl <;> rfl
  rw [← htotal]
  exact EntityDofs.uniform_numbers _ _

theorem bubble_numbered {cell : ReferenceCell} {degree : ℕ} {e : PolynomialElement α}
    (h : bubble cell degree = .ok e) : e.Numbered := by
  obtain ⟨x, dofs, hx, -, h⟩ := bubble_ok h
  obtain ⟨coefficients, hcoefficients, rfl⟩ := PolynomialElement.subset_ok h
  have hcell : x.cell = cell := (PolynomialElement.create_ok (continuous_ok hx).2).1
  refine ⟨by simp [hcell], ?_⟩
  rw [PolynomialElement.dimension, ← hcoefficients.length_eq]
  exact EntityDofs.inside_numbers cell.getLast?_entityCounts _

end Lagrange

namespace VectorFamily

variable {α : Type} [Scalar α]

/-- The space of a family has as many members as the facets or edges have dofs. -/
theorem length_span {f : VectorFamily} {cell : ReferenceCell}
    (hcell : cell = .triangle ∨ cell = .tetrahedron) {span : List (List (List α))}
    (h : f.span cell = .ok span) :
    EntityDofs.total
      (fun d => if d = (if f.isNormal then cell.dim - 1 else 1) then f.dofsPerEntity cell else 0) 0
      cell.entityCounts = span.length := by
  unfold VectorFamily.span at h
  split_ifs at h with hfull
  · obtain rfl := Except.ok.inj h
    rcases hcell with rfl | rfl <;> cases f <;> first | rfl | cases hfull
  · have hlength := Result.length_of_mapM h
    rw [hlength]
    rcases hcell with rfl | rfl <;> cases f <;> first | exact absurd rfl hfull | rfl

theorem create_numbered {f : VectorFamily} {cell : ReferenceCell} {degree : ℕ}
    {e : PolynomialElement α} (h : f.create cell degree = .ok e) : e.Numbered := by
  obtain ⟨⟨-, hcell⟩, functionals, span, hspan, h⟩ := create_ok h
  refine PolynomialElement.create_numbered h (by simp) fun _ => ?_
  rw [← length_span hcell hspan]
  exact EntityDofs.uniform_numbers _ _

end VectorFamily

namespace TimeFamily

variable {α : Type} [Scalar α]

theorem create_numbered {f : TimeFamily} {degree : ℕ} {e : PolynomialElement α}
    (h : f.create degree = .ok e) : e.Numbered := by
  obtain ⟨hzero, h⟩ := create_ok h
  refine PolynomialElement.create_numbered h ?_ fun _ => ?_
  · cases f <;> rfl
  · have hspan : (PolynomialElement.fullSpan .interval degree : List (List (List α))).length =
        degree + 1 := by
      simp [PolynomialElement.fullSpan, LinearSystem.identity, Expansion.count]
    rw [hspan]
    cases f with
    | lobatto =>
      obtain ⟨k, rfl⟩ := Nat.exists_eq_succ_of_ne_zero fun h => hzero ⟨rfl, h⟩
      have hrange : List.range (k + 2) = 0 :: (List.range' 1 k ++ [k + 1]) := by
        rw [List.range_eq_range', List.range'_succ, List.range'_concat]
        simp [Nat.add_comm]
      have hflat : EntityDofs.flat (lobatto.entityDofs (k + 1)) = 0 :: ([k + 1] ++ List.range' 1 k) := by
        simp [EntityDofs.flat, entityDofs]
      rw [EntityDofs.Numbers, hflat, hrange]
      exact List.perm_append_comm.cons 0
    | radau =>
      rw [EntityDofs.Numbers]
      simp [EntityDofs.flat, entityDofs]

end TimeFamily

theorem PolynomialElement.ofFamily_numbered {α : Type} [Scalar α] {family : String}
    {cell : ReferenceCell} {degree : ℕ} {e : PolynomialElement α}
    (h : PolynomialElement.ofFamily family cell degree = .ok e) : e.Numbered := by
  unfold PolynomialElement.ofFamily at h
  split at h
  · cases h
  split at h
  · exact Lagrange.continuous_numbered h
  · exact Lagrange.discontinuous_numbered h
  · exact Lagrange.crouzeixRaviart_numbered h
  · exact Lagrange.bubble_numbered h
  · exact VectorFamily.create_numbered h
  · exact VectorFamily.create_numbered h
  · exact VectorFamily.create_numbered h
  · exact VectorFamily.create_numbered h
  · cases h

namespace Layout

theorem quadrature_partitioned (cell : Cell) (degree n : ℕ) :
    (quadrature cell degree n).Partitioned :=
  ⟨by simp [quadrature, Cell.length_entityCounts],
    EntityDofs.inside_numbers cell.getLast?_entityCounts n⟩

theorem Partitioned.restricted {l : Layout} (h : l.Partitioned) {indices : List ℕ}
    (hsub : indices.Sublist l.entityDofs.flat) (domain : Domain) :
    (l.restricted indices domain).Partitioned :=
  ⟨(EntityDofs.length_keep _ _).trans h.levels, h.numbers.keep hsub⟩

theorem Partitioned.enriched {a b : Layout} (ha : a.Partitioned) (hb : b.Partitioned)
    (hcounts : EntityDofs.counts a.entityDofs = EntityDofs.counts b.entityDofs) :
    (a.enriched b).Partitioned := by
  refine ⟨?_, ha.numbers.merge hb.numbers hcounts⟩
  have hlength := EntityDofs.length_eq_of_counts (EntityDofs.counts_merge a.dimension hcounts)
  exact hlength.trans ha.levels

theorem Partitioned.product {a b : Layout} (ha : a.Partitioned) (hb : b.Partitioned) :
    (a.product b).Partitioned := by
  refine ⟨?_, ha.numbers.product hb.numbers⟩
  change (EntityDofs.product b.dimension a.entityDofs b.entityDofs).length = a.cell.dim + b.cell.dim + 1
  rw [EntityDofs.length_product, ha.levels, hb.levels]
  omega

/-- One part after the other, all with the same numbers of entities. -/
theorem mergeAll_numbers {ls : List Layout} {counts : List ℕ}
    (hls : ∀ l ∈ ls, l.Partitioned ∧ EntityDofs.counts l.entityDofs = counts) {dofs : EntityDofs}
    {n : ℕ} (hdofs : dofs.Numbers n) (hcounts : EntityDofs.counts dofs = counts) :
    (mergeAll n dofs ls).Numbers (n + (ls.map (·.dimension)).sum) ∧
      EntityDofs.counts (mergeAll n dofs ls) = counts := by
  induction ls generalizing dofs n with
  | nil => exact ⟨hdofs, hcounts⟩
  | cons l ls ih =>
    rw [List.forall_mem_cons] at hls
    have hsame : EntityDofs.counts dofs = EntityDofs.counts l.entityDofs := hcounts.trans hls.1.2.symm
    rw [mergeAll, List.map_cons, List.sum_cons, ← Nat.add_assoc]
    exact ih hls.2 (hdofs.merge hls.1.1.numbers hsame)
      ((EntityDofs.counts_merge n hsame).trans hcounts)

theorem Partitioned.mixed {l : Layout} {ls : List Layout} (hl : l.Partitioned)
    (hls : ∀ l' ∈ ls, l'.Partitioned ∧
      EntityDofs.counts l'.entityDofs = EntityDofs.counts l.entityDofs) :
    (mixed (l :: ls)).Partitioned := by
  obtain ⟨hnumbers, hcounts⟩ := mergeAll_numbers hls hl.numbers rfl
  exact ⟨(EntityDofs.length_eq_of_counts hcounts).trans hl.levels, hnumbers⟩

end Layout

namespace Element

variable {α : Type} [Scalar α]

theorem ofFamily_partitioned {family : String} {cell : Cell} {degree : Option ℕ} {e : Element α}
    (h : ofFamily family cell degree = .ok e) : e.layout.Partitioned := by
  cases (ofFamily_ok h).2 with
  | reals _ _ hx =>
    have hnumbered := PolynomialElement.ofFamily_numbered hx
    exact ⟨hnumbered.levels, hnumbered.numbers⟩
  | time _ hx => exact (TimeFamily.create_numbered hx).partitioned
  | quadrature => exact Layout.quadrature_partitioned _ _ _
  | polynomial _ hx => exact (PolynomialElement.ofFamily_numbered hx).partitioned

/-- The dofs that a restriction keeps stand in the order of their entities. -/
theorem selectIndices_sublist {l : Layout} {domain : Domain} {indices : List ℕ}
    (h : selectIndices l domain = .ok indices) : indices.Sublist l.entityDofs.flat := by
  obtain ⟨-, entities, hentities, hindices⟩ | ⟨c, -, rfl⟩ := selectIndices_ok h
  · have hmem : indices ∈ l.entityDofs.flatten :=
      List.mem_flatten.mpr ⟨entities, List.mem_of_getElem? hentities, List.mem_of_getElem? hindices⟩
    exact List.sublist_flatten_of_mem hmem
  · rw [EntityDofs.flat, List.flatMap_def, ← List.flatten_flatten]
    exact ((List.take_sublist _ _).flatten).flatten

theorem closed_partitioned : Closed fun e : Element α => e.layout.Partitioned where
  family := ofFamily_partitioned
  restrict he h := he.restricted (selectIndices_sublist h) _
  enrich ha hb h := by
    obtain ⟨-, -, -, hcounts⟩ := enrich_compatible h
    obtain rfl := enrich_ok h
    exact ha.enriched hb hcounts
  tensor ha hb h := by
    obtain rfl := tensor_ok h
    exact ha.product hb
  wrap ha h := by
    obtain ⟨a, b, c, rfl, -, rfl⟩ := wrap_ok h
    exact ⟨ha.levels, ha.numbers⟩
  mix hparts h := by
    obtain ⟨first, rest, rfl, hsame⟩ := mix_compatible h
    obtain rfl := mix_ok h
    rw [List.forall_mem_cons] at hparts
    rw [layout_mixed]
    exact hparts.1.mixed (List.forall_mem_map.mpr fun x hx => ⟨hparts.2 x hx, (hsame x hx).2⟩)

/-- Every dof of a resolved element is attached to exactly one entity of its cell. -/
theorem entityDofs_perm_range {c c' : Cache α} (hc : c.Reachable) {d : Descriptor} {e : Element α}
    (h : Resolve.Returns (resolve d) c e c') :
    e.layout.entityDofs.length = e.cell.dim + 1 ∧
      e.layout.entityDofs.flatten.flatten.Perm (List.range e.dimension) := by
  obtain ⟨-, -, hpartitioned⟩ :=
    (closed_partitioned.resolve d).of_returns (Cache.Reachable.all closed_partitioned hc) h
  exact ⟨hpartitioned.levels, hpartitioned.numbers⟩

/-- Two values at a point, times one value. -/
def pointPair : Descriptor :=
  let value : Descriptor := .simple "Quadrature" (.simple .point) (some 1)
  .product (.mixed [value, value]) value

theorem entityDofs_pointPair :
    ∃ (e : Element Float) (c' : Cache Float), (resolve pointPair).Returns .empty e c' ∧
      e.layout.entityDofs.flatten.flatten.Perm (List.range 2) := by
  have hresolve : ∃ (e : Element Float) (c' : Cache Float),
      (resolve pointPair).Returns .empty e c' ∧ e.dimension = 2 := ⟨_, _, rfl, rfl⟩
  obtain ⟨e, c', he, hdimension⟩ := hresolve
  have hperm := (entityDofs_perm_range Cache.Reachable.empty he).2
  rw [hdimension] at hperm
  exact ⟨e, c', he, hperm⟩

end Element
end Variational
