import Variational.Proofs.ElementShapes
import Variational.Proofs.FamilyNames
import Variational.Proofs.GlobalNumbering
import Variational.Proofs.NestedRestriction

/-! The dofs of a mesh that is a single cell. Each entity of a dimension owns as many numbers as the entity
with the most dofs needs, so all numbers are used exactly when the entities of one dimension have equally
many dofs. On a reference cell they have; on a product cell they need not. -/
namespace Variational

namespace EntityDofs

/-- All entities of one dimension have equally many dofs. -/
def Balanced (e : EntityDofs) : Prop :=
  ∀ entities ∈ e, ∀ xs ∈ entities, ∀ ys ∈ entities, xs.length = ys.length

section Builders

theorem mem_blocks {start : ℕ} {ns : List ℕ} {dofs : List ℕ} (h : dofs ∈ blocks start ns) :
    dofs.length ∈ ns := by
  induction ns generalizing start with
  | nil => cases h
  | cons n ns ih =>
    rcases List.mem_cons.mp h with rfl | h
    · simp
    · exact List.mem_cons_of_mem _ (ih h)

theorem uniformFrom_balanced (start dim : ℕ) (perEntity : ℕ → ℕ) (counts : List ℕ) :
    (uniformFrom start dim perEntity counts).Balanced := by
  induction counts generalizing start dim with
  | nil => exact fun _ h => by cases h
  | cons n ns ih =>
    rw [uniformFrom, Balanced, List.forall_mem_cons]
    refine ⟨fun xs hxs ys hys => ?_, ih _ _⟩
    rw [List.eq_of_mem_replicate (mem_blocks hxs), List.eq_of_mem_replicate (mem_blocks hys)]

theorem uniform_balanced (counts : List ℕ) (perEntity : ℕ → ℕ) : (uniform counts perEntity).Balanced :=
  uniformFrom_balanced 0 0 perEntity counts

theorem Balanced.merge {e f : EntityDofs} (he : e.Balanced) (hf : f.Balanced) (offset : ℕ) :
    (merge offset e f).Balanced := by
  intro entities hentities xs hxs ys hys
  obtain ⟨as, has, bs, hbs, rfl⟩ := Result.of_mem_zipWith hentities
  obtain ⟨a, ha, b, hb, rfl⟩ := Result.of_mem_zipWith hxs
  obtain ⟨a', ha', b', hb', rfl⟩ := Result.of_mem_zipWith hys
  simp only [List.length_append, List.length_map]
  rw [he as has a ha a' ha', hf bs hbs b hb b' hb']

theorem length_keepOn (indices dofs : List ℕ) :
    (dofs.filterMap fun d => indices.idxOf? d).length = dofs.countP (· ∈ indices) := by
  induction dofs with
  | nil => rfl
  | cons d dofs ih =>
    by_cases hd : d ∈ indices
    · rw [List.filterMap_cons, List.countP_cons_of_pos (by simpa using hd)]
      cases h : indices.idxOf? d with
      | none => exact absurd hd (List.idxOf?_eq_none_iff.mp h)
      | some i => rw [List.length_cons, ih]
    · rw [List.filterMap_cons, List.idxOf?_eq_none_iff.mpr hd, List.countP_cons_of_neg (by simpa using hd)]
      exact ih

/-- A restriction that keeps all dofs of a dimension or none, or that dimension has one entity, leaves
equally many on each entity. -/
theorem Balanced.keep {e : EntityDofs} (he : e.Balanced) {indices : List ℕ}
    (h : ∀ entities ∈ e, (∀ d ∈ entities.flatten, d ∈ indices) ∨ (∀ d ∈ entities.flatten, d ∉ indices) ∨
      entities.length = 1) : (keep indices e).Balanced := by
  intro entities hentities xs hxs ys hys
  obtain ⟨level, hlevel, rfl⟩ := List.mem_map.mp hentities
  obtain ⟨x, hx, rfl⟩ := List.mem_map.mp hxs
  obtain ⟨y, hy, rfl⟩ := List.mem_map.mp hys
  rw [length_keepOn, length_keepOn]
  rcases h level hlevel with hall | hnone | hone
  · have hfull {z : List ℕ} (hz : z ∈ level) : z.countP (· ∈ indices) = z.length := by
      rw [List.countP_eq_length]
      intro d hd
      exact decide_eq_true (hall d (List.mem_flatten_of_mem hz hd))
    rw [hfull hx, hfull hy]
    exact he level hlevel x hx y hy
  · have hempty {z : List ℕ} (hz : z ∈ level) : z.countP (· ∈ indices) = 0 := by
      rw [List.countP_eq_zero]
      intro d hd
      simpa using hnone d (List.mem_flatten_of_mem hz hd)
    rw [hempty hx, hempty hy]
  · obtain ⟨z, rfl⟩ := List.length_eq_one_iff.mp hone
    rw [List.mem_singleton.mp hx, List.mem_singleton.mp hy]

theorem counts_keep (indices : List ℕ) (e : EntityDofs) : counts (keep indices e) = counts e := by
  simp [counts, keep]

end Builders
end EntityDofs

/-- On a reference cell the layout has the entities of the cell and equally many dofs on all entities of one
dimension. -/
structure Layout.Even (l : Layout) : Prop where
  partitioned : l.Partitioned
  counts : ∀ c, l.cell = .simple c → EntityDofs.counts l.entityDofs = c.entityCounts
  balanced : ∀ c, l.cell = .simple c → EntityDofs.Balanced l.entityDofs

namespace Layout.Even

variable {α : Type} [Scalar α]

/-- On a product cell nothing more is asked. -/
theorem ofProduct {l : Layout} (hl : l.Partitioned) {a b : Cell} (h : l.cell = .product a b) : l.Even := by
  refine ⟨hl, fun c hc => ?_, fun c hc => ?_⟩
  all_goals
    rw [h] at hc
    cases hc

/-- The interior of a reference cell is one entity. -/
theorem length_interior {l : Layout} (h : l.Even) {c : ReferenceCell} (hc : l.cell = .simple c)
    {entities : List (List ℕ)} (hk : l.entityDofs[l.cell.dim]? = some entities) : entities.length = 1 := by
  have hlast := c.getLast?_entityCounts
  rw [List.getLast?_eq_getElem?, ReferenceCell.length_entityCounts, Nat.add_sub_cancel, ← h.counts c hc,
    EntityDofs.counts, List.getElem?_map, ← Cell.dim_simple, ← hc, hk] at hlast
  exact Option.some.inj hlast

theorem restricted {l : Layout} (h : l.Even) {domain : Domain} {indices : List ℕ}
    (hindices : Element.selectIndices l domain = .ok indices) : (l.restricted indices domain).Even := by
  refine ⟨h.partitioned.restricted (Element.selectIndices_sublist hindices) domain, fun c hc => ?_,
    fun c hc => ?_⟩
  · exact (EntityDofs.counts_keep _ _).trans (h.counts c hc)
  refine (h.balanced c hc).keep fun entities hentities => ?_
  obtain ⟨k, hk⟩ := List.mem_iff_getElem?.mp hentities
  have hlevel : l.entityDofs.getD k [] = entities := by rw [List.getD_eq_getElem?_getD, hk, Option.getD_some]
  by_cases hallows : domain.Allows l.cell.dim k
  · cases domain with
    | interior =>
      -- The only level that the domain allows is that of the cell itself.
      have hlt := (List.getElem?_eq_some_iff.mp hk).1
      have hlevels := h.partitioned.levels
      obtain rfl : k = l.cell.dim := le_antisymm (by omega) hallows
      exact .inr (.inr (h.length_interior hc hk))
    | upTo c' =>
      obtain rfl := Except.ok.inj hindices
      refine .inl fun d hd => List.mem_flatMap.mpr ⟨entities, ?_, hd⟩
      refine List.mem_of_getElem? (i := k) ?_
      rw [List.getElem?_take_of_lt (Nat.lt_succ_iff.mpr hallows), hk]
    | other _ => cases hindices
  · refine .inr (.inl fun d hd hmem => hallows ?_)
    obtain ⟨k', hallows', hd'⟩ := Element.mem_selectIndices hindices hmem
    rw [← hlevel] at hd
    rwa [h.partitioned.numbers.level_unique hd hd']

theorem enriched {a b : Layout} (ha : a.Even) (hb : b.Even) (hcell : a.cell = b.cell)
    (hcounts : EntityDofs.counts a.entityDofs = EntityDofs.counts b.entityDofs) : (a.enriched b).Even := by
  refine ⟨ha.partitioned.enriched hb.partitioned hcounts, fun c hc => ?_, fun c hc => ?_⟩
  · exact (EntityDofs.counts_merge a.dimension hcounts).trans (ha.counts c hc)
  · exact (ha.balanced c hc).merge (hb.balanced c (hcell.symm.trans hc)) a.dimension

theorem mergeAll_balanced {ls : List Layout} (hls : ∀ l ∈ ls, EntityDofs.Balanced l.entityDofs)
    {dofs : EntityDofs} (hdofs : dofs.Balanced) (n : ℕ) : (mergeAll n dofs ls).Balanced := by
  induction ls generalizing dofs n with
  | nil => exact hdofs
  | cons l ls ih =>
    rw [List.forall_mem_cons] at hls
    exact ih hls.2 (hdofs.merge hls.1 n) _

theorem mixed {l : Layout} {ls : List Layout} (hl : l.Even) (hls : ∀ l' ∈ ls, l'.Even)
    (hsame : ∀ l' ∈ ls, l'.cell = l.cell ∧
      EntityDofs.counts l'.entityDofs = EntityDofs.counts l.entityDofs) : (Layout.mixed (l :: ls)).Even := by
  have hnumbers := Layout.mergeAll_numbers
    (fun l' hl' => ⟨(hls l' hl').partitioned, (hsame l' hl').2⟩) hl.partitioned.numbers rfl
  refine ⟨Layout.Partitioned.mixed hl.partitioned fun l' hl' => ⟨(hls l' hl').partitioned, (hsame l' hl').2⟩,
    fun c hc => ?_, fun c hc => ?_⟩
  · exact hnumbers.2.trans (hl.counts c hc)
  · exact mergeAll_balanced
      (fun l' hl' => (hls l' hl').balanced c ((hsame l' hl').1.trans hc)) (hl.balanced c hc) _

end Layout.Even

namespace Element

variable {α : Type} [Scalar α]

theorem OfFamily.balanced {family : String} {cell : Cell} {degree : ℕ} {e : Element α}
    (h : OfFamily family cell degree e) : EntityDofs.Balanced e.layout.entityDofs := by
  have hregular {c : ReferenceCell} {x : PolynomialElement α} (hx : x.Regular c) :
      EntityDofs.Balanced x.entityDofs := by
    obtain ⟨-, perEntity, hdofs⟩ := hx
    rw [hdofs]
    exact EntityDofs.uniform_balanced _ _
  cases h with
  | reals _ _ hx => exact hregular (PolynomialElement.ofFamily_regular hx)
  | @time f x _ hx =>
    obtain ⟨-, hdofs, -⟩ := PolynomialElement.create_ok (TimeFamily.create_ok hx).2
    change EntityDofs.Balanced x.entityDofs
    rw [hdofs]
    cases f <;> simp [EntityDofs.Balanced, TimeFamily.entityDofs]
  | quadrature => exact EntityDofs.uniform_balanced _ _
  | polynomial _ hx => exact hregular (PolynomialElement.ofFamily_regular hx)

/-- Every resolved element on a reference cell has equally many dofs on all entities of one dimension. -/
theorem closed_even : Closed fun e : Element α => e.layout.Even where
  family {_ _ _ e} h := by
    have hfamily := (ofFamily_ok h).2
    refine ⟨ofFamily_partitioned h, fun c hc => ?_, fun _ _ => hfamily.balanced⟩
    have hcell : e.cell = .simple c := hc
    rw [hfamily.counts_eq, hcell]
    rfl
  restrict he h := he.restricted h
  enrich ha hb h := by
    obtain ⟨hcell, -, -, hcounts⟩ := enrich_compatible h
    obtain rfl := enrich_ok h
    exact ha.enriched hb hcell hcounts
  tensor ha hb h := by
    obtain rfl := tensor_ok h
    exact .ofProduct (ha.partitioned.product hb.partitioned) rfl
  wrap ha h := by
    obtain ⟨a, b, c, rfl, -, rfl⟩ := wrap_ok h
    exact .ofProduct ⟨ha.partitioned.levels, ha.partitioned.numbers⟩ rfl
  mix hparts h := by
    obtain ⟨first, rest, rfl, hsame⟩ := mix_compatible h
    obtain rfl := mix_ok h
    rw [List.forall_mem_cons] at hparts
    rw [layout_mixed]
    exact .mixed hparts.1 (List.forall_mem_map.mpr hparts.2) (List.forall_mem_map.mpr hsame)

end Element

section Counting

/-- Numbers with a bound add up to the bound times their number exactly when each of them is the bound. -/
theorem sum_eq_mul_length_iff {xs : List ℕ} {b : ℕ} (h : ∀ x ∈ xs, x ≤ b) :
    xs.sum ≤ b * xs.length ∧ (xs.sum = b * xs.length ↔ ∀ x ∈ xs, x = b) := by
  induction xs with
  | nil => simp
  | cons x xs ih =>
    rw [List.forall_mem_cons] at h
    obtain ⟨hle, hiff⟩ := ih h.2
    rw [List.sum_cons, List.length_cons, Nat.mul_succ, List.forall_mem_cons, ← hiff]
    have hx := h.1
    omega

/-- Distinct numbers below a bound fill it exactly when there are as many of them as the bound says. -/
theorem fills_iff {f : ℕ → Option ℕ} {n bound : ℕ} (hlt : ∀ i < n, ∃ g < bound, f i = some g)
    (hinj : ∀ i < n, ∀ j < n, f i = f j → i = j) :
    (∀ g < bound, ∃ i < n, f i = some g) ↔ bound = n := by
  have hsub : (Finset.range n).image f ⊆ (Finset.range bound).image some := by
    intro o ho
    obtain ⟨i, hi, rfl⟩ := Finset.mem_image.mp ho
    obtain ⟨g, hg, heq⟩ := hlt i (Finset.mem_range.mp hi)
    exact Finset.mem_image.mpr ⟨g, Finset.mem_range.mpr hg, heq.symm⟩
  have hcard : ((Finset.range n).image f).card = n := by
    rw [Finset.card_image_of_injOn, Finset.card_range]
    exact fun i hi j hj => hinj i (Finset.mem_range.mp hi) j (Finset.mem_range.mp hj)
  have hcard' : ((Finset.range bound).image some).card = bound := by
    rw [Finset.card_image_of_injective _ (Option.some_injective ℕ), Finset.card_range]
  constructor
  · intro hfill
    have hsuper : (Finset.range bound).image some ⊆ (Finset.range n).image f := by
      intro o ho
      obtain ⟨g, hg, rfl⟩ := Finset.mem_image.mp ho
      obtain ⟨i, hi, heq⟩ := hfill g (Finset.mem_range.mp hg)
      exact Finset.mem_image.mpr ⟨i, Finset.mem_range.mpr hi, heq⟩
    rw [← hcard, ← hcard', Finset.Subset.antisymm hsub hsuper]
  · intro heq g hg
    have hsame := Finset.eq_of_subset_of_card_le hsub (by rw [hcard, hcard', heq])
    have hmem : some g ∈ (Finset.range n).image f := by
      rw [hsame]
      exact Finset.mem_image_of_mem _ (Finset.mem_range.mpr hg)
    obtain ⟨i, hi, hfi⟩ := Finset.mem_image.mp hmem
    exact ⟨i, Finset.mem_range.mp hi, hfi⟩

end Counting

namespace DofMap

/-- Entities of one dimension have the numbers they own in use exactly when all have as many dofs as the
one with the most. -/
theorem length_level (m : DofMap) (d : ℕ) :
    (m.entityDofs.getD d []).flatten.length ≤ m.numEntityDofs d * (m.entityDofs.getD d []).length ∧
      ((m.entityDofs.getD d []).flatten.length = m.numEntityDofs d * (m.entityDofs.getD d []).length ↔
        ∀ dofs ∈ m.entityDofs.getD d [], dofs.length = m.numEntityDofs d) := by
  have hbound : ∀ n ∈ (m.entityDofs.getD d []).map List.length, n ≤ m.numEntityDofs d :=
    fun n hn => List.le_max_of_le' _ hn le_rfl
  have hsum := sum_eq_mul_length_iff hbound
  rwa [List.length_map, List.forall_mem_map, ← List.length_flatten] at hsum

theorem balanced_iff (m : DofMap) : EntityDofs.Balanced m.entityDofs ↔
    ∀ d < m.entityDofs.length, ∀ dofs ∈ m.entityDofs.getD d [], dofs.length = m.numEntityDofs d := by
  constructor
  · intro h d hd dofs hdofs
    have hlevel : m.entityDofs.getD d [] ∈ m.entityDofs := by
      rw [List.getD_eq_getElem _ _ hd]
      exact List.getElem_mem hd
    refine le_antisymm (List.le_max_of_le' _ (List.mem_map_of_mem hdofs) le_rfl) ?_
    refine List.max_le_of_forall_le _ _ fun n hn => ?_
    obtain ⟨other, hother, rfl⟩ := List.mem_map.mp hn
    exact (h _ hlevel other hother dofs hdofs).le
  · intro h entities hentities xs hxs ys hys
    obtain ⟨d, hd, rfl⟩ := List.getElem_of_mem hentities
    have heach := h d hd
    rw [List.getD_eq_getElem _ _ hd] at heach
    rw [heach xs hxs, heach ys hys]

/-- A mesh of one cell has as many dofs as the cell exactly when the dofs are balanced. -/
theorem globalDimension_single_iff {m : DofMap} (h : EntityDofs.Numbers m.entityDofs m.localDimension) :
    m.globalDimension (EntityDofs.counts m.entityDofs) = m.localDimension ↔
      EntityDofs.Balanced m.entityDofs := by
  have hlocal : m.localDimension =
      ∑ d ∈ Finset.range m.entityDofs.length, (m.entityDofs.getD d []).flatten.length := by
    have hlength := h.length_eq
    rw [List.length_range, EntityDofs.flat_eq_range, List.length_flatMap] at hlength
    exact hlength.symm
  have hglobal : m.globalDimension (EntityDofs.counts m.entityDofs) =
      ∑ d ∈ Finset.range m.entityDofs.length, m.numEntityDofs d * (m.entityDofs.getD d []).length := by
    rw [← offset_length, offset]
    refine Finset.sum_congr rfl fun d hd => ?_
    exact congrArg (m.numEntityDofs d * ·) (List.getD_map _ [] List.length)
  rw [hlocal, hglobal, balanced_iff, eq_comm,
    Finset.sum_eq_sum_iff_of_le fun d _ => (m.length_level d).1]
  simp only [Finset.mem_range, (m.length_level _).2]

theorem fits_single (m : DofMap) :
    m.Fits (EntityDofs.counts m.entityDofs) ((EntityDofs.counts m.entityDofs).map List.range) := by
  apply Fits.ofLists
  · rw [List.map_map]
    exact (List.map_congr_left fun n _ => List.length_range).trans (List.map_id _)
  · rintro ⟨xs, d⟩ hx i hi
    rw [List.mem_zipIdx_iff_getElem?, List.getElem?_map, Option.map_eq_some_iff] at hx
    obtain ⟨n, hn, rfl⟩ := hx
    rw [List.getD_eq_getElem?_getD, hn]
    exact List.mem_range.mp hi
  · intro xs hxs
    obtain ⟨n, -, rfl⟩ := List.mem_map.mp hxs
    exact List.nodup_range

end DofMap

theorem LinearSystem.inverse_pair {α : Type} [Scalar α] {a b c d : α}
    (hdet : (Scalar.dot [a, b] [d, -c] == 0) = false) : ∃ m, inverse [[a, b], [c, d]] = some m := by
  simp [inverse, inverseSmall, adjugate, cofactor, minor, List.range_succ, hdet]

/-- There is a linear element on the interval. -/
theorem Lagrange.continuous_linear : ∃ x : PolynomialElement ℝ, continuous .interval 1 = .ok x ∧
    x.dimension = 2 ∧ x.entityDofs = [[[0], [1]], [[]]] := by
  have hconstant : 0 < Scalar.sqrt (2⁻¹ : ℝ) := Real.sqrt_pos.mpr (by norm_num)
  have hslope : 0 < Scalar.sqrt (1 + 2⁻¹ : ℝ) := Real.sqrt_pos.mpr (by norm_num)
  have hbasis : ∃ coefficients, PolynomialElement.dualBasis "Lagrange" .interval 1 1
      (PolynomialElement.fullSpan .interval 1) ((points .interval 1 : List (List ℝ)).map .at) 1 =
        .ok coefficients := by
    apply PolynomialElement.dualBasis_of_inverse rfl rfl rfl rfl
    apply LinearSystem.inverse_pair
    apply decide_eq_false
    have hdet : Scalar.sqrt (2⁻¹ : ℝ) * ((2 - 1) * Scalar.sqrt (1 + 2⁻¹ : ℝ)) +
        Scalar.sqrt (2⁻¹ : ℝ) * Scalar.sqrt (1 + 2⁻¹ : ℝ) ≠ 0 := by
      have hpos := mul_pos hconstant hslope
      linarith
    rw [Scalar.dot_eq _ _ (by rfl)]
    simpa [PolynomialElement.applyFunctional, Functional.at, Scalar.sum_eq, Expansion.legendreUpTo,
      Expansion.numbered, Expansion.count, List.range_succ, Finset.sum_range_succ, Expansion.legendre,
      Jacobi.value, Jacobi.pair, Jacobi.linear] using hdet
  obtain ⟨coefficients, hcoefficients⟩ := hbasis
  have hlength := (PolynomialElement.length_dualBasis hcoefficients).1
  exact ⟨_, Result.bind_eq_ok.mpr ⟨coefficients, hcoefficients, rfl⟩, hlength, rfl⟩

theorem Lagrange.points_linear : (points .interval 1 : List (List ℝ)) = [[0], [1]] := by
  have hcast : (points .interval 1 : List (List ℝ)) = [[((0 : ℕ) : ℝ)], [((1 : ℕ) : ℝ)]] := rfl
  rw [hcast, Nat.cast_zero, Nat.cast_one]

namespace DofMapClass
open DofMap

variable {α β : Type} [Scalar α]

/-- On the mesh that is one cell, the numbers of a resolved element reach from zero to the number of its
dofs, and the code uses all of them, exactly when all entities of one dimension have equally many dofs; on
a reference cell they always have. -/
theorem singleCell_numbering_iff {desc : Descriptor} {el : Element α}
    (h : Element.ofDescriptor desc = .ok el) :
    ((ofElement el).globalDimension (EntityDofs.counts el.layout.entityDofs) =
        (ofElement el).localDimension ↔ EntityDofs.Balanced el.layout.entityDofs) ∧
    ((∀ g < (ofElement el).globalDimension (EntityDofs.counts el.layout.entityDofs),
        ∃ dof < (ofElement el).localDimension,
          globalNumber? β (ofElement el) (EntityDofs.counts el.layout.entityDofs)
            ((EntityDofs.counts el.layout.entityDofs).map List.range) dof = some g) ↔
      EntityDofs.Balanced el.layout.entityDofs) ∧
    ∀ c, el.cell = .simple c → EntityDofs.Balanced el.layout.entityDofs := by
  have heven := ((Element.closed_even.resolve desc) _ (Cache.all_empty _)).2.2 el h
  have hnumbers : EntityDofs.Numbers (ofElement el).entityDofs (ofElement el).localDimension := by
    rw [entityDofs_ofElement, localDimension_ofElement]
    exact heven.partitioned.numbers
  have hcounts : (ofElement el).entityDofs.length ≤ (EntityDofs.counts (ofElement el).entityDofs).length :=
    (List.length_map _).ge
  have hfits := (ofElement el).fits_single
  have hsingle := globalDimension_single_iff hnumbers
  have hfills := fills_iff (f := globalNumber? β (ofElement el) _ _)
    (fun _ => globalNumber?_lt hcounts hfits hnumbers)
    (fun _ hi _ => globalNumber?_injective hcounts hfits hnumbers hi)
  rw [hsingle] at hfills
  rw [entityDofs_ofElement] at hsingle hfills
  exact ⟨hsingle, hfills, heven.balanced⟩

/-- The two values in the middle of an interval get the numbers zero and one. -/
theorem singleCell_midpointPair : ∃ el : Element Float, Element.ofDescriptor midpointPair = .ok el ∧
    (ofElement el).localDimension = 2 ∧
    (ofElement el).globalDimension (EntityDofs.counts el.layout.entityDofs) = 2 ∧
    ∀ g < 2, ∃ dof < 2, globalNumber? Float (ofElement el) (EntityDofs.counts el.layout.entityDofs)
      ((EntityDofs.counts el.layout.entityDofs).map List.range) dof = some g := by
  have hel : ∃ el : Element Float, Element.ofDescriptor midpointPair = .ok el ∧
      el.cell = .simple .interval ∧ (ofElement el).localDimension = 2 := ⟨_, rfl, rfl, rfl⟩
  obtain ⟨el, hresolved, hcell, hdimension⟩ := hel
  obtain ⟨hsize, hfills, hbalanced⟩ := singleCell_numbering_iff (β := Float) hresolved
  rw [hdimension] at hsize hfills
  have htwo := hsize.mpr (hbalanced _ hcell)
  rw [htwo] at hfills
  exact ⟨el, hresolved, hdimension, htwo, hfills.mpr (hbalanced _ hcell)⟩

/-- Linear in one direction, with a value in the middle of the other. -/
def linearTimesMidpoint : Descriptor :=
  .product (.simple "Lagrange" (.simple .interval) (some 1))
    (.simple "Quadrature" (.simple .interval) (some 1))

/-- Two of the four sides have a dof, and each of the four owns a number. -/
theorem linearTimesMidpoint_holes : ∃ el : Element ℝ, Element.ofDescriptor linearTimesMidpoint = .ok el ∧
    el.layout.entityDofs = [[[], [], [], []], [[0], [1], [], []], [[]]] ∧
    (ofElement el).localDimension = 2 ∧
    (ofElement el).globalDimension (EntityDofs.counts el.layout.entityDofs) = 4 := by
  obtain ⟨x, hx, hdimension, hdofs⟩ := Lagrange.continuous_linear
  have hlinear : (Element.ofFamily "Lagrange" (.simple .interval) (some 1) : Result (Element ℝ)) =
      .ok (.polynomial x) := Result.bind_eq_ok.mpr ⟨x, hx, rfl⟩
  have hmidpoint : ∃ nodes : List (Node ℝ), nodes.length = 1 ∧
      Element.ofFamily "Quadrature" (.simple .interval) (some 1) =
        .ok (Element.quadrature (.simple .interval) 1 nodes) := ⟨_, rfl, rfl⟩
  obtain ⟨nodes, hnodes, hmidpoint⟩ := hmidpoint
  have hlayout : (Element.product (.polynomial x) (.quadrature (.simple .interval) 1 nodes)
      none).layout.entityDofs = [[[], [], [], []], [[0], [1], [], []], [[]]] := by
    simp only [Element.layout, Layout.product, Layout.ofPolynomial, Layout.quadrature, hdofs, hnodes]
    rfl
  refine ⟨.product (.polynomial x) (.quadrature (.simple .interval) 1 nodes) none, ?_, hlayout, ?_, ?_⟩
  · rw [Element.ofDescriptor_eq_direct]
    simp only [linearTimesMidpoint, Element.direct, Result.bind_eq_ok]
    exact ⟨_, hlinear, _, hmidpoint, if_neg fun h => h.2 rfl⟩
  · change x.dimension * nodes.length = 2
    rw [hdimension, hnodes]
  · rw [DofMap.globalDimension]
    simp only [numEntityDofs, entityDofs_ofElement, hlayout]
    decide

end DofMapClass
end Variational
