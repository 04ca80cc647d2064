import Variational.Proofs.Composition
import Variational.Proofs.DofPartition
import Variational.Proofs.ValueBlocks

/-! Shapes of coefficients and values. A basis function of an element on a reference cell has a row for
each component and every row a coefficient for each member of the expansion set; the values of an element
have at least one component. -/
namespace Variational

namespace PolynomialElement

variable {α : Type} [Scalar α]

structure Shaped (e : PolynomialElement α) : Prop where
  positive : 0 < e.valueSize
  components : ∀ dof ∈ e.coefficients, dof.length = e.valueSize
  rows : ∀ dof ∈ e.coefficients, ∀ row ∈ dof, row.length = Expansion.count e.cell e.embeddedDegree

theorem length_combine {n : ℕ} (weights : List α) {rows : List (List α)}
    (h : ∀ row ∈ rows, n ≤ row.length) : (combine n weights rows).length = n := by
  unfold combine
  refine List.foldlRecOn _ _ (motive := fun acc : List α => acc.length = n) List.length_replicate ?_
  rintro acc hacc ⟨w, row⟩ hmem
  have hrow := h row (List.of_mem_zip hmem).2
  dsimp only
  split_ifs
  · exact hacc
  · rw [List.length_zipWith, hacc]
    omega

theorem dualBasis_shape {family : String} {cell : ReferenceCell} {degree valueSize : ℕ}
    {span : List (List (List α))} {functionals : List (Functional α)} {embeddedDegree : ℕ}
    {coefficients : List (List (List α))}
    (h : dualBasis family cell degree valueSize span functionals embeddedDegree = .ok coefficients) :
    ∀ dof ∈ coefficients, dof.length = valueSize ∧
      ∀ row ∈ dof, row.length = Expansion.count cell embeddedDegree := by
  obtain ⟨-, -, hcovers, _, _, -, -, rfl⟩ := dualBasis_ok h
  intro dof hdof
  obtain ⟨weights, -, rfl⟩ := List.mem_map.mp hdof
  refine ⟨by simp, fun row hrow => ?_⟩
  simp only [List.mem_map, List.mem_range] at hrow
  obtain ⟨c, hc, rfl⟩ := hrow
  refine length_combine weights fun row hrow => ?_
  obtain ⟨member, hmember, rfl⟩ := List.mem_map.mp hrow
  have hmember := hcovers member hmember
  simp only [covers, Bool.and_eq_true, decide_eq_true_eq, List.all_eq_true] at hmember
  have hlt : c < member.length := by omega
  rw [List.getD_eq_getElem _ _ hlt]
  exact hmember.2 _ (List.mem_take_iff_getElem.mpr ⟨c, by omega, rfl⟩)

theorem create_shaped {family : String} {cell : ReferenceCell} {degree : ℕ} {valueShape : List ℕ}
    {span : List (List (List α))} {functionals : List (Functional α)} {entityDofs : EntityDofs}
    {map : ValueMap} {embeddedDegree : ℕ} {e : PolynomialElement α}
    (h : create family cell degree valueShape span functionals entityDofs map embeddedDegree = .ok e)
    (hpositive : 0 < valueShape.foldr (· * ·) 1) : e.Shaped := by
  obtain ⟨coefficients, hcoefficients, rfl⟩ := exists_dualBasis h
  have hshape := dualBasis_shape hcoefficients
  exact ⟨hpositive, fun dof hdof => (hshape dof hdof).1, fun dof hdof => (hshape dof hdof).2⟩

theorem ofPoints_shaped {family : String} {cell : ReferenceCell} {degree : ℕ}
    {points : List (List α)} {entityDofs : EntityDofs} {e : PolynomialElement α}
    (h : ofPoints family cell degree points entityDofs = .ok e) : e.Shaped :=
  create_shaped h Nat.one_pos

omit [Scalar α] in
theorem subset_shaped {e x : PolynomialElement α} {family : String} {dofs : List ℕ}
    {entityDofs : EntityDofs} (h : e.subset family dofs entityDofs = .ok x) (he : e.Shaped) :
    x.Shaped := by
  obtain ⟨coefficients, hcoefficients, rfl⟩ := subset_ok h
  have hmem : ∀ dof ∈ coefficients, dof ∈ e.coefficients := by
    intro dof hdof
    obtain ⟨d, -, hd⟩ := Result.exists_of_forall₂ hcoefficients.flip hdof
    exact List.mem_of_getElem? hd
  exact ⟨he.positive, fun dof hdof => he.components dof (hmem dof hdof),
    fun dof hdof => he.rows dof (hmem dof hdof)⟩

theorem ofFamily_shaped {family : String} {cell : ReferenceCell} {degree : ℕ} {e : PolynomialElement α}
    (h : ofFamily family cell degree = .ok e) : e.Shaped := by
  cases ofFamily_ok h with
  | values h => exact ofPoints_shaped h
  | components _ hcell h =>
    refine create_shaped h ?_
    rcases hcell with rfl | rfl <;> decide
  | interior hx h => exact subset_shaped h (ofPoints_shaped hx)

end PolynomialElement

theorem TimeFamily.create_shaped {α : Type} [Scalar α] {f : TimeFamily} {degree : ℕ}
    {e : PolynomialElement α} (h : f.create degree = .ok e) : e.Shaped :=
  PolynomialElement.ofPoints_shaped (create_ok h).2

namespace EntityDofs

theorem counts_uniformFrom (start dim : ℕ) (perEntity : ℕ → ℕ) (ns : List ℕ) :
    counts (uniformFrom start dim perEntity ns) = ns := by
  have hlength (start : ℕ) (ns : List ℕ) : (blocks start ns).length = ns.length := by
    induction ns generalizing start with
    | nil => rfl
    | cons n ns ih => rw [blocks, List.length_cons, ih, List.length_cons]
  induction ns generalizing start dim with
  | nil => rfl
  | cons n ns ih => rw [uniformFrom, counts_cons, hlength, List.length_replicate, ih]

theorem counts_uniform (ns : List ℕ) (perEntity : ℕ → ℕ) : counts (uniform ns perEntity) = ns :=
  counts_uniformFrom 0 0 perEntity ns

theorem counts_inside (ns : List ℕ) (n : ℕ) : counts (inside ns n) = ns := counts_uniform ns _

end EntityDofs

section Families

variable {α : Type} [Scalar α] {cell : ReferenceCell} {degree : ℕ} {e : PolynomialElement α}

/-- The dofs of the element have consecutive numbers, equally many on all entities of one dimension. -/
def PolynomialElement.Regular (e : PolynomialElement α) (cell : ReferenceCell) : Prop :=
  e.cell = cell ∧ ∃ perEntity, e.entityDofs = EntityDofs.uniform cell.entityCounts perEntity

theorem PolynomialElement.ofFamily_regular {family : String} (h : ofFamily family cell degree = .ok e) :
    e.Regular cell := by
  cases ofFamily_ok h with
  | values h =>
    obtain ⟨hcell, hdofs, -⟩ := create_ok h
    exact ⟨hcell, _, hdofs⟩
  | components _ _ h =>
    obtain ⟨hcell, hdofs, -⟩ := create_ok h
    exact ⟨hcell, _, hdofs⟩
  | interior hx h =>
    obtain ⟨coefficients, -, rfl⟩ := subset_ok h
    exact ⟨(create_ok hx).1, _, rfl⟩

end Families

namespace Element

variable {α : Type} [Scalar α]

/-- An element of a family has the entities of its cell. -/
theorem OfFamily.counts_eq {family : String} {cell : Cell} {degree : ℕ} {e : Element α}
    (h : OfFamily family cell degree e) :
    EntityDofs.counts e.layout.entityDofs = e.cell.entityCounts := by
  have hregular {c : ReferenceCell} {x : PolynomialElement α} (hx : x.Regular c) :
      EntityDofs.counts x.entityDofs = (Cell.simple x.cell).entityCounts := by
    obtain ⟨rfl, perEntity, hdofs⟩ := hx
    rw [hdofs, EntityDofs.counts_uniform]
    rfl
  cases h with
  | reals _ _ hx => exact hregular (PolynomialElement.ofFamily_regular hx)
  | @time f x _ hx =>
    obtain ⟨hcell, hdofs, -⟩ := PolynomialElement.create_ok (TimeFamily.create_ok hx).2
    change EntityDofs.counts x.entityDofs = (Cell.simple x.cell).entityCounts
    rw [hdofs, hcell]
    cases f <;> rfl
  | quadrature => exact EntityDofs.counts_inside _ _
  | polynomial _ hx => exact hregular (PolynomialElement.ofFamily_regular hx)

theorem OfFamily.valueSize_pos {family : String} {cell : Cell} {degree : ℕ} {e : Element α}
    (h : OfFamily family cell degree e) : 0 < e.valueSize := by
  cases h with
  | reals _ _ hx => exact (PolynomialElement.ofFamily_shaped hx).positive
  | time _ hx => exact (TimeFamily.create_shaped hx).positive
  | quadrature => exact Nat.one_pos
  | polynomial _ hx => exact (PolynomialElement.ofFamily_shaped hx).positive

/-- A field that a product is wrapped into has a component, so its cell is no point. -/
theorem wrappingComponent?_lt {space : SobolevSpace} {a b : Layout} {c : ℕ}
    (h : wrappingComponent? space a b = some c) : c < a.cell.dim + b.cell.dim := by
  cases space <;> simp only [wrappingComponent?] at h <;> split_ifs at h <;>
    obtain rfl := Option.some.inj h <;> omega

theorem valueSize_product {a b : Element α} (ha : 0 < a.valueSize) (hb : 0 < b.valueSize) :
    0 < (product a b none).valueSize := by
  change 0 < (Layout.productShape a.layout b.layout).foldr (· * ·) 1
  unfold Layout.productShape
  split_ifs
  · exact Nat.one_pos
  · exact hb
  · exact ha

/-- Every resolved element has values of at least one component. -/
theorem closed_valueSize_pos : Closed fun e : Element α => 0 < e.valueSize where
  family h := (ofFamily_ok h).2.valueSize_pos
  restrict h _ := h
  enrich ha _ h := by
    rw [enrich_ok h]
    exact ha
  tensor ha hb h := by
    rw [tensor_ok h]
    exact valueSize_product ha hb
  wrap _ h := by
    obtain ⟨a, b, c, -, hc, rfl⟩ := wrap_ok h
    have hdim := wrappingComponent?_lt hc
    change 0 < (a.cell.dim + b.cell.dim) * 1
    simp only [cell]
    omega
  mix hparts h := by
    obtain ⟨first, rest, rfl, -⟩ := mix_compatible h
    obtain rfl := mix_ok h
    have hfirst := hparts first List.mem_cons_self
    rw [valueSize_mixed, List.map_cons, List.foldr_cons]
    omega

theorem forall_mem_blocksOfParts {P : ValueBlock → Prop} {es : List (Element α)}
    (h : ∀ e ∈ es, ∀ offset, ∀ b ∈ blocksFrom offset e, P b) (offset : ℕ) :
    ∀ b ∈ blocksOfParts offset es, P b := by
  induction es generalizing offset with
  | nil => simp [blocksOfParts]
  | cons e es ih =>
    rw [List.forall_mem_cons] at h
    rw [blocksOfParts, List.forall_mem_append]
    exact ⟨h.1 offset, ih h.2 _⟩

theorem blocksFrom_pos {e : Element α} (h : ∀ es, e ≠ mixed es) (hpos : 0 < e.valueSize) (offset : ℕ) :
    ∀ b ∈ blocksFrom offset e, 0 < b.size := by
  rw [blocksFrom_other h, List.forall_mem_singleton]
  exact hpos

/-- No block of a resolved element is empty. -/
theorem closed_blocks_pos : Closed fun e : Element α =>
    0 < e.valueSize ∧ ∀ offset, ∀ b ∈ blocksFrom offset e, 0 < b.size where
  family h := by
    have hpos := closed_valueSize_pos.family h
    refine ⟨hpos, blocksFrom_pos ?_ hpos⟩
    cases (ofFamily_ok h).2 <;> simp
  restrict h _ := ⟨h.1, blocksFrom_pos (by simp) h.1⟩
  enrich ha hb h := by
    have hpos := closed_valueSize_pos.enrich ha.1 hb.1 h
    obtain rfl := enrich_ok h
    exact ⟨hpos, blocksFrom_pos (by simp) hpos⟩
  tensor ha hb h := by
    have hpos := closed_valueSize_pos.tensor ha.1 hb.1 h
    obtain rfl := tensor_ok h
    exact ⟨hpos, blocksFrom_pos (by simp) hpos⟩
  wrap ha h := by
    have hpos := closed_valueSize_pos.wrap ha.1 h
    obtain ⟨a, b, c, -, -, rfl⟩ := wrap_ok h
    exact ⟨hpos, blocksFrom_pos (by simp) hpos⟩
  mix hparts h := by
    have hpos := closed_valueSize_pos.mix (fun a ha => (hparts a ha).1) h
    obtain rfl := mix_ok h
    exact ⟨hpos, forall_mem_blocksOfParts fun a ha => (hparts a ha).2⟩

end Element
end Variational
