import Variational.Proofs.FreeIndices
import Variational.Proofs.ReferenceValues

/-! The tensor representation keeps the meaning of a product. On every region, and for all values of the
symbols, the contraction of the reference tensor with the geometry tensor is the quadrature of the product
of the physical values of its basis functions. -/
namespace Variational

variable {α : Type} [ExactScalar α]

/-- The contraction of the tensors of a term, at a position in the primary multi-index. -/
def Term.contract (v : CellData α) (t : Term α) (region i : ℕ) : α :=
  (t.geometry.map fun g => t.reference.value region i g.position * Monomial.evalSum v g.monomials).sum

namespace Product

/-- The indices of a product with the ranges that they run over. -/
def indexRanges (dim : ℕ) (es : List (Element α)) (p : Product α) : List (Index × ℕ) :=
  (p.basis.zip es).flatMap fun x => x.1.indexRanges dim x.2

/-- The number and the constants of a product. -/
def scalarPart (v : CellData α) (p : Product α) : α :=
  p.factor * (p.constants.map fun c => v.constant c.number).prod

/-- The product on the physical cell, for given values of the free indices. -/
def integrand (v : CellData α) (dim : ℕ) (es : List (Element α)) (points : List (List α))
    (i : List ℕ) (ρ : ℕ → ℕ) (q : ℕ) (p : Product α) : α :=
  p.scalarPart v * ((p.basis.zip es).map fun x =>
    x.1.factor v dim points ρ (i.getD 0 0) (i.getD p.trialPosition 0) q x.2).prod

/-- The quadrature of a product on a region, summed over the free indices. -/
noncomputable def quadrature (v : CellData α) (dim : ℕ) (es : List (Element α)) (rule : Rule α)
    (i : List ℕ) (p : Product α) : α :=
  ∑ q ∈ Finset.range rule.nodes.length, rule.weights.getD q 0 *
    ∑ ρ ∈ labelValues (p.indexRanges dim es), p.integrand v dim es rule.points i ρ q

end Product

namespace GeometryEntry

theorem eval_planFactor? (v : CellData α) (assignment : List (ℕ × ℕ)) (a : List ℕ) (p : Plan α) :
    Monomial.evalOption v (planFactor? assignment a p) = p.geometry v (labelValue assignment) a := by
  have hindex : indexValue assignment = Index.value (labelValue assignment) :=
    funext (indexValue_eq assignment)
  simp only [planFactor?, Plan.geometry, hindex]
  cases (ValueBlock.factor? p.blocks (p.component.elim 0 (Index.value (labelValue assignment)))
      (p.referenceComponent a) : Option (Monomial α)) with
  | none => simp
  | some value =>
    simp only [Option.bind_eq_bind, Option.bind_some, Option.pure_def, Monomial.evalOption_some,
      Monomial.eval_mul]
    congr 2
    · cases p.argument <;> cases p.dof <;> simp [Monomial.eval, Symbol.eval]
    · simp [Monomial.eval, Symbol.eval, Function.comp_def]

theorem eval_monomial? (v : CellData α) (p : Product α) (plans : List (Plan α))
    (assignment : List (ℕ × ℕ)) (a : List ℕ) :
    Monomial.evalOption v (monomial? p plans assignment a) =
      p.scalarPart v * (plans.map fun P => P.geometry v (labelValue assignment) a).prod := by
  have hnumber : Monomial.eval v (⟨p.factor, 0, p.constants.map fun c => .constant c.number⟩ : Monomial α) =
      p.scalarPart v := by
    simp [Monomial.eval, Product.scalarPart, Symbol.eval, Function.comp_def]
  have hall := Monomial.evalOption_mapM v (planFactor? assignment a) plans
    ⟨p.factor, 0, p.constants.map fun c => .constant c.number⟩
  simp only [eval_planFactor?, hnumber] at hall
  rw [← hall]
  congr 1
  rw [monomial?, Option.map_eq_bind]
  rfl

/-- The entries of the geometry tensor, weighted by position. An entry that is left out is zero. -/
theorem sum_ofProduct (v : CellData α) (p : Product α) (d : Draft α) (secondary : MultiIndex)
    (f : ℕ → α) :
    ((ofProduct p d secondary).map fun g => f g.position * Monomial.evalSum v g.monomials).sum =
      (secondary.indices.zipIdx.map fun x => f x.2 * ((assignments d.ranges).map fun assignment =>
        p.scalarPart v * (d.plans.map fun P => P.geometry v (labelValue assignment) x.1).prod).sum).sum := by
  unfold ofProduct
  simp only
  induction secondary.indices.zipIdx with
  | nil => rfl
  | cons x xs ih =>
    have hx : Monomial.evalSum v (Monomial.simplify
          ((assignments d.ranges).filterMap fun values => monomial? p d.plans values x.1)) =
        ((assignments d.ranges).map fun assignment => p.scalarPart v *
          (d.plans.map fun P => P.geometry v (labelValue assignment) x.1).prod).sum := by
      rw [Monomial.evalSum_simplify, Monomial.evalSum_filterMap]
      simp only [eval_monomial?]
    rw [List.map_cons, List.sum_cons, ← ih, ← hx, List.filterMap_cons]
    split
    · rename_i h
      split at h
      · rename_i hnil
        rw [hnil, Monomial.evalSum_nil, mul_zero, zero_add]
      · cases h
    · rename_i h
      split at h
      · cases h
      · rename_i ms hms
        obtain rfl := Option.some.inj h
        rw [List.map_cons, List.sum_cons]

end GeometryEntry

namespace Product

/-- The contributions of all values of the secondary index, for given values of the free indices, add up
to the quadrature of the product of the physical values. -/
theorem sum_secondary {cell : Cell} {p : Product α} {es : List (Element α)} {d : Draft α}
    (hd : Draft.Plans cell p.trialPosition Draft.empty (p.basis.zip es) d) (v : CellData α)
    (points : List (List α)) (i : List ℕ) (q : ℕ) {ρ : ℕ →₀ ℕ}
    (hρ : ρ ∈ labelValues (p.indexRanges cell.dim es)) :
    ((MultiIndex.mk d.extents).indices.map fun a =>
      (d.plans.map fun P => P.sample cell.dim points i q a).prod *
        (p.scalarPart v * (d.plans.map fun P => P.geometry v ρ a).prod)).sum =
      p.integrand v cell.dim es points i ρ q := by
  have hrecord : d.ranges.Record (p.indexRanges cell.dim es) :=
    Ranges.record_nil.checkAll hd.ranges
  have hcomponent (x : BasisFunction × Element α) (hx : x ∈ p.basis.zip es) :
      x.1.componentValue ρ < x.2.valueSize := by
    unfold BasisFunction.componentValue
    rcases hd.component x hx with ⟨hnone, hsize⟩ | ⟨index, hone⟩
    · simp [hnone, hsize]
    · have hmem : (index, x.2.valueSize) ∈ p.indexRanges cell.dim es :=
        List.mem_flatMap.mpr ⟨x, hx, by simp [BasisFunction.indexRanges, hone]⟩
      simpa [hone] using hrecord.value_lt hρ hmem
  have hsum := Plan.sum_segments v cell.dim points ρ i q p.trialPosition (p.basis.zip es) hcomponent 0 []
  have hplans : d.plans = Plan.ofAll p.trialPosition cell.dim 0 0 (p.basis.zip es) := hd.plans
  have hextents : d.extents = (segments cell.dim 0 (p.basis.zip es)).map (·.2) := hd.extents
  rw [integrand, ← hsum, hplans, hextents, MultiIndex.indices, ← List.sum_map_mul_left]
  congr 1
  refine List.map_congr_left fun a _ => ?_
  simp only [List.nil_append, List.length_nil, List.prod_map_mul]
  ring

theorem quadrature_eq {cell : Cell} {p : Product α} {es : List (Element α)} {d : Draft α}
    (hd : Draft.Plans cell p.trialPosition Draft.empty (p.basis.zip es) d) (v : CellData α)
    (rule : Rule α) (i : List ℕ) :
    p.quadrature v cell.dim es rule i =
      ((MultiIndex.mk d.extents).indices.map fun a =>
        (∑ q ∈ Finset.range rule.nodes.length, rule.weights.getD q 0 *
          (d.plans.map fun P => P.sample cell.dim rule.points i q a).prod) *
        ((GeometryEntry.assignments d.ranges).map fun assignment => p.scalarPart v *
          (d.plans.map fun P =>
            P.geometry v (GeometryEntry.labelValue assignment) a).prod).sum).sum := by
  have hrecord : d.ranges.Record (p.indexRanges cell.dim es) :=
    Ranges.record_nil.checkAll hd.ranges
  have hfree (a : List ℕ) : ((GeometryEntry.assignments d.ranges).map fun assignment =>
        p.scalarPart v * (d.plans.map fun P =>
          P.geometry v (GeometryEntry.labelValue assignment) a).prod).sum =
      ∑ ρ ∈ labelValues (p.indexRanges cell.dim es),
        p.scalarPart v * (d.plans.map fun P => P.geometry v ρ a).prod :=
    hrecord.sum_assignments fun ρ => p.scalarPart v * (d.plans.map fun P => P.geometry v ρ a).prod
  calc p.quadrature v cell.dim es rule i
    _ = ∑ q ∈ Finset.range rule.nodes.length, rule.weights.getD q 0 *
          ∑ ρ ∈ labelValues (p.indexRanges cell.dim es),
            ((MultiIndex.mk d.extents).indices.map fun a =>
              (d.plans.map fun P => P.sample cell.dim rule.points i q a).prod *
                (p.scalarPart v * (d.plans.map fun P => P.geometry v ρ a).prod)).sum := by
      refine Finset.sum_congr rfl fun q _ => ?_
      congr 1
      exact Finset.sum_congr rfl fun ρ hρ => (sum_secondary hd v rule.points i q hρ).symm
    _ = _ := by
      simp only [hfree, ← sum_map_finset_sum, Finset.sum_mul, ← List.sum_map_mul_left,
        ← Finset.mul_sum, mul_assoc]

/-- The term of a product has its meaning: the contraction of the tensors is the direct quadrature, for
every region, every primary index and all values of the symbols. -/
theorem contract_eq_quadrature {cell : Cell} {numPoints : Option ℕ} {p : Product α} {t : Term α}
    {c c' : Cache α} (h : Resolve.Returns (p.build cell numPoints) c t c') :
    ∃ es, Resolve.Returns (p.basis.mapM fun b => Element.resolve b.element) c es c' ∧
      (∀ l m n, (Index.free l, m) ∈ p.indexRanges cell.dim es →
        (Index.free l, n) ∈ p.indexRanges cell.dim es → m = n) ∧
      ∃ rules, p.regions cell t.numPoints = .ok rules ∧ t.reference.numRegions = rules.length ∧
        ∀ r rule, rules[r]? = some rule → ∀ k i, t.reference.primary.indices[k]? = some i →
          ∀ v, t.contract v r k = p.quadrature v cell.dim es rule i := by
  obtain ⟨d, hplan, hterm⟩ := build_returns h
  obtain ⟨es, hes, hd⟩ := plan_returns hplan
  obtain ⟨rules, hrules, hvalues, hprimary, hsecondary, -, -, hgeometry⟩ := term_ok hterm
  have hrecord : d.ranges.Record (p.indexRanges cell.dim es) :=
    Ranges.record_nil.checkAll hd.ranges
  refine ⟨es, hes, fun l m n hm hn => hrecord.range_unique hm hn, rules, hrules,
    Result.length_of_mapM hvalues, fun r rule hrule k i hi v => ?_⟩
  obtain ⟨values, hr, hregion⟩ := Result.getElem?_of_mapM hvalues hrule
  have hextents : t.reference.secondary = ⟨d.extents⟩ := by rw [← hsecondary]
  -- Both sides are now sums over the secondary indices, so they are compared entry by entry.
  rw [Term.contract, hgeometry, GeometryEntry.sum_ofProduct, quadrature_eq hd, hextents]
  conv_rhs => rw [← List.zipIdx_map_fst 0 (MultiIndex.mk d.extents).indices, List.map_map]
  congr 1
  refine List.map_congr_left fun x hx => ?_
  rw [List.mem_zipIdx_iff_getElem?] at hx
  rw [hextents] at hregion
  rw [ReferenceTensor.value, hr, Option.bind_some, hextents,
    ReferenceTensor.onRegion_ok hregion hi hx]
  rfl

/-- Two values at a point: the product of a test function with a coefficient, summed over the two. -/
noncomputable def pointPairing : Product ℝ :=
  let value : Descriptor := .simple "Quadrature" (.simple .point) (some 1)
  .ofBasis [(BasisFunction.ofArgument (.mixed [value, value]) .test).component (.free 0),
    (BasisFunction.ofArgument (.mixed [value, value]) (.function 0)).component (.free 0)]

theorem contract_pointPairing :
    ∃ t c' es, (pointPairing.build (.simple .point) (some 1)).Returns .empty t c' ∧
      ∀ v : CellData ℝ, t.contract v 0 1 = pointPairing.quadrature v 0 es Rule.degenerate [1] := by
  have hbuild : ∃ t c', (pointPairing.build (.simple .point) (some 1)).Returns .empty t c' ∧
      t.reference.primary = ⟨[2]⟩ ∧ t.numPoints = 1 := ⟨_, _, rfl, rfl, rfl⟩
  obtain ⟨t, c', ht, hprimary, hpoints⟩ := hbuild
  obtain ⟨es, -, -, rules, hrules, -, hcontract⟩ := contract_eq_quadrature ht
  have hrule : rules = [Rule.degenerate] := by
    rw [hpoints] at hrules
    exact (Except.ok.inj hrules).symm
  refine ⟨t, c', es, ht, hcontract 0 Rule.degenerate ?_ 1 [1] ?_⟩
  · rw [hrule, List.getElem?_cons_zero]
  · rw [hprimary]
    rfl

end Product
end Variational
