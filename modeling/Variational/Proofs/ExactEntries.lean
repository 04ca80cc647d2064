import Variational.Proofs.CheckedBuild
import Variational.Proofs.ExactRegions
import Variational.Proofs.FormAddition
import Variational.Proofs.TabulatedPolynomials

/-! Exact reference tensors. With the number of points that a product gets where none is asked for, the rule of every
region is exact for the product of its basis functions, so each entry of the reference tensor is an integral. Only the
rules on the line matter: this holds of any rules on the line that are exact up to the degree in question, in place of
the ones that the tensor of the term is made of. -/
namespace Variational

open Result

namespace Functions

/-- A component of a basis function. What is not there counts as zero. -/
def component (F : Functions) (j s : ℕ) : List ℝ → ℝ := ((F[j]?).bind (·[s]?)).getD fun _ => 0

theorem getElem?_table (F : Functions) (points : List (List ℝ)) (j s : ℕ) :
    ((F.table points)[j]?).bind (·[s]?) = ((F[j]?).bind (·[s]?)).map fun f => points.map f := by
  rw [table, List.getElem?_map]
  cases F[j]? with
  | none => rfl
  | some row => simp

theorem OfDegree.component {cell : Cell} {n : ℕ} {F : Functions} (h : F.OfDegree cell n) (j s : ℕ) :
    cell.IsPolynomial n (F.component j s) := by
  unfold Functions.component
  cases hf : (F[j]?).bind (·[s]?) with
  | none => exact .const cell n 0
  | some f =>
    obtain ⟨row, hrow, hf⟩ := Option.bind_eq_some_iff.mp hf
    exact h row (List.mem_of_getElem? hrow) f (List.mem_of_getElem? hf)

end Functions

theorem Element.Presents.sample_eq {e : Element ℝ} {dim : ℕ} {rs : List ℕ} {F : Functions}
    (hF : e.Presents (directionCounts dim rs) F) {points : List (List ℝ)}
    (hpoints : ∀ x ∈ points, x.length = e.cell.dim) {q : ℕ} {x : List ℝ} (hx : points[q]? = some x) (j s : ℕ) :
    e.sample dim points rs j s q = F.component j s x := by
  simp only [sample, hF.table points hpoints, Functions.getElem?_table, Functions.component]
  cases (F[j]?).bind (·[s]?) with
  | none => rfl
  | some f => simp [hx]

namespace ReferenceTensor

/-- The product of the values that the plans pick, as a function of the point. -/
noncomputable def integrand (dim : ℕ) (plans : List (Plan ℝ)) (i a : List ℕ) (x : List ℝ) : ℝ :=
  (plans.map fun P => P.sample dim [x] i 0 a).prod

section Regions

variable {dim : ℕ} {plans : List (Plan ℝ)} {primary secondary : MultiIndex} {rule : Rule ℝ}

theorem exists_entry_iff {weights : List ℝ} {fs : List (Plan ℝ × Rows ℝ)} {i a : List ℕ} :
    (∃ x, entry weights fs i a = .ok x) ↔
      ∀ f ∈ fs, ((f.2[f.1.dofAt i a]?).bind (·[f.1.referenceComponent a]?)).isSome := by
  simp only [entry, bind_eq_ok, pure_eq_ok, Option.isSome_iff_exists, ← inRange_eq_ok, ← exists_mapM]
  constructor
  · rintro ⟨x, rows, hrows, -⟩
    exact ⟨rows, hrows⟩
  · rintro ⟨rows, hrows⟩
    exact ⟨_, rows, hrows, rfl⟩

theorem tabulateKeys_of_onRegion {values : Array ℝ} (h : onRegion dim plans primary secondary rule = .ok values) :
    ∃ tables, tabulateKeys plans rule.points (keys dim plans secondary) = .ok tables := by
  simp only [onRegion, bind_eq_ok] at h
  obtain ⟨tables, htables, -⟩ := h
  exact ⟨tables, htables⟩

/-- With the tables at hand, there are entries if all factors are in the tables. -/
theorem exists_onRegion_iff {tables : List (Key × Rows ℝ)}
    (htables : tabulateKeys plans rule.points (keys dim plans secondary) = .ok tables) :
    (∃ values, onRegion dim plans primary secondary rule = .ok values) ↔
      ∀ i ∈ primary.indices, ∀ a ∈ secondary.indices, ∀ f ∈ factors dim plans tables a,
        ((f.2[f.1.dofAt i a]?).bind (·[f.1.referenceComponent a]?)).isSome := by
  have hentries : (∃ values, onRegion dim plans primary secondary rule = .ok values) ↔
      ∃ rows, primary.indices.mapM (fun i => (secondary.indices.map fun a => (a, factors dim plans tables a)).mapM
        fun x => entry rule.weights x.2 i x.1) = .ok rows := by
    simp only [onRegion, htables, ok_bind, bind_eq_ok, pure_eq_ok]
    constructor
    · rintro ⟨values, rows, hrows, -⟩
      exact ⟨rows, hrows⟩
    · rintro ⟨rows, hrows⟩
      exact ⟨_, rows, hrows, rfl⟩
  simp only [hentries, exists_mapM, List.forall_mem_map, exists_entry_iff]

end Regions

section Polynomials

variable {cell : Cell} {plans : List (Plan ℝ)} {primary secondary : MultiIndex} {rule rule' : Rule ℝ}
  {values : Array ℝ}

/-- Whether a factor is in the tables does not depend on the points. -/
theorem isSome_lookup_iff {P : Plan ℝ} {key : Key} (hP : plans[key.1]? = some P) (hcell : P.element.cell = cell)
    {F : Functions} (hF : P.element.Presents key.2 F) {points : List (List ℝ)}
    (hpoints : ∀ x ∈ points, x.length = cell.dim) {ks : List Key} {tables : List (Key × Rows ℝ)}
    (htables : tabulateKeys plans points ks = .ok tables) (hkey : key ∈ ks) (j s : ℕ) :
    (((((tables.lookup key).getD #[])[j]?).bind (·[s]?))).isSome ↔ ((F[j]?).bind (·[s]?)).isSome := by
  obtain ⟨P', table, hP', htable, hlookup⟩ := lookup_tabulateKeys htables hkey
  obtain rfl : P = P' := Option.some.inj (hP.symm.trans hP')
  obtain rfl := Except.ok.inj (htable.symm.trans (hF.table points fun x hx => hcell ▸ hpoints x hx))
  rw [hlookup, Option.getD_some, ← Option.isSome_map (f := fun f : List ℝ → ℝ => points.map f),
    ← Functions.getElem?_table]
  simp only [List.getElem?_toArray, List.getElem?_map]
  cases (F.table points)[j]? <;> simp

/-- The product of the basis functions has at most the sum of their degrees. -/
theorem isPolynomial_integrand {a : List ℕ} (h : ∀ P ∈ plans, P.element.cell = cell ∧
      ∃ F, P.element.Presents (directionCounts cell.dim (P.derivatives.map fun x => a.getD x.2 0)) F) (i : List ℕ) :
    cell.IsPolynomial (plans.map (·.element.degree)).sum (integrand cell.dim plans i a) := by
  refine Cell.IsPolynomial.prod plans fun P hP => ?_
  obtain ⟨rfl, F, hF⟩ := h P hP
  refine (hF.degree.component (P.dofAt i a) (P.referenceComponent a)).congr fun x hx => ?_
  exact hF.sample_eq (List.forall_mem_singleton.mpr hx) List.getElem?_cons_zero _ _

-- The elements of the plans are on the cell and have polynomials as basis functions.
variable (hplans : ∀ P ∈ plans, P.element.cell = cell ∧ P.element.Presentable)
include hplans

/-- The derivatives that occur are given by polynomials. -/
theorem presents_of_tabulateKeys {points : List (List ℝ)} (hpoints : ∀ x ∈ points, x.length = cell.dim) {ks : List Key}
    {tables : List (Key × Rows ℝ)} (htables : tabulateKeys plans points ks = .ok tables) {key : Key} (hkey : key ∈ ks) :
    ∃ P F, plans[key.1]? = some P ∧ P.element.cell = cell ∧ P.element.Presents key.2 F := by
  obtain ⟨P, table, hP, htable, -⟩ := lookup_tabulateKeys htables hkey
  obtain ⟨hcell, hpresentable⟩ := hplans P (List.mem_of_getElem? hP)
  obtain ⟨F, hF⟩ := hpresentable key.2 points table (fun x hx => hcell ▸ hpoints x hx) htable
  exact ⟨P, F, hP, hcell, hF⟩

/-- If there are entries for one rule, there are for any other. -/
theorem exists_onRegion (hrule : ∀ x ∈ rule.points, x.length = cell.dim)
    (hrule' : ∀ x ∈ rule'.points, x.length = cell.dim)
    (h : onRegion cell.dim plans primary secondary rule = .ok values) :
    ∃ values', onRegion cell.dim plans primary secondary rule' = .ok values' := by
  obtain ⟨tables, htables⟩ := tabulateKeys_of_onRegion h
  have htables' : ∃ tables', tabulateKeys plans rule'.points (keys cell.dim plans secondary) = .ok tables' := by
    refine exists_mapM.mpr fun key hkey => ?_
    obtain ⟨P, F, hP, hcell, hF⟩ := presents_of_tabulateKeys hplans hrule htables hkey
    have htable := hF.table rule'.points fun x hx => hcell ▸ hrule' x hx
    exact ⟨_, bind_eq_ok.mpr ⟨P, inRange_eq_ok.mpr hP, bind_eq_ok.mpr ⟨_, htable, rfl⟩⟩⟩
  obtain ⟨tables', htables'⟩ := htables'
  have hsome := (exists_onRegion_iff htables).mp ⟨values, h⟩
  refine (exists_onRegion_iff htables').mpr fun i hi a ha => List.forall_mem_map.mpr fun x hx => ?_
  have hfactor := List.forall_mem_map.mp (hsome i hi a ha) x hx
  rw [List.mem_zipIdx_iff_getElem?] at hx
  have hkey := mem_keys cell.dim ha hx
  obtain ⟨P, F, hP, hcell, hF⟩ := presents_of_tabulateKeys hplans hrule htables hkey
  rw [isSome_lookup_iff hP hcell hF hrule htables hkey] at hfactor
  exact (isSome_lookup_iff hP hcell hF hrule' htables' hkey _ _).mpr hfactor

/-- The derivatives of the plans at a secondary index are given by polynomials. -/
theorem presents_of_onRegion (hrule : ∀ x ∈ rule.points, x.length = cell.dim)
    (h : onRegion cell.dim plans primary secondary rule = .ok values) {a : List ℕ} (ha : a ∈ secondary.indices) :
    ∀ P ∈ plans, P.element.cell = cell ∧
      ∃ F, P.element.Presents (directionCounts cell.dim (P.derivatives.map fun x => a.getD x.2 0)) F := by
  intro P hmem
  obtain ⟨b, hb⟩ := List.mem_iff_getElem?.mp hmem
  obtain ⟨tables, htables⟩ := tabulateKeys_of_onRegion h
  obtain ⟨P', F, hP', hcell, hF⟩ := presents_of_tabulateKeys hplans hrule htables (mem_keys cell.dim ha hb)
  obtain rfl : P = P' := Option.some.inj (hb.symm.trans hP')
  rw [derivative_eq] at hF
  exact ⟨hcell, F, hF⟩

/-- An entry is the sum over the nodes of the product of the basis functions. -/
theorem getElem?_onRegion (hrule : ∀ x ∈ rule.points, x.length = cell.dim)
    (h : onRegion cell.dim plans primary secondary rule = .ok values)
    {k j : ℕ} {i a : List ℕ} (hi : primary.indices[k]? = some i) (ha : secondary.indices[j]? = some a) :
    values[k * secondary.size + j]? = some (rule.sum (integrand cell.dim plans i a)) := by
  have hpresents := presents_of_onRegion hplans hrule h (List.mem_of_getElem? ha)
  rw [onRegion_ok h hi ha, Rule.sum, sum_eq_getD, List.length_map]
  congr 1
  refine Finset.sum_congr rfl fun q hq => ?_
  have hnode : rule.nodes[q]? = some (rule.nodes.get ⟨q, Finset.mem_range.mp hq⟩) := by simp
  generalize rule.nodes.get ⟨q, Finset.mem_range.mp hq⟩ = node at hnode
  have hpoint : rule.points[q]? = some node.point := by simp [Rule.points, hnode]
  have hweight : rule.weights[q]? = some node.weight := by simp [Rule.weights, hnode]
  rw [List.getD_eq_getElem?_getD, List.getD_eq_getElem?_getD, List.getElem?_map, hnode, hweight]
  refine congrArg (node.weight * ·) (congrArg List.prod (List.map_congr_left fun P hP => ?_))
  obtain ⟨rfl, F, hF⟩ := hpresents P hP
  have hone : ∀ x ∈ [node.point], x.length = P.element.cell.dim :=
    List.forall_mem_singleton.mpr (hrule node.point (List.mem_of_getElem? hpoint))
  exact (hF.sample_eq hrule hpoint _ _).trans (hF.sample_eq hone List.getElem?_cons_zero _ _).symm

end Polynomials

end ReferenceTensor

/-- The entries of a tensor are sums over the nodes of the rules, and these are the integrals over the regions. -/
structure ReferenceTensor.Integrates (A : ReferenceTensor ℝ) (line : ℕ → List (ℝ × ℝ)) (dim : ℕ)
    (regions : List Region.Piece) (plans : List (Plan ℝ)) : Prop where
  numRegions : A.numRegions = regions.length
  entry : ∀ r s, regions[r]? = some s → ∀ k i, A.primary.indices[k]? = some i →
    ∀ j a, A.secondary.indices[j]? = some a →
      A.value r k j = (s.rule line dim).sum (integrand dim plans i a) ∧
        (s.rule line dim).sum (integrand dim plans i a) =
          s.domain.integral fun x => integrand dim plans i a (s.chart x)

namespace Product

/-- The reference tensor of a product whose basis functions are planned, made of rules on the line. -/
noncomputable def referenceFrom (line : ℕ → List (ℝ × ℝ)) (cell : Cell) (p : Product ℝ) (d : Draft ℝ) :
    Result (ReferenceTensor ℝ) := do
  let values ← (Region.pieces p.integral cell).mapM fun s =>
    ReferenceTensor.onRegion cell.dim d.plans ⟨d.primaryDims⟩ ⟨d.extents⟩ (s.rule line cell.dim)
  return ⟨⟨d.primaryDims⟩, ⟨d.extents⟩, d.axes, values⟩

theorem referenceFrom_eq_ok {line : ℕ → List (ℝ × ℝ)} {cell : Cell} {p : Product ℝ} {d : Draft ℝ}
    {A : ReferenceTensor ℝ} :
    p.referenceFrom line cell d = .ok A ↔ A.primary = ⟨d.primaryDims⟩ ∧ A.secondary = ⟨d.extents⟩ ∧ A.axes = d.axes ∧
      (Region.pieces p.integral cell).mapM (fun s =>
        ReferenceTensor.onRegion cell.dim d.plans A.primary A.secondary (s.rule line cell.dim)) = .ok A.values := by
  simp only [referenceFrom, bind_eq_ok, pure_eq_ok]
  constructor
  · rintro ⟨values, hvalues, rfl⟩
    exact ⟨rfl, rfl, rfl, hvalues⟩
  · obtain ⟨primary, secondary, axes, values⟩ := A
    rintro ⟨rfl, rfl, rfl, hvalues⟩
    exact ⟨values, hvalues, rfl⟩

theorem term_numPoints {α : Type} [Scalar α] {cell : Cell} {p : Product α} {d : Draft α} {t : Term α}
    (h : p.term cell none d = .ok t) : t.numPoints = ((d.plans.map (·.element.degree)).sum + 2) / 2 := by
  unfold term at h
  cases hk : p.integral
  all_goals
    simp only [hk, bind_eq_ok, pure_eq_ok] at h
    obtain ⟨rules, -, values, -, rfl⟩ := h
    rfl

/-- The term of a product has the tensor that is made of the Gauss rules on the line. -/
theorem term_reference {cell : Cell} {p : Product ℝ} {d : Draft ℝ} {t : Term ℝ} (h : p.term cell none d = .ok t) :
    t.numPoints = ((d.plans.map (·.element.degree)).sum + 2) / 2 ∧
      (∀ s ∈ Region.pieces p.integral cell, s.On cell) ∧
      p.referenceFrom (Gauss.line t.numPoints) cell d = .ok t.reference := by
  have hpoints := term_numPoints h
  obtain ⟨rules, hrules, hvalues, hprimary, hsecondary, haxes, -, -⟩ := term_ok h
  have hne : t.numPoints ≠ 0 := by omega
  obtain ⟨rfl, hon⟩ := regions_eq hne hrules
  refine ⟨hpoints, hon, referenceFrom_eq_ok.mpr ⟨?_, ?_, haxes, ?_⟩⟩
  · rw [← hprimary]
  · rw [← hsecondary]
  · rwa [List.mapM_map] at hvalues

/-- Where the rules on the line are exact up to the sum of the degrees, there is a tensor, and its entries are sums
over the nodes which are integrals. -/
theorem referenceFrom_exact {cell : Cell} {p : Product ℝ} {d : Draft ℝ} {line line' : ℕ → List (ℝ × ℝ)}
    {A : ReferenceTensor ℝ} (hplans : ∀ P ∈ d.plans, P.element.cell = cell ∧ P.element.Presentable)
    (hon : ∀ s ∈ Region.pieces p.integral cell, s.On cell) (hA : p.referenceFrom line cell d = .ok A) {n : ℕ}
    (hn : (d.plans.map (·.element.degree)).sum ≤ n) (hline : LineExact line' n) :
    ∃ B, p.referenceFrom line' cell d = .ok B ∧
      B.Integrates line' cell.dim (Region.pieces p.integral cell) d.plans := by
  obtain ⟨hprimary, hsecondary, -, hvalues⟩ := referenceFrom_eq_ok.mp hA
  have htotal (s : Region.Piece) (hs : s ∈ Region.pieces p.integral cell) : ∃ values,
      ReferenceTensor.onRegion cell.dim d.plans ⟨d.primaryDims⟩ ⟨d.extents⟩ (s.rule line' cell.dim) = .ok values := by
    obtain ⟨values, hregion⟩ := exists_mapM.mp ⟨_, hvalues⟩ s hs
    rw [hprimary, hsecondary] at hregion
    have hlength (line : ℕ → List (ℝ × ℝ)) := (hon s hs).length_points line cell.dim
    exact ReferenceTensor.exists_onRegion hplans (hlength line) (hlength line') hregion
  obtain ⟨values, hvalues'⟩ := exists_mapM.mpr htotal
  refine ⟨⟨_, _, d.axes, values⟩, bind_eq_ok.mpr ⟨values, hvalues', rfl⟩, length_of_mapM hvalues', ?_⟩
  intro r s hs k i hi j a ha
  have hpiece := hon s (List.mem_of_getElem? hs)
  have hpoints := hpiece.length_points line' cell.dim
  obtain ⟨entries, hr, hregion⟩ := getElem?_of_mapM hvalues' hs
  constructor
  · rw [ReferenceTensor.value, hr, Option.bind_some, ReferenceTensor.getElem?_onRegion hplans hpoints hregion hi ha]
    rfl
  · refine hpiece.sum_rule_eq_integral hline ?_ cell.dim
    have hpresents := ReferenceTensor.presents_of_onRegion hplans hpoints hregion (List.mem_of_getElem? ha)
    exact (ReferenceTensor.isPolynomial_integrand hpresents i).mono hn

/-- The term of a product with the number of points that its degrees give, where no element has values at the nodes of a
rule. If the Gauss rules on the line are exact up to one less than twice the number of points, the rule of every region
is, and the entries of the reference tensor are the integrals of the products of basis functions over the regions. The
same holds of any rules on the line in place of the Gauss rules. -/
theorem reference_exact {cell : Cell} {p : Product ℝ} {t : Term ℝ} {c c' : Cache ℝ} (hc : c.Faithful)
    (h : Resolve.Returns (p.build cell none) c t c')
    (hpolynomial : ∀ b ∈ p.basis, ∀ e : Element ℝ, Element.ofDescriptor b.element = .ok e → e.AllPolynomial) :
    ∃ es d, List.Forall₂ (fun b e => Element.ofDescriptor b.element = .ok e) p.basis es ∧
      Resolve.Returns (p.plan cell) c d c' ∧ d.plans.map (·.element) = es ∧
      t.numPoints = ((es.map (·.degree)).sum + 2) / 2 ∧
      p.referenceFrom (Gauss.line t.numPoints) cell d = .ok t.reference ∧
      (LineExact (Gauss.line t.numPoints) (2 * t.numPoints - 1) →
        t.reference.Integrates (Gauss.line t.numPoints) cell.dim (Region.pieces p.integral cell) d.plans) ∧
      ∀ line, LineExact line (2 * t.numPoints - 1) →
        ∃ A, p.referenceFrom line cell d = .ok A ∧
          A.Integrates line cell.dim (Region.pieces p.integral cell) d.plans := by
  obtain ⟨d, hplan, hterm⟩ := build_returns h
  obtain ⟨es, hplanned⟩ := planned_of_returns hc hplan
  have hplans : d.plans = Plan.ofAll p.trialPosition cell.dim 0 0 (p.basis.zip es) :=
    (Draft.addAll_ok hplanned.drafted).plans
  have helements : d.plans.map (·.element) = es := by
    rw [hplans, Plan.map_element_ofAll]
    exact List.map_snd_zip hplanned.resolved.length_eq.ge
  obtain ⟨hpoints, hon, hreference⟩ := term_reference hterm
  have hdegrees : d.plans.map (·.element.degree) = es.map (·.degree) := by
    rw [← helements, List.map_map]
    rfl
  have hpresentable : ∀ P ∈ d.plans, P.element.cell = cell ∧ P.element.Presentable := by
    intro P hP
    rw [hplans] at hP
    obtain ⟨⟨b, e⟩, hmem, n, rfl⟩ := Plan.mem_ofAll hP
    have hdirect := hplanned.direct_of_mem hmem
    refine ⟨Draft.addAll_onCell hplanned.drafted (b, e) hmem, ?_⟩
    refine (Element.closed_smooth.direct hdirect).presentable (hpolynomial b (List.of_mem_zip hmem).1 e ?_)
    rw [Element.ofDescriptor_eq_direct, hdirect]
  have hexact (line : ℕ → List (ℝ × ℝ)) (hline : LineExact line (2 * t.numPoints - 1)) :
      ∃ A, p.referenceFrom line cell d = .ok A ∧
        A.Integrates line cell.dim (Region.pieces p.integral cell) d.plans := by
    refine referenceFrom_exact hpresentable hon hreference ?_ hline
    omega
  refine ⟨es, d, ?_, hplan, helements, hdegrees ▸ hpoints, hreference, fun hline => ?_, hexact⟩
  · exact hplanned.resolved.imp fun b e he => (Element.ofDescriptor_eq_direct b.element).trans he
  · obtain ⟨A, hA, hintegrates⟩ := hexact (Gauss.line t.numPoints) hline
    obtain rfl := Except.ok.inj (hreference.symm.trans hA)
    exact hintegrates

/-- A linear test function on the interval. -/
noncomputable def linearLoad : Product ℝ :=
  .ofBasis [.ofArgument (.simple "Lagrange" (.simple .interval) (some 1)) .test]

/-- The linear element, with some coefficients. -/
def linearElement (u v : List ℝ) (entityDofs : EntityDofs) : Element ℝ :=
  .polynomial ⟨"Lagrange", .interval, 1, 1, .identity, [], [[u], [v]], entityDofs⟩

/-- What is planned for it. -/
def linearDraft (u v : List ℝ) (entityDofs : EntityDofs) : Draft ℝ :=
  ⟨[⟨linearElement u v entityDofs, .test, .primary 0, none, none, [], [⟨0, 1, .identity⟩]⟩], [], [], []⟩

theorem directPlan_linearLoad : ∃ u v entityDofs,
    Element.direct (.simple "Lagrange" (.simple .interval) (some 1)) = .ok (linearElement u v entityDofs) ∧
      linearLoad.directPlan (.simple .interval) = .ok (linearDraft u v entityDofs) := by
  obtain ⟨x, hx, hdimension, -⟩ := Lagrange.continuous_linear
  have hshaped := PolynomialElement.ofPoints_shaped (Lagrange.continuous_ok hx).2
  have hdirect : Element.direct (.simple "Lagrange" (.simple .interval) (some 1)) = .ok (Element.polynomial x) :=
    bind_eq_ok.mpr ⟨x, hx, rfl⟩
  rw [Lagrange.continuous, if_neg one_ne_zero] at hx
  obtain ⟨coefficients, -, rfl⟩ := PolynomialElement.exists_dualBasis hx
  obtain ⟨u, v, rfl⟩ := List.length_eq_two.mp hdimension
  obtain ⟨u, rfl⟩ := List.length_eq_one_iff.mp (hshaped.components u List.mem_cons_self)
  obtain ⟨v, rfl⟩ := List.length_eq_one_iff.mp (hshaped.components v (List.mem_cons_of_mem _ List.mem_cons_self))
  exact ⟨u, v, _, hdirect, bind_eq_ok.mpr ⟨_, bind_eq_ok.mpr ⟨_, hdirect, rfl⟩, rfl⟩⟩

theorem presentable_linearElement (u v : List ℝ) (entityDofs : EntityDofs) :
    (linearElement u v entityDofs).Presentable := by
  refine Element.presentable_of_polynomial rfl le_rfl fun _ _ => ?_
  rw [linearElement, Element.tabulate]

theorem term_linearLoad (u v : List ℝ) (entityDofs : EntityDofs) :
    ∃ t, linearLoad.term (.simple .interval) none (linearDraft u v entityDofs) = .ok t ∧ t.numPoints = 1 ∧
      t.reference.primary = ⟨[2]⟩ ∧ t.reference.secondary = ⟨[]⟩ := by
  have hpresentable : ∀ P ∈ (linearDraft u v entityDofs).plans,
      P.element.cell = .simple .interval ∧ P.element.Presentable :=
    List.forall_mem_singleton.mpr ⟨rfl, presentable_linearElement u v entityDofs⟩
  -- There are entries for a rule without nodes, and thus for the Gauss rule.
  have hnone : ReferenceTensor.onRegion 1 (linearDraft u v entityDofs).plans ⟨[2]⟩ ⟨[]⟩ (⟨1, []⟩ : Rule ℝ) =
      .ok _ := rfl
  obtain ⟨entries, hentries⟩ := ReferenceTensor.exists_onRegion hpresentable (List.forall_mem_nil _)
    (Rule.length_of_mem_cellFrom (Gauss.line 1) (.simple .interval)) hnone
  have hpoints : (linearDraft u v entityDofs).numPoints = 1 := by
    simp [Draft.numPoints, linearDraft, linearElement, Element.degree, Element.layout, Layout.ofPolynomial]
  have hregions : Region.interior (.simple .interval) (linearDraft u v entityDofs).numPoints =
      .ok [Rule.cellFrom (Gauss.line 1 : ℕ → List (ℝ × ℝ)) (.simple .interval)] := by
    rw [hpoints]
    exact bind_eq_ok.mpr ⟨_, Rule.onCell_eq one_ne_zero _, rfl⟩
  have hvalues := mapM_eq_ok.mpr (.cons hentries .nil)
  exact ⟨_, bind_eq_ok.mpr ⟨_, hregions, bind_eq_ok.mpr ⟨[entries], hvalues, rfl⟩⟩, hpoints, rfl, rfl⟩

/-- The load of the linear basis functions with one point, in the middle of the interval. -/
theorem reference_exact_linearLoad : ∃ t c d A,
    Resolve.Returns (linearLoad.build (.simple .interval) none) .empty t c ∧ t.numPoints = 1 ∧
      LineExact onePoint (2 * t.numPoints - 1) ∧
      linearLoad.referenceFrom onePoint (.simple .interval) d = .ok A ∧
      A.value 0 1 0 = ∫ x in (0 : ℝ)..1, ReferenceTensor.integrand 1 d.plans [1] [] [x] := by
  obtain ⟨u, v, entityDofs, helement, hplan⟩ := directPlan_linearLoad
  obtain ⟨t, ht, hone, hprimary, hsecondary⟩ := term_linearLoad u v entityDofs
  have hdirect : linearLoad.direct (.simple .interval) none = .ok t := bind_eq_ok.mpr ⟨_, hplan, ht⟩
  have hbuild : Resolve.Returns (linearLoad.build (.simple .interval) none) .empty t
      (Resolve.outcome (linearLoad.build (.simple .interval) none) .empty).2 :=
    Prod.ext (((linearLoad.answers_build _ none) .empty Cache.faithful_empty).1.trans hdirect) rfl
  have hpolynomial : ∀ b ∈ linearLoad.basis, ∀ e : Element ℝ, Element.ofDescriptor b.element = .ok e →
      e.AllPolynomial := by
    refine List.forall_mem_singleton.mpr fun e he => ?_
    rw [Element.ofDescriptor_eq_direct] at he
    obtain rfl := Except.ok.inj (helement.symm.trans he)
    rw [Element.AllPolynomial, linearElement, Element.EachLeaf]
    all_goals simp
  have hline : LineExact onePoint (2 * t.numPoints - 1) := by
    rw [hone]
    exact lineExact_onePoint
  obtain ⟨es, d, -, -, -, -, hreference, -, hexact⟩ := reference_exact Cache.faithful_empty hbuild hpolynomial
  obtain ⟨A, hA, hintegrates⟩ := hexact onePoint hline
  obtain ⟨hprimary', hsecondary', -⟩ := referenceFrom_eq_ok.mp hreference
  obtain ⟨hprimaryA, hsecondaryA, -⟩ := referenceFrom_eq_ok.mp hA
  rw [← hprimary', hprimary] at hprimaryA
  rw [← hsecondary', hsecondary] at hsecondaryA
  obtain ⟨hvalue, hsum⟩ := hintegrates.entry 0 _ rfl 1 [1] (by rw [hprimaryA]; rfl) 0 [] (by rw [hsecondaryA]; rfl)
  exact ⟨t, _, d, A, hbuild, hone, hline, hA, hvalue.trans hsum⟩

end Product
end Variational
