import Variational.Element.Resolve
import Variational.Proofs.Results

/-! What the ways of building elements give when they succeed, and under which conditions. -/
namespace Variational

section ReferenceCells

variable {α : Type} [Scalar α] {cell : ReferenceCell} {degree : ℕ} {e : PolynomialElement α}

omit [Scalar α] in
theorem PolynomialElement.subset_ok {x : PolynomialElement α} {family : String} {dofs : List ℕ}
    {entityDofs : EntityDofs} (h : x.subset family dofs entityDofs = .ok e) :
    ∃ coefficients, List.Forall₂ (fun d dof => x.coefficients[d]? = some dof) dofs coefficients ∧
      e = { x with family, coefficients, entityDofs } := by
  simp only [subset, Result.bind_eq_ok, Result.pure_eq_ok, Result.mapM_eq_ok, Result.inRange_eq_ok] at h
  obtain ⟨coefficients, hcoefficients, rfl⟩ := h
  exact ⟨coefficients, hcoefficients, rfl⟩

theorem Lagrange.continuous_ok (h : Lagrange.continuous cell degree = .ok e) :
    degree ≠ 0 ∧ PolynomialElement.ofPoints "Lagrange" cell degree (Lagrange.points cell degree)
      (EntityDofs.uniform cell.entityCounts fun d => (steps cell d degree).length) = .ok e := by
  unfold Lagrange.continuous at h
  split_ifs at h with hzero
  exact ⟨hzero, h⟩

theorem Lagrange.crouzeixRaviart_ok (h : Lagrange.crouzeixRaviart cell degree = .ok e) :
    (degree = 1 ∧ (cell = .triangle ∨ cell = .tetrahedron)) ∧
      PolynomialElement.ofPoints "Crouzeix-Raviart" cell degree (cell.facets.map (centre cell))
        (EntityDofs.uniform cell.entityCounts fun d => if d + 1 = cell.dim then 1 else 0) = .ok e := by
  unfold Lagrange.crouzeixRaviart at h
  split_ifs at h with hcell
  exact ⟨hcell, h⟩

/-- Bubbles are basis functions of a Lagrange element, numbered anew. -/
theorem Lagrange.bubble_ok (h : Lagrange.bubble cell degree = .ok e) :
    ∃ x dofs, Lagrange.continuous cell degree = .ok x ∧ dofs = EntityDofs.on x.entityDofs cell.dim 0 ∧
      x.subset "Bubble" dofs (EntityDofs.inside cell.entityCounts dofs.length) = .ok e := by
  simp only [Lagrange.bubble, Result.bind_eq_ok] at h
  obtain ⟨x, hx, h⟩ := h
  split at h
  · cases h
  · exact ⟨x, _, hx, rfl, h⟩

theorem VectorFamily.create_ok {f : VectorFamily} (h : f.create cell degree = .ok e) :
    (degree = 1 ∧ (cell = .triangle ∨ cell = .tetrahedron)) ∧
      ∃ functionals span, f.span cell = .ok span ∧
        PolynomialElement.create f.name cell degree [cell.dim] span functionals
          (EntityDofs.uniform cell.entityCounts fun d =>
            if d = (if f.isNormal then cell.dim - 1 else 1) then f.dofsPerEntity cell else 0)
          (if f.isNormal then .contravariantPiola else .covariantPiola) 1 = .ok e := by
  simp only [VectorFamily.create] at h
  split at h
  · cases h
  rename_i hcell
  refine ⟨not_not.mp hcell, ?_⟩
  cases hnormal : f.isNormal
  all_goals
    simp only [hnormal, if_true, Bool.false_eq_true, if_false, Result.bind_eq_ok] at h ⊢
    obtain ⟨functionals, -, span, hspan, he⟩ := h
    exact ⟨functionals, span, hspan, he⟩

theorem TimeFamily.create_ok {f : TimeFamily} (h : f.create degree = .ok e) :
    ¬ (f = .lobatto ∧ degree = 0) ∧ PolynomialElement.ofPoints f.name .interval degree
      ((f.nodes degree).map fun x => [x]) (f.entityDofs degree) = .ok e := by
  unfold TimeFamily.create at h
  split_ifs at h with hzero
  exact ⟨hzero, h⟩

/-- The elements of families on reference cells: dual to values at points, dual to components of fields at
points, or some of the basis functions of an element that is dual to values at points. -/
inductive PolynomialElement.OfFamily (family : String) (cell : ReferenceCell) (degree : ℕ) :
    PolynomialElement α → Prop
  | values {points : List (List α)} {perEntity : ℕ → ℕ} {e : PolynomialElement α}
    (h : ofPoints family cell degree points (EntityDofs.uniform cell.entityCounts perEntity) = .ok e) :
    OfFamily family cell degree e
  | components {span : List (List (List α))} {functionals : List (Functional α)} {perEntity : ℕ → ℕ}
    {map : ValueMap} {e : PolynomialElement α} (hdegree : degree = 1)
    (hcell : cell = .triangle ∨ cell = .tetrahedron)
    (h : create family cell degree [cell.dim] span functionals
      (EntityDofs.uniform cell.entityCounts perEntity) map 1 = .ok e) : OfFamily family cell degree e
  | interior {x e : PolynomialElement α} {points : List (List α)} {perEntity perEntity' : ℕ → ℕ}
    {dofs : List ℕ}
    (hx : ofPoints "Lagrange" cell degree points (EntityDofs.uniform cell.entityCounts perEntity) = .ok x)
    (h : x.subset family dofs (EntityDofs.uniform cell.entityCounts perEntity') = .ok e) :
    OfFamily family cell degree e

theorem VectorFamily.ofFamily {f : VectorFamily} (h : f.create cell degree = .ok e) :
    PolynomialElement.OfFamily f.name cell degree e := by
  obtain ⟨⟨hdegree, hcell⟩, functionals, span, -, he⟩ := create_ok h
  exact .components hdegree hcell he

theorem PolynomialElement.ofFamily_ok {family : String} (h : ofFamily family cell degree = .ok e) :
    OfFamily family cell degree e := by
  unfold ofFamily at h
  split at h
  · cases h
  split at h
  · exact .values (Lagrange.continuous_ok h).2
  · exact .values h
  · exact .values (Lagrange.crouzeixRaviart_ok h).2
  · obtain ⟨x, dofs, hx, -, he⟩ := Lagrange.bubble_ok h
    exact .interior (Lagrange.continuous_ok hx).2 he
  · exact VectorFamily.ofFamily h
  · exact VectorFamily.ofFamily h
  · exact VectorFamily.ofFamily h
  · exact VectorFamily.ofFamily h
  · cases h

end ReferenceCells

namespace Element

variable {α : Type} [Scalar α]

/-- The elements of families: a constant, a time element, values at points of the cell, or an element
on a reference cell. -/
inductive OfFamily (family : String) (cell : Cell) (degree : ℕ) : Element α → Prop
  | reals {c : ReferenceCell} {x : PolynomialElement α} (hfamily : family = "Real")
    (hcell : cell = .simple c) (h : PolynomialElement.ofFamily "Discontinuous Lagrange" c 0 = .ok x) :
    OfFamily family cell degree (reals x)
  | time {f : TimeFamily} {x : PolynomialElement α} (hfamily : family = f.name)
    (h : f.create degree = .ok x) : OfFamily family cell degree (time x)
  | quadrature {rule : Rule α} (hfamily : family = "Quadrature")
    (h : Rule.onCell cell ((degree + 2) / 2) = .ok rule) :
    OfFamily family cell degree (quadrature cell degree rule.nodes)
  | polynomial {c : ReferenceCell} {x : PolynomialElement α} (hcell : cell = .simple c)
    (h : PolynomialElement.ofFamily family c degree = .ok x) : OfFamily family cell degree (polynomial x)

theorem ofFamily_ok {family : String} {cell : Cell} {degree : Option ℕ} {e : Element α}
    (h : ofFamily family cell degree = .ok e) :
    family ∈ supportedFamilies ∧ OfFamily family cell (degree.getD 0) e := by
  simp only [ofFamily] at h
  split at h
  · cases h
  rename_i hsupported
  refine ⟨not_not.mp hsupported, ?_⟩
  split at h
  all_goals try simp only [Result.bind_eq_ok, Result.pure_eq_ok] at h
  · obtain ⟨x, hx, rfl⟩ := h
    cases cell with
    | simple c => exact .reals rfl rfl hx
    | product _ _ => cases hx
  · obtain ⟨x, hx, rfl⟩ := h
    exact .time (f := .lobatto) rfl hx
  · obtain ⟨x, hx, rfl⟩ := h
    exact .time (f := .radau) rfl hx
  · simp only [atQuadraturePoints, Result.bind_eq_ok, Result.pure_eq_ok] at h
    obtain ⟨rule, hrule, rfl⟩ := h
    exact .quadrature rfl hrule
  · obtain ⟨x, hx, rfl⟩ := h
    cases cell with
    | simple c => exact .polynomial rfl hx
    | product _ _ => cases hx

/-- A restriction keeps the dofs of the inside of the cell, or those of all entities up to a dimension. -/
theorem selectIndices_ok {l : Layout} {domain : Domain} {indices : List ℕ}
    (h : selectIndices l domain = .ok indices) :
    (domain = .interior ∧ ∃ entities, l.entityDofs[l.cell.dim]? = some entities ∧ entities[0]? = some indices) ∨
      ∃ c, domain = .upTo c ∧ indices = (l.entityDofs.take (c.dim + 1)).flatMap List.flatten := by
  cases domain with
  | interior =>
    simp only [selectIndices] at h
    split_ifs at h
    rw [Result.inRange_eq_ok, Option.bind_eq_some_iff] at h
    exact .inl ⟨rfl, h⟩
  | upTo c => exact .inr ⟨c, rfl, (Except.ok.inj h).symm⟩
  | other _ => cases h

theorem restrictFamily_ok {family : String} {cell : Cell} {degree : Option ℕ} {domain : Domain}
    {e : Element α} (h : restrictFamily family cell degree domain = .ok e) :
    ∃ a indices, ofFamily family cell degree = .ok a ∧ selectIndices a.layout domain = .ok indices ∧
      e = restricted a indices domain := by
  simp only [restrictFamily, Result.bind_eq_ok, Result.pure_eq_ok] at h
  obtain ⟨a, ha, indices, hindices, rfl⟩ := h
  exact ⟨a, indices, ha, hindices, rfl⟩

theorem enrich_ok {a b e : Element α} (h : enrich a b = .ok e) : e = enriched a b := by
  simp only [enrich] at h
  split at h
  · cases h
  split at h
  · cases h
  split at h
  · cases h
  split at h
  · split_ifs at h
    · simp only [Result.bind_eq_ok, Result.pure_eq_ok] at h
      obtain ⟨-, -, rfl⟩ := h
      rfl
    · exact (Except.ok.inj h).symm
  · exact (Except.ok.inj h).symm

/-- Only elements with values of one kind and entities in equal numbers on one cell are enriched. -/
theorem enrich_compatible {a b e : Element α} (h : enrich a b = .ok e) :
    a.layout.cell = b.layout.cell ∧ a.layout.valueShape = b.layout.valueShape ∧
      a.layout.map = b.layout.map ∧
      EntityDofs.counts a.layout.entityDofs = EntityDofs.counts b.layout.entityDofs := by
  simp only [enrich] at h
  split at h
  · cases h
  rename_i hcell
  split at h
  · cases h
  rename_i hvalues
  split at h
  · cases h
  rename_i hcounts
  rw [not_or, not_not, not_not] at hvalues
  exact ⟨not_not.mp hcell, hvalues.1, hvalues.2, not_not.mp hcounts⟩

theorem tensor_ok {a b e : Element α} (h : tensor a b = .ok e) : e = product a b none := by
  simp only [tensor] at h
  split_ifs at h
  exact (Except.ok.inj h).symm

/-- One of the factors has scalar values. -/
theorem tensor_scalar {a b e : Element α} (h : tensor a b = .ok e) :
    a.layout.valueSize = 1 ∨ b.layout.valueSize = 1 := by
  simp only [tensor] at h
  split_ifs at h with hvector
  rwa [not_and_or, not_not, not_not] at hvector

theorem wrap_ok {space : SobolevSpace} {x e : Element α} (h : wrap space x = .ok e) :
    ∃ a b c, x = product a b none ∧ wrappingComponent? space a.layout b.layout = some c ∧
      e = product a b (some ⟨space, c⟩) := by
  unfold wrap at h
  split at h
  · rename_i a b wrapping
    simp only at h
    split at h
    · cases h
    rename_i hscalar
    obtain rfl : wrapping = none := by
      rw [not_or] at hscalar
      exact Option.not_isSome_iff_eq_none.mp hscalar.2
    split at h
    · rename_i c hc
      exact ⟨a, b, c, rfl, hc, (Except.ok.inj h).symm⟩
    · cases h
  · cases h

theorem checkParts_ok {first : Layout} {ls : List Layout} (h : checkParts first ls = .ok ()) :
    ∀ l ∈ ls, l.cell = first.cell ∧
      EntityDofs.counts l.entityDofs = EntityDofs.counts first.entityDofs := by
  induction ls with
  | nil => simp
  | cons l ls ih =>
    unfold checkParts at h
    split_ifs at h with hcell hcounts
    rw [List.forall_mem_cons]
    exact ⟨⟨not_not.mp hcell, not_not.mp hcounts⟩, ih h⟩

theorem mix_cons {first : Element α} {rest : List (Element α)} :
    mix (first :: rest) =
      checkParts first.layout (rest.map layout) >>= fun _ => .ok (mixed (first :: rest)) := by
  rw [← layouts_eq_map]
  rfl

/-- Only elements with entities in equal numbers on one cell are summed, and at least one of them. -/
theorem mix_compatible {parts : List (Element α)} {e : Element α} (h : mix parts = .ok e) :
    ∃ first rest, parts = first :: rest ∧ ∀ x ∈ rest, x.layout.cell = first.layout.cell ∧
      EntityDofs.counts x.layout.entityDofs = EntityDofs.counts first.layout.entityDofs := by
  cases parts with
  | nil => cases h
  | cons first rest =>
    rw [mix_cons, Result.bind_eq_ok] at h
    obtain ⟨_, hcheck, -⟩ := h
    exact ⟨first, rest, rfl, List.forall_mem_map.mp (checkParts_ok hcheck)⟩

theorem mix_ok {parts : List (Element α)} {e : Element α} (h : mix parts = .ok e) : e = mixed parts := by
  obtain ⟨first, rest, rfl, -⟩ := mix_compatible h
  rw [mix_cons, Result.bind_eq_ok] at h
  obtain ⟨_, -, he⟩ := h
  exact (Except.ok.inj he).symm

theorem layout_mixed (first : Element α) (rest : List (Element α)) :
    (mixed (first :: rest)).layout = .mixed (first.layout :: rest.map layout) := by
  rw [layout, layouts, layouts_eq_map]

/-- All parts of a sum are elements on its cell. -/
theorem cell_of_mem_parts {parts : List (Element α)} {e a : Element α} (h : mix parts = .ok e)
    (ha : a ∈ parts) : a.cell = e.cell := by
  obtain ⟨first, rest, rfl, hsame⟩ := mix_compatible h
  obtain rfl := mix_ok h
  have hcell : (mixed (first :: rest)).cell = first.cell := by
    rw [cell, layout_mixed]
    rfl
  rw [hcell]
  rcases List.mem_cons.mp ha with rfl | ha
  · rfl
  · exact (hsame a ha).1

end Element
end Variational
