import Variational.Proofs.TensorNames

/-! Scopes in the code of integrals. What the code of an element tensor uses is a parameter or is declared once in
the function, before its use; coefficients and constants are read from slots of their own. -/
namespace Variational

namespace Code

variable {α : Type}

/-- A name is declared by the blocks at the front of a function or by statements of its last block, and
declared once in the function. -/
structure DeclaredOnce (front : List (Block α)) (body before : List (Statement α)) (x : String) : Prop where
  earlier : x ∈ front.flatMap Block.visible ++ before.flatMap Statement.declared
  once : ((front ++ [Block.plain body]).flatMap Block.declared).count x = 1

end Code

namespace TensorCode
open Code

variable {α : Type}

section Scope

/-- A statement uses given names and what is declared before it. -/
def Known (names : List String) (before : List (Statement α)) (st : Statement α) : Prop :=
  ∀ x ∈ st.uses, x.1 ∈ names ∨ x.1 ∈ before.flatMap Statement.declared

theorem Known.mono {names : List String} {before before' : List (Statement α)} {st : Statement α}
    (h : Known names before st) (hsub : before ⊆ before') : Known names before' st := by
  intro x hx
  refine (h x hx).imp_right fun hmem => ?_
  obtain ⟨other, hother, hdeclared⟩ := List.mem_flatMap.mp hmem
  exact List.mem_flatMap.mpr ⟨other, hsub hother, hdeclared⟩

/-- The names at hand where the code of the tensors begins. -/
def outerNames (dim : ℕ) (kind : IntegralKind) : List String :=
  FormClass.parameters kind ++ (Geometry.cellNames dim ++ ["det"])

theorem constants_known (f : Form α) (dim : ℕ) (kind : IntegralKind) (before : List (Statement α)) :
    ∀ st ∈ constants f, Known (outerNames dim kind) before st := by
  intro st hst x hx
  unfold constants at hst
  split_ifs at hst
  · cases hst
  · simp only [List.cons_append, List.mem_cons, List.mem_append, List.mem_map, List.not_mem_nil,
      or_false] at hst
    rcases hst with rfl | ⟨n, -, rfl⟩ | rfl
    · cases hx
    · obtain rfl := List.mem_singleton.mp hx
      exact .inl (List.mem_append_left _ (FormClass.inputs_mem_parameters kind))
    · cases hx

variable [Scalar α] {dim numCoefficients : ℕ} {kind : IntegralKind} {f : Form α}

theorem tables_known (names : List String) (terms : List (Term α)) (before : List (Statement α)) :
    ∀ st ∈ tables terms, Known names before st := by
  intro st hst x hx
  rcases List.mem_cons.mp hst with rfl | hst
  · cases hx
  · obtain ⟨y, -, hst⟩ := List.mem_flatMap.mp hst
    simp only [List.mem_cons, List.not_mem_nil, or_false] at hst
    rcases hst with rfl | rfl
    · unfold table at hx
      dsimp only at hx
      split at hx <;> cases hx
    · cases hx

/-- The value of an entry of a geometry tensor is made of the determinants, available symbols and constants. -/
theorem entry_known {t : Term α} (ht : t.Supplied dim numCoefficients f.numConstants)
    {g : GeometryEntry α} (hg : g ∈ t.geometry) (name : String) {before : List (Statement α)}
    (hbefore : constantNames f ⊆ before.flatMap Statement.declared) :
    Known (outerNames dim kind) before
      (.constant name (.times (.name "det") (.parens (Monomial.sumExpr g.monomials)))) := by
  intro x hx
  rcases List.mem_cons.mp hx with rfl | hx
  · exact .inl (List.mem_append_right _ (by simp))
  rcases Monomial.mem_uses_sumExpr hx with rfl | ⟨m, hm, s, hs, hx⟩
  · exact .inl (List.mem_append_right _ (by simp [Geometry.cellNames]))
  obtain ⟨a, -, havailable⟩ := ht.symbols g hg
  have hs := havailable m hm s hs
  rw [Symbol.uses_expr] at hx
  cases s with
  | jacobian i j =>
    obtain rfl := List.mem_singleton.mp hx
    have hmem : (Symbol.jacobian i j).name ∈ Geometry.matrixNames .jacobian dim :=
      Geometry.mem_matrixNames.mpr ⟨i, hs.1, j, hs.2, rfl⟩
    exact .inl (List.mem_append_right _ (by simp [Geometry.cellNames, hmem]))
  | inverseJacobian i j =>
    obtain rfl := List.mem_singleton.mp hx
    have hmem : (Symbol.inverseJacobian i j).name ∈ Geometry.matrixNames .inverseJacobian dim :=
      Geometry.mem_matrixNames.mpr ⟨i, hs.1, j, hs.2, rfl⟩
    exact .inl (List.mem_append_right _ (by simp [Geometry.cellNames, hmem]))
  | constant n =>
    obtain rfl := List.mem_singleton.mp hx
    exact .inr (hbefore (List.mem_map_of_mem (List.mem_range.mpr hs)))
  | coefficient n j =>
    obtain rfl := List.mem_singleton.mp hx
    exact .inl (List.mem_append_left _ (FormClass.inputs_mem_parameters kind))

/-- The entries of a geometry tensor come before the array of their names. -/
theorem termGeometry_known {t : Term α} (ht : t.Supplied dim numCoefficients f.numConstants) (n : ℕ)
    {front : List (Statement α)} (hfront : constantNames f ⊆ front.flatMap Statement.declared) :
    Sequential (fun before => Known (outerNames dim kind) (front ++ before))
      (((namedEntries t n).map fun (name, g) =>
        .constant name (.times (.name "det") (.parens (Monomial.sumExpr g.monomials)))) ++
      [.array s!"G_{n}" ((namedEntries t n).map fun (name, _) => .expr (.name name))]) := by
  refine (Sequential.of_forall fun st hst before => ?_).append (.singleton fun x hx => ?_)
  · obtain ⟨⟨name, g⟩, hmem, rfl⟩ := List.mem_map.mp hst
    obtain ⟨g', hg, heq⟩ := List.mem_map.mp hmem
    obtain ⟨-, rfl⟩ := Prod.mk.inj heq
    refine entry_known ht hg name ?_
    rw [List.flatMap_append]
    exact List.Subset.trans hfront (List.subset_append_left _ _)
  · obtain ⟨value, hvalue, hx⟩ := List.mem_flatMap.mp hx
    obtain ⟨y, hy, rfl⟩ := List.mem_map.mp hvalue
    obtain rfl := List.mem_singleton.mp hx
    rw [List.append_nil]
    exact .inr (List.mem_flatMap.mpr ⟨_, List.mem_append_right _ (List.mem_map_of_mem hy),
      List.mem_singleton_self _⟩)

theorem geometry_known (h : ∀ t ∈ f.terms kind, t.Supplied dim numCoefficients f.numConstants) :
    Sequential (fun before => Known (outerNames dim kind) (constants f ++ tables (f.terms kind) ++ before))
      (geometry (f.terms kind)) := by
  rw [geometry, List.flatMap_def, ← List.singleton_append]
  refine ((Sequential.singleton (List.forall_mem_nil _)).append (.flatten ?_ ?_)).append
    (.singleton (List.forall_mem_nil _))
  · intro more before st hst
    refine hst.mono ?_
    intro other hother
    simp only [List.mem_append] at hother ⊢
    tauto
  · intro list hlist
    obtain ⟨⟨t, n⟩, hmem, rfl⟩ := List.mem_map.mp hlist
    have hfront : constantNames f ⊆ (constants f ++ tables (f.terms kind) ++
        [Statement.comment "Compute geometry tensors"]).flatMap Statement.declared := by
      rw [List.flatMap_append, List.flatMap_append, declared_constants, List.append_assoc]
      exact List.subset_append_left _ _
    simp only [← List.append_assoc]
    exact termGeometry_known (h t (mem_terms_of_written hmem)) n hfront

omit [Scalar α] in
/-- The contraction uses parameters, and the tables and arrays of the terms. -/
theorem mem_uses_contraction {st : Statement α} (hst : st ∈ contraction f kind) {x : String × List ℕ}
    (hx : x ∈ st.uses) : x.1 ∈ FormClass.parameters kind ∨
      ∃ y ∈ written (f.terms kind), x.1 = s!"A0_{y.2}" ∨ x.1 = geometryName y.2 none := by
  rcases List.mem_append.mp hst with hst | hst
  · simp only [List.mem_cons, List.not_mem_nil, or_false] at hst
    rcases hst with rfl | rfl
    · cases hx
    · obtain rfl : x = ("A", []) := by simpa [Statement.uses, Expr.uses, Expr.number] using hx
      exact .inl (FormClass.result_mem_parameters kind)
  · obtain ⟨⟨t, n⟩, hmem, rfl⟩ := List.mem_map.mp hst
    obtain ⟨hx, hcounter⟩ := List.mem_filter.mp hx
    have hcounter : x.1 ∉ ["i", "a"] := of_decide_eq_true hcounter
    have hnames : x.1 ∈ FormClass.parameters kind ∨ x.1 ∈ ["i", "a"] ∨
        x.1 = s!"A0_{n}" ∨ x.1 = geometryName n none := by
      cases kind with
      | interior =>
        have hx : x ∈ [("A", []), ("i", []), (s!"A0_{n}", []), ("i", []), ("a", []), (geometryName n none, []),
          ("a", [])] := hx
        simp only [List.mem_cons, List.not_mem_nil, or_false] at hx
        rcases hx with rfl | rfl | rfl | rfl | rfl | rfl | rfl <;> simp [FormClass.parameters]
      | boundary =>
        have hx : x ∈ [("A", []), ("i", []), (s!"A0_{n}", []), ("facet", []), ("i", []), ("a", []),
          (geometryName n none, []), ("a", [])] := hx
        simp only [List.mem_cons, List.not_mem_nil, or_false] at hx
        rcases hx with rfl | rfl | rfl | rfl | rfl | rfl | rfl | rfl <;> simp [FormClass.parameters]
    exact hnames.imp_right fun hx => ⟨(t, n), hmem, hx.resolve_left hcounter⟩

theorem contraction_known : ∀ st ∈ contraction f kind, ∀ before,
    Known (outerNames dim kind) (constants f ++ tables (f.terms kind) ++ geometry (f.terms kind) ++ before) st := by
  intro st hst before x hx
  rw [List.flatMap_append, List.flatMap_append, List.flatMap_append, declared_tables, declared_geometry]
  rcases mem_uses_contraction hst hx with hx | ⟨y, hy, hx | hx⟩
  · exact .inl (List.mem_append_left _ hx)
  · have hmem : x.1 ∈ tableNames (f.terms kind) := hx ▸ List.mem_map_of_mem hy
    simp [hmem]
  · have hmem : x.1 ∈ geometryNames (f.terms kind) := by
      rw [hx]
      exact List.mem_map.mpr ⟨(y.2, none), List.mem_flatMap.mpr ⟨y, hy, by simp⟩, rfl⟩
    simp [hmem]

theorem body_known (h : ∀ t ∈ f.terms kind, t.Supplied dim numCoefficients f.numConstants) :
    Sequential (Known (outerNames dim kind)) (body f kind) := by
  refine (((Sequential.of_forall ?_).append (.of_forall ?_)).append (geometry_known h)).append
    (.of_forall contraction_known)
  · exact fun st hst before => constants_known f dim kind before st hst
  · exact fun st hst before => tables_known _ _ _ st hst

/-- Where the code of the tensors uses a name that is no parameter, it is declared before, and nowhere else in
the function. -/
def Scoped (front : List (Block α)) (f : Form α) (kind : IntegralKind) : Prop :=
  Sequential (fun before st => ∀ x ∈ st.uses, x.1 ∈ FormClass.parameters kind ∨
    DeclaredOnce front (body f kind) before x.1) (body f kind)

theorem body_scoped {cell : Cell} {front : List (Block α)} (hfront : FormClass.scaling cell kind = .ok front)
    (h : ∀ t ∈ f.terms kind, t.Supplied cell.dim numCoefficients f.numConstants) : Scoped front f kind := by
  obtain ⟨hdim, hvisible, inner, hdeclared, hinner⟩ := FormClass.scaling_ok hfront
  have hnodup := nodup_names hdim h
  rw [← declared_body] at hnodup
  -- What is local to the facets has names of its own, and the other names are all different.
  have honce {x : String} (hx : x ∈ Geometry.cellNames cell.dim ++ ["det"] ++
      (body f kind).flatMap Statement.declared) :
      ((front ++ [Block.plain (body f kind)]).flatMap Block.declared).count x = 1 := by
    have hlocal : x ∉ inner := by
      rw [declared_body] at hx
      exact (begin_names f cell.dim kind).disjoint hinner (by simp) hx
    have hcount := List.count_eq_one_of_mem hnodup hx
    rw [List.count_append] at hcount
    rw [List.flatMap_append, hdeclared, List.flatMap_singleton, Block.declared, List.count_append,
      List.count_append, List.count_eq_zero_of_not_mem hlocal, Nat.add_zero, hcount]
  intro before st after heq x hx
  rcases body_known h before st after heq x hx with hx | hx
  · refine (List.mem_append.mp hx).imp_right fun hx => ⟨?_, honce (List.mem_append_left _ hx)⟩
    rw [hvisible]
    exact List.mem_append_left _ hx
  · refine .inr ⟨List.mem_append_right _ hx, honce (List.mem_append_right _ ?_)⟩
    rw [heq, List.flatMap_append]
    exact List.mem_append_left _ hx

end Scope

section Inputs

theorem mem_constants {f : Form α} {x : String} {e : Expr α} : .constant x e ∈ constants f ↔
    ∃ n < f.numConstants, x = (Symbol.constant n).name ∧ e = .entry2 "w" (f.numCoefficients + n) 0 := by
  unfold constants
  split_ifs with hzero
  · simp [hzero]
  · simp only [List.cons_append, List.mem_cons, List.mem_append, List.mem_map, List.mem_range, reduceCtorEq,
      Statement.constant.injEq, List.not_mem_nil, or_false, false_or, eq_comm]

variable [Scalar α]

/-- The statements that compute geometry tensors are named for a term and a value of its secondary index. -/
theorem mem_geometry {terms : List (Term α)} {x : String} {e : Expr α} (h : .constant x e ∈ geometry terms) :
    ∃ y ∈ written terms, ∃ g ∈ y.1.geometry,
      x = entryName y.2 (y.1.reference.secondary.indices.getD g.position []) ∧
      e = .times (.name "det") (.parens (Monomial.sumExpr g.monomials)) := by
  simp only [geometry, List.cons_append, List.mem_cons, List.mem_append, reduceCtorEq, List.not_mem_nil,
    or_false, false_or] at h
  obtain ⟨y, hy, h⟩ := List.mem_flatMap.mp h
  simp only [List.mem_append, List.mem_singleton, reduceCtorEq, or_false] at h
  obtain ⟨z, hz, heq⟩ := List.mem_map.mp h
  obtain ⟨g, hg, rfl⟩ := List.mem_map.mp hz
  obtain ⟨rfl, rfl⟩ := Statement.constant.inj heq
  exact ⟨y, hy, g, hg, rfl, rfl⟩

/-- The slot is that of a dof of a coefficient: the value of the secondary index on an axis of it. -/
def CoefficientSlot (numCoefficients : ℕ) (t : ReferenceTensor α) (a slot : List ℕ) : Prop :=
  ∃ n j, slot = [n, j] ∧ n < numCoefficients ∧ ∃ axis extent : ℕ,
    t.axes[axis]? = some (SecondaryAxis.coefficient n) ∧ t.secondary.dims[axis]? = some extent ∧
      a[axis]? = some j ∧ j < extent

/-- Coefficients and constants are read where they are passed. An entry of a geometry tensor reads dofs of
coefficients; the constants come after all coefficients. -/
structure ReadsInputs (f : Form α) (kind : IntegralKind) : Prop where
  coefficients : ∀ x e, .constant x e ∈ geometry (f.terms kind) → ∃ y ∈ written (f.terms kind),
    ∃ a ∈ y.1.reference.secondary.indices, x = entryName y.2 a ∧
      ∀ slot, ("w", slot) ∈ e.uses → CoefficientSlot f.numCoefficients y.1.reference a slot
  constants : ∀ x e, .constant x e ∈ constants f ↔ ∃ n < f.numConstants,
    x = (Symbol.constant n).name ∧ e = .entry2 "w" (f.numCoefficients + n) 0
  numbers : ∀ t ∈ f.terms kind, ∀ g ∈ t.geometry, ∀ m ∈ g.monomials, ∀ n,
    Symbol.constant n ∈ m.symbols → n < f.numConstants
  apart : ∀ x e, .constant x e ∈ geometry (f.terms kind) → ∀ x' e', .constant x' e' ∈ TensorCode.constants f →
    ∀ n j n' j', ("w", [n, j]) ∈ e.uses → ("w", [n', j']) ∈ e'.uses → n ≠ n'

theorem geometry_coefficients {f : Form α} {kind : IntegralKind} {dim : ℕ}
    (h : ∀ t ∈ f.terms kind, t.Supplied dim f.numCoefficients f.numConstants) {x : String} {e : Expr α}
    (hmem : .constant x e ∈ geometry (f.terms kind)) : ∃ y ∈ written (f.terms kind),
      ∃ a ∈ y.1.reference.secondary.indices, x = entryName y.2 a ∧
        ∀ slot, ("w", slot) ∈ e.uses → CoefficientSlot f.numCoefficients y.1.reference a slot := by
  obtain ⟨y, hy, g, hg, rfl, rfl⟩ := mem_geometry hmem
  obtain ⟨a, ha, havailable⟩ := (h y.1 (mem_terms_of_written hy)).symbols g hg
  refine ⟨y, hy, a, List.mem_of_getElem? ha, ?_, fun slot hslot => ?_⟩
  · rw [List.getD_eq_getElem?_getD, ha, Option.getD_some]
  · rcases List.mem_cons.mp hslot with heq | hslot
    · simp at heq
    obtain ⟨m, hm, n, j, hsymbol, rfl⟩ := Monomial.coefficient_of_mem_uses hslot
    exact ⟨n, j, rfl, havailable m hm _ hsymbol⟩

theorem readsInputs_of_supplied {f : Form α} {kind : IntegralKind} {dim : ℕ}
    (h : ∀ t ∈ f.terms kind, t.Supplied dim f.numCoefficients f.numConstants) : ReadsInputs f kind where
  coefficients _ _ hmem := geometry_coefficients h hmem
  constants _ _ := mem_constants
  numbers t ht g hg m hm n hn := by
    obtain ⟨a, -, havailable⟩ := (h t ht).symbols g hg
    exact havailable m hm _ hn
  apart x e hmem x' e' hmem' n j n' j' hslot hslot' := by
    obtain ⟨y, -, a, -, -, hslots⟩ := geometry_coefficients h hmem
    obtain ⟨k, l, heq, hk, -⟩ := hslots _ hslot
    obtain ⟨m, -, -, rfl⟩ := mem_constants.mp hmem'
    have hslot' : [n', j'] = [f.numCoefficients + m, 0] := (Prod.mk.inj (List.mem_singleton.mp hslot')).2
    obtain ⟨rfl, -⟩ := List.cons.inj heq
    obtain ⟨rfl, -⟩ := List.cons.inj hslot'
    omega

end Inputs
end TensorCode

namespace FormClass
open Code

variable {α : Type} [Scalar α]

/-- The class of an integral that has terms. -/
theorem integral_of_items {f : Form α} {items : List (Item α)} (hitems : FormClass.items f = .ok items)
    {kind : IntegralKind} (hterms : f.terms kind ≠ []) :
    ∃ (cell : Cell) (front : List (Block α)) (cls : Class α), f.cell = some cell ∧
      scaling cell kind = .ok front ∧ .define cls ∈ items ∧ cls.name = integralName f kind ∧
      cls.base = integralSuffix kind ∧
      cls.members = [tabulateTensor kind (.run (front ++ [.plain (TensorCode.body f kind)]))] := by
  obtain ⟨elements, dofMaps, interior, boundary, rfl, -, -, hinterior, hboundary⟩ := items_ok hitems
  obtain ⟨own, hown, hsub⟩ : ∃ own, integral f kind = .ok own ∧
      own ⊆ elements ++ dofMaps ++ interior ++ boundary ++ [.define (define f)] := by
    cases kind with
    | interior => exact ⟨interior, hinterior, fun item hitem => by simp [hitem]⟩
    | boundary => exact ⟨boundary, hboundary, fun item hitem => by simp [hitem]⟩
  rcases integral_ok hown with ⟨hnil, -⟩ | ⟨cell, front, cls, -, hcell, hfront, rfl, hname, hbase, -, hmembers⟩
  · exact absurd hnil hterms
  exact ⟨cell, front, cls, hcell, hfront, hsub (List.mem_singleton_self _), hname, hbase, hmembers⟩

/-- In the function that computes an element tensor, every name that the code of the tensors uses is a parameter
or declared once in the function, before its use, and the values of coefficients and constants are read from
slots of their own. -/
theorem integral_scoped {s : Sum α} {numPoints : Option ℕ} {name : String} {f : Form α} {c c' : Cache α}
    (hc : c.Faithful) (hbuild : Resolve.Returns (s.build numPoints name) c f c') {items : List (Item α)}
    (hitems : FormClass.items f = .ok items) {kind : IntegralKind} (hterms : f.terms kind ≠ []) :
    ∃ (cls : Class α) (front : List (Block α)), .define cls ∈ items ∧ cls.name = integralName f kind ∧
      cls.base = integralSuffix kind ∧
      cls.members = [tabulateTensor kind (.run (front ++ [.plain (TensorCode.body f kind)]))] ∧
      TensorCode.Scoped front f kind ∧ TensorCode.ReadsInputs f kind := by
  have hsupplied := (Sum.gives_supplied numPoints name s c f c' hc hbuild).1
  obtain ⟨cell, front, cls, hcell, hfront, hcls, hname, hbase, hmembers⟩ := integral_of_items hitems hterms
  have hall := hsupplied cell hcell kind
  exact ⟨cls, front, hcls, hname, hbase, hmembers,
    TensorCode.body_scoped hfront hall, TensorCode.readsInputs_of_supplied hall⟩

/-- Gradients with a weight on the triangle, and the flux through its boundary along a vector field; of two
constants only the second is used. -/
def transport : Sum Blank :=
  let linear : Descriptor := .simple "Lagrange" (.simple .triangle) (some 1)
  let flux : Descriptor := .simple "Raviart-Thomas" (.simple .triangle) (some 1)
  let test := BasisFunction.ofArgument linear .test
  let trial := BasisFunction.ofArgument linear .trial
  ⟨[(Product.ofBasis [test.dx (.free 0), trial.dx (.free 0), .ofArgument linear (.function 0)]).withConstant ⟨1⟩,
    (Product.ofBasis [test, trial.dx (.free 0),
      (BasisFunction.ofArgument flux (.function 1)).component (.free 0)]).integrated .boundary]⟩

/-- The code on the boundary declares sixteen names and uses names at 127 places. -/
theorem integral_scoped_transport : ∃ (f : Form Blank) (c' : Cache Blank) (items : List (Item Blank)),
    Resolve.Returns (transport.build (some 1) "a") .empty f c' ∧ FormClass.items f = .ok items ∧
      ((TensorCode.body f .boundary).flatMap Statement.uses).length = 127 ∧
      ((TensorCode.body f .boundary).flatMap Statement.declared).length = 16 ∧
      ∀ kind, f.terms kind ≠ [] ∧ ∃ (cls : Class Blank) (front : List (Block Blank)), .define cls ∈ items ∧
        cls.name = integralName f kind ∧ cls.base = integralSuffix kind ∧
        cls.members = [tabulateTensor kind (.run (front ++ [.plain (TensorCode.body f kind)]))] ∧
        TensorCode.Scoped front f kind ∧ TensorCode.ReadsInputs f kind := by
  have hbuilt : ∃ (f : Form Blank) (c' : Cache Blank) (items : List (Item Blank)),
      Resolve.Returns (transport.build (some 1) "a") .empty f c' ∧ FormClass.items f = .ok items ∧
        ((TensorCode.body f .boundary).flatMap Statement.uses).length = 127 ∧
        ((TensorCode.body f .boundary).flatMap Statement.declared).length = 16 ∧
        (f.terms .interior).length = 1 ∧ (f.terms .boundary).length = 1 :=
    ⟨_, _, _, rfl, rfl, rfl, rfl, rfl, rfl⟩
  obtain ⟨f, c', items, hbuild, hitems, huses, hdeclared, hinterior, hboundary⟩ := hbuilt
  refine ⟨f, c', items, hbuild, hitems, huses, hdeclared, fun kind => ?_⟩
  have hterms : f.terms kind ≠ [] := by
    cases kind with
    | interior => exact List.ne_nil_of_length_eq_add_one hinterior
    | boundary => exact List.ne_nil_of_length_eq_add_one hboundary
  exact ⟨hterms, integral_scoped Cache.faithful_empty hbuild hitems hterms⟩

end FormClass
end Variational
