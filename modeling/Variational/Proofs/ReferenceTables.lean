import Variational.Proofs.DeclaredNames
import Variational.Proofs.Initializers
import Variational.Proofs.ReferenceValues

/-! Tables of reference tensors. A table lists, region by region and row by row, the entries that meet an entry of
the geometry tensor, in the order of the array that they are multiplied with. Where the element tensor is empty, the
table of a cell has no initializer at all. -/
namespace Variational

namespace ReferenceTensor

variable {α : Type} [Scalar α]

/-- There is a region, and on each region an entry for every pair of a primary and a secondary index. -/
structure Stored (t : ReferenceTensor α) : Prop where
  regions : t.values ≠ []
  sizes : ∀ values ∈ t.values, values.size = t.primary.size * t.secondary.size

theorem Stored.value_eq {t : ReferenceTensor α} (h : t.Stored) {r i a : ℕ} (hr : r < t.numRegions)
    (hi : i < t.primary.size) (ha : a < t.secondary.size) :
    ∃ values, t.values[r]? = some values ∧ values[i * t.secondary.size + a]? = some (t.value r i a) := by
  have hvalues : t.values[r]? = some t.values[r] := List.getElem?_eq_getElem hr
  have hplace : i * t.secondary.size + a < t.values[r].size := by
    rw [h.sizes _ (List.getElem_mem hr)]
    calc i * t.secondary.size + a < (i + 1) * t.secondary.size := by rw [Nat.succ_mul]; omega
      _ ≤ t.primary.size * t.secondary.size := Nat.mul_le_mul_right _ hi
  refine ⟨_, hvalues, ?_⟩
  rw [value, hvalues, Option.bind_some, Array.getElem?_eq_getElem hplace, Option.getD_some]

theorem size_onRegion {dim : ℕ} {plans : List (Plan α)} {primary secondary : MultiIndex} {rule : Rule α}
    {values : Array α} (h : onRegion dim plans primary secondary rule = .ok values) :
    values.size = primary.size * secondary.size := by
  simp only [onRegion, Result.bind_eq_ok, Result.pure_eq_ok] at h
  obtain ⟨tables, -, rows, hrows, rfl⟩ := h
  have hlength : rows.map List.length = List.replicate primary.size secondary.size := by
    rw [List.eq_replicate_iff, List.length_map, Result.length_of_mapM hrows, MultiIndex.length_indices]
    refine ⟨rfl, List.forall_mem_map.mpr fun row hrow => ?_⟩
    obtain ⟨i, -, hcolumns⟩ := Result.exists_of_forall₂ (Result.mapM_eq_ok.mp hrows).flip hrow
    rw [Result.length_of_mapM hcolumns, List.length_map, MultiIndex.length_indices]
  rw [List.size_toArray, List.length_flatten, hlength, List.sum_replicate, smul_eq_mul]

end ReferenceTensor

section Terms

variable {α : Type} [Scalar α]

theorem Region.simplexFacet_facets {c facet : ReferenceCell} (h : simplexFacet c = .ok facet) :
    c.facets ≠ [] := by
  cases c <;> cases h <;> decide

/-- A cell with boundary integrals has facets. -/
theorem Region.boundary_ne_nil {cell : Cell} {m : ℕ} {rules : List (Rule α)}
    (h : boundary cell m = .ok rules) : rules ≠ [] := by
  have hnil {f : FacetKind × ℕ → Result (Rule α)} (hrules : cell.boundary.mapM f = .ok rules)
      (hfacets : cell.boundary ≠ []) : rules ≠ [] := by
    rintro rfl
    exact hfacets (List.length_eq_zero_iff.mp (Result.length_of_mapM hrules).symm)
  unfold boundary at h
  split at h
  · rename_i c
    simp only [Result.bind_eq_ok] at h
    obtain ⟨facet, hfacet, rule, -, hrules⟩ := h
    refine hnil hrules ?_
    simpa [Cell.boundary, Cell.numFacets] using simplexFacet_facets hfacet
  · rename_i a b
    split at h
    · cases h
    simp only [Result.bind_eq_ok] at h
    obtain ⟨base, hbase, vertical, -, horizontal, -, hrules⟩ := h
    refine hnil hrules ?_
    simp [Cell.boundary, Cell.numFacets, simplexFacet_facets hbase]
  · cases h

theorem Product.term_stored {cell : Cell} {numPoints : Option ℕ} {p : Product α} {d : Draft α} {t : Term α}
    (h : p.term cell numPoints d = .ok t) : t.reference.Stored := by
  obtain ⟨rules, hrules, hvalues, -⟩ := term_ok h
  constructor
  · intro hnil
    have hlength := Result.length_of_mapM hvalues
    rw [hnil, eq_comm, List.length_nil, List.length_eq_zero_iff] at hlength
    unfold regions at hrules
    split at hrules
    · simp only [Region.interior, Result.bind_eq_ok, Result.pure_eq_ok] at hrules
      obtain ⟨rule, -, hrules⟩ := hrules
      rw [hlength] at hrules
      cases hrules
    · exact Region.boundary_ne_nil hrules hlength
  · intro values hmem
    obtain ⟨rule, -, hregion⟩ := Result.exists_of_forall₂ (Result.mapM_eq_ok.mp hvalues).flip hmem
    exact ReferenceTensor.size_onRegion hregion

/-- The terms of a form come from products with their kind of integral. -/
theorem Sum.term_of_build {s : Sum α} {numPoints : Option ℕ} {name : String} {f : Form α} {c c' : Cache α}
    (h : Resolve.Returns (s.build numPoints name) c f c') {kind : IntegralKind} {t : Term α}
    (ht : t ∈ f.terms kind) :
    t.integral = kind ∧ ∃ p ∈ s.products, ∃ cell d, p.term cell numPoints d = .ok t := by
  simp only [build, Resolve.returns_bind, Resolve.returns_ofResult] at h
  obtain ⟨test, c₁, -, trial, c₂, -, coefficients, c₃, -, cell, c₄, -, terms, c₅, hterms, hform, -⟩ := h
  have hmem : t.integral = kind ∧ t ∈ terms := by
    unfold assemble at hform
    simp only at hform
    split_ifs at hform
    obtain rfl := Except.ok.inj hform
    cases kind <;> simpa [Form.terms, and_comm] using ht
  refine ⟨hmem.1, ?_⟩
  cases cell with
  | none =>
    obtain ⟨rfl, -⟩ := Resolve.returns_pure.mp hterms
    cases hmem.2
  | some cell =>
    obtain ⟨-, hsteps⟩ := Resolve.returns_mapM (fun p _ => Product.build_grows cell numPoints p) hterms
    obtain ⟨p, hp, c₆, c₇, hreturns, -⟩ := Result.exists_of_forall₂ hsteps.flip hmem.2
    obtain ⟨d, -, hterm⟩ := Product.build_returns hreturns
    exact ⟨p, hp, cell, d, hterm⟩

end Terms

/-- All statements of a block, those of its cases included. -/
def Code.Block.statements {α : Type} : Code.Block α → List (Code.Statement α)
  | plain body => body
  | switch _ _ cases => cases.flatten

theorem Code.Block.declared_eq {α : Type} (b : Code.Block α) :
    b.declared = b.statements.flatMap Code.Statement.declared := by
  cases b <;> rfl

namespace TensorCode
open Code Token

section Text

/-- Where the entries of the geometry tensor stand in the secondary index, in the order in which they are
stored. -/
def positions {α : Type} (t : Term α) : List ℕ := t.geometry.map (·.position)

/-- The rows of a table on a region: the entries of the reference tensor at the positions. -/
def regionTokens (places : ℕ) (t : Term Float) (r : ℕ) : List Token :=
  listed ((List.range t.reference.primary.size).map fun i =>
    listed ((positions t).map fun a => [.word (Scientific.literal (t.reference.value r i a) places)]))

/-- The declared extents of a table, and an initializer that has them. -/
def tableTokens (places : ℕ) (t : Term Float) : IntegralKind → List ℕ × List Token
  | .interior => ([t.reference.primary.size, (positions t).length], regionTokens places t 0)
  | .boundary =>
    ([t.reference.numRegions, t.reference.primary.size, (positions t).length],
      listed ((List.range t.reference.numRegions).map (regionTokens places t)))

/-- The table of a term has the initializer that it declares. -/
def Complete (places : ℕ) (kind : IntegralKind) (t : Term Float) (n : ℕ) : Prop :=
  (table t n).tokens places =
    declaration ["static", "const"] s!"A0_{n}" (tableTokens places t kind).1 (tableTokens places t kind).2

theorem word_tableName (n : ℕ) : Word s!"A0_{n}" := by
  have hword : Word "A0_" := ⟨by decide, ((unbroken_nil.cons rfl).cons rfl).cons rfl⟩
  exact hword.append (unbroken_toString n)

theorem word_arrayName (n : ℕ) : Word s!"G_{n}" := by
  have hword : Word "G_" := ⟨by decide, (unbroken_nil.cons rfl).cons rfl⟩
  exact hword.append (unbroken_toString n)

theorem length_positions {α : Type} (t : Term α) : (positions t).length = t.geometry.length := List.length_map _

theorem tokens_row (places : ℕ) (t : Term Float) (r i : ℕ) : (Row.flat (row t r i)).tokens places =
    listed ((positions t).map fun a => [.word (Scientific.literal (t.reference.value r i a) places)]) := by
  rw [Row.tokens, row, positions, List.map_map, List.map_map]
  rfl

theorem tokens_region (places : ℕ) (t : Term Float) (r : ℕ) :
    (Row.stacked ((List.range t.reference.primary.size).map (row t r))).tokens places =
      regionTokens places t r := by
  rw [Row.tokens, List.map_map, regionTokens]
  exact congrArg listed (List.map_congr_left fun i _ => tokens_row places t r i)

variable {places n : ℕ} {t : Term Float}

theorem complete_boundary (hkind : t.integral = .boundary) (hregions : t.reference.values ≠ []) :
    Complete places .boundary t n := by
  have hrows : ((List.range t.reference.numRegions).map fun r =>
      Row.stacked ((List.range t.reference.primary.size).map (row t r))) ≠ [] := by
    simpa [ReferenceTensor.numRegions] using hregions
  rw [Complete, table, hkind]
  dsimp only
  rw [tokens_table places (word_tableName n) _ hrows, tableTokens, length_positions, List.map_map]
  exact congrArg (declaration _ _ _ <| listed ·) (List.map_congr_left fun r _ => tokens_region places t r)

/-- On a cell there has to be a row. -/
theorem complete_interior_iff (hkind : t.integral = .interior) :
    Complete places .interior t n ↔ t.reference.primary.size ≠ 0 := by
  rw [Complete, table, hkind]
  dsimp only
  by_cases hzero : t.reference.primary.size = 0
  · have hrows : ((List.range t.reference.primary.size).map (row t 0)).map Row.flat = [] := by simp [hzero]
    rw [hrows, tokens_table_nil places (word_tableName n)]
    refine iff_of_false (fun h => ?_) (not_not.mpr hzero)
    have hlength := congrArg List.length h
    simp [declaration] at hlength
  · have hrows : ((List.range t.reference.primary.size).map (row t 0)).map Row.flat ≠ [] := by simpa using hzero
    refine iff_of_true ?_ hzero
    rw [tokens_table places (word_tableName n) _ hrows, tableTokens, length_positions, List.map_map,
      List.map_map]
    exact congrArg (declaration _ _ _ <| listed ·) (List.map_congr_left fun i _ => tokens_row places t 0 i)

theorem complete_iff {kind : IntegralKind} (hkind : t.integral = kind) (hregions : t.reference.values ≠ []) :
    Complete places kind t n ↔ (kind = .interior → t.reference.primary.size ≠ 0) := by
  cases kind with
  | interior => simp [complete_interior_iff hkind]
  | boundary => simp [complete_boundary hkind hregions]

/-- The names of the entries of a geometry tensor, in the order in which they are stored. -/
def positionNames (t : Term Float) (n : ℕ) : List String :=
  (positions t).map fun a => entryName n (t.reference.secondary.indices.getD a [])

/-- The array of a geometry tensor names its entries in this order. -/
theorem array_mem_geometry {terms : List (Term Float)} (h : (t, n) ∈ written terms) :
    .array s!"G_{n}" ((positionNames t n).map fun s => .expr (.name s)) ∈ geometry terms := by
  have harray : (.array s!"G_{n}" ((positionNames t n).map fun s => .expr (.name s)) : Statement Float) =
      .array s!"G_{n}" ((namedEntries t n).map fun (name, _) => .expr (.name name)) := by
    rw [positionNames, positions, namedEntries, List.map_map, List.map_map, List.map_map]
    rfl
  rw [harray, geometry]
  refine List.mem_append_left _ (List.mem_cons_of_mem _ (List.mem_flatMap.mpr ⟨(t, n), h, ?_⟩))
  exact List.mem_append_right _ (List.mem_singleton_self _)

theorem tokens_positionNames (places : ℕ) (t : Term Float) (n : ℕ) :
    (Statement.array s!"G_{n}" ((positionNames t n).map fun s => .expr (.name s))).tokens places =
      declaration ["const"] s!"G_{n}" [(positions t).length] (listed ((positionNames t n).map ([.word ·]))) := by
  have hlength : (positionNames t n).length = (positions t).length := List.length_map _
  rw [← hlength]
  refine tokens_array places (word_arrayName n) fun s hs => ?_
  obtain ⟨a, -, rfl⟩ := List.mem_map.mp hs
  exact word_entryName n _

end Text
section Places

variable {α : Type} [Scalar α] {f : Form α} {kind : IntegralKind}

/-- Nothing but the tables has a name that begins as theirs do. -/
theorem table_of_declared {cell : Cell} {front : List (Block α)} (hfront : FormClass.scaling cell kind = .ok front)
    {st : Statement α} (hst : st ∈ (front ++ [Block.plain (body f kind)]).flatMap Block.statements) {n : ℕ}
    (hn : s!"A0_{n}" ∈ st.declared) : ∃ t, (t, n) ∈ written (f.terms kind) ∧ st = table t n := by
  have hname : Begin ['A'] [s!"A0_{n}"] :=
    List.forall_mem_singleton.mpr ⟨'A', List.mem_singleton_self _, head?_append_string rfl _⟩
  have hother {ks : List Char} {names : List String} (hnames : Begin ks names) (hks : 'A' ∉ ks) :
      s!"A0_{n}" ∉ names := by
    intro hmem
    exact hnames.disjoint hname (fun k hk hA => hks (List.mem_singleton.mp hA ▸ hk)) hmem
      (List.mem_singleton_self _)
  have hdeclared {sts : List (Statement α)} (hmem : st ∈ sts) :
      s!"A0_{n}" ∈ sts.flatMap Statement.declared := List.mem_flatMap.mpr ⟨st, hmem, hn⟩
  rw [List.flatMap_append, List.flatMap_singleton, List.mem_append] at hst
  rcases hst with hst | hst
  · obtain ⟨-, -, inner, hnames, hinner⟩ := FormClass.scaling_ok hfront
    have hmem := hdeclared hst
    rw [List.flatMap_assoc, ← List.flatMap_congr fun b _ => b.declared_eq, hnames] at hmem
    exact absurd hmem (hother ((Geometry.begin_cellNames _).append hinner) (by simp))
  · simp only [Block.statements, body, List.mem_append] at hst
    rcases hst with ((hst | hst) | hst) | hst
    · have hmem := hdeclared hst
      rw [declared_constants] at hmem
      exact absurd hmem (hother (begin_constantNames f) (by simp))
    · rcases List.mem_cons.mp hst with rfl | hst
      · cases hn
      obtain ⟨⟨t, m⟩, ht, hst⟩ := List.mem_flatMap.mp hst
      simp only [List.mem_cons, List.not_mem_nil, or_false] at hst
      rcases hst with rfl | rfl
      · rw [declared_table, List.mem_singleton] at hn
        have hnumber : "A0_" ++ toString n = "A0_" ++ toString m := hn
        obtain rfl := Nat.repr_inj.mp (String.append_right_inj _ |>.mp hnumber)
        exact ⟨t, ht, rfl⟩
      · cases hn
    · have hmem := hdeclared hst
      rw [declared_geometry] at hmem
      exact absurd hmem (hother (begin_geometryNames _) (by simp))
    · have hmem := hdeclared hst
      rw [declared_contraction] at hmem
      cases hmem

theorem table_mem_tables {terms : List (Term α)} {t : Term α} {n : ℕ} (h : (t, n) ∈ written terms) :
    table t n ∈ tables terms :=
  List.mem_cons_of_mem _ (List.mem_flatMap.mpr ⟨(t, n), h, List.mem_cons_self⟩)

end Places

/-- The table of a term among some statements, with the array that it is multiplied with. All its entries are
stored in the reference tensor, the array names the same positions in the same order, and the initializer is
complete but on a cell where the table has no rows. -/
structure Aligned (places : ℕ) (kind : IntegralKind) (statements : List (Statement Float)) (t : Term Float)
    (n : ℕ) : Prop where
  table : table t n ∈ statements
  complete : Complete places kind t n ↔ (kind = .interior → t.reference.primary.size ≠ 0)
  regions : 0 < t.reference.numRegions
  stored : ∀ r < t.reference.numRegions, ∀ i < t.reference.primary.size, ∀ a ∈ positions t,
    ∃ values, t.reference.values[r]? = some values ∧
      values[i * t.reference.secondary.size + a]? = some (t.reference.value r i a)
  array : ∃ st ∈ statements, st.tokens places =
    declaration ["const"] s!"G_{n}" [(positions t).length] (listed ((positionNames t n).map ([.word ·])))
  indices : ∀ a ∈ positions t, ∃ index, t.reference.secondary.indices[a]? = some index

theorem aligned_of_written {f : Form Float} {kind : IntegralKind} {t : Term Float} {n : ℕ}
    (h : (t, n) ∈ written (f.terms kind)) (hkind : t.integral = kind) (hstored : t.reference.Stored)
    {dim : ℕ} (hsupplied : t.Supplied dim f.numCoefficients f.numConstants) (places : ℕ) :
    Aligned places kind (body f kind) t n := by
  have hindices : ∀ a ∈ positions t, ∃ index, t.reference.secondary.indices[a]? = some index := by
    refine List.forall_mem_map.mpr fun g hg => ?_
    obtain ⟨index, hindex, -⟩ := hsupplied.symbols g hg
    exact ⟨index, hindex⟩
  have hbody : table t n ∈ body f kind := by
    simp only [body, List.mem_append]
    exact .inl (.inl (.inr (table_mem_tables h)))
  have harray : .array s!"G_{n}" ((positionNames t n).map fun s => .expr (.name s)) ∈ body f kind := by
    simp only [body, List.mem_append]
    exact .inl (.inr (array_mem_geometry h))
  refine ⟨hbody, complete_iff hkind hstored.regions, List.length_pos_of_ne_nil hstored.regions, ?_,
    ⟨_, harray, tokens_positionNames places t n⟩, hindices⟩
  intro r hr i hi a ha
  obtain ⟨index, hindex⟩ := hindices a ha
  have hsize : a < t.reference.secondary.size := by
    rw [← MultiIndex.length_indices]
    exact (List.getElem?_eq_some_iff.mp hindex).1
  exact hstored.value_eq hr hi hsize

end TensorCode

namespace FormClass
open Code

/-- In the function that computes an element tensor, the tables of reference tensors are those of the terms that
contribute, and each stands with the array that it is multiplied with. -/
def AlignsTables (places : ℕ) (f : Form Float) (kind : IntegralKind) (items : List (Item Float)) : Prop :=
  ∃ (cls : Class Float) (front : List (Block Float)), .define cls ∈ items ∧ cls.name = integralName f kind ∧
    cls.members = [tabulateTensor kind (.run (front ++ [.plain (TensorCode.body f kind)]))] ∧
    (∀ st ∈ (front ++ [Block.plain (TensorCode.body f kind)]).flatMap Block.statements, ∀ n,
      s!"A0_{n}" ∈ st.declared → ∃ t, (t, n) ∈ TensorCode.written (f.terms kind) ∧ st = TensorCode.table t n) ∧
    ∀ t n, (t, n) ∈ TensorCode.written (f.terms kind) →
      TensorCode.Aligned places kind (TensorCode.body f kind) t n

/-- The tables in the code of a form are aligned with the geometry tensors, and a table has the initializer that
it declares exactly when it is one of the boundary or has rows. -/
theorem tables_aligned {s : Sum Float} {numPoints : Option ℕ} {name : String} {f : Form Float}
    {c c' : Cache Float} (hc : c.Faithful) (hbuild : Resolve.Returns (s.build numPoints name) c f c')
    {items : List (Item Float)} (hitems : FormClass.items f = .ok items) {kind : IntegralKind}
    (hterms : f.terms kind ≠ []) (places : ℕ) : AlignsTables places f kind items := by
  have hsupplied := (Sum.gives_supplied numPoints name s c f c' hc hbuild).1
  obtain ⟨cell, front, cls, hcell, hfront, hcls, hname, -, hmembers⟩ := integral_of_items hitems hterms
  refine ⟨cls, front, hcls, hname, hmembers, fun st hst n => TensorCode.table_of_declared hfront hst, ?_⟩
  intro t n hwritten
  have ht := TensorCode.mem_terms_of_written hwritten
  obtain ⟨hkind, p, -, _, d, hterm⟩ := Sum.term_of_build hbuild ht
  exact TensorCode.aligned_of_written hwritten hkind (Product.term_stored hterm) (hsupplied cell hcell kind t ht)
    places

section Cases

variable {β : Type}

/-- What is seen of the terms over the cell and over the boundary, with the numbers of their geometry entries, if
the sum has a form and the form has classes. -/
def termViews? (s : Sum Float) (view : Term Float → β) : Option (List (ℕ × β) × List (ℕ × β)) := do
  let f ← (Resolve.outcome (s.build none "L") .empty).1.toOption
  let _ ← (FormClass.items f).toOption
  let views (kind : IntegralKind) := (f.terms kind).map fun t => (t.geometry.length, view t)
  return (views .interior, views .boundary)

theorem exists_written {terms : List (Term Float)} {view : Term Float → β} {b : β}
    (h : terms.map (fun t => (t.geometry.length, view t)) = [(1, b)]) :
    ∃ t, (t, 0) ∈ TensorCode.written terms ∧ view t = b := by
  obtain ⟨t, rfl, hview⟩ := List.map_eq_singleton_iff.mp h
  obtain ⟨hlength, hview⟩ := Prod.mk.inj hview
  have hne : t.geometry ≠ [] := List.ne_nil_of_length_eq_add_one hlength
  exact ⟨t, by simp [TensorCode.written, hne], hview⟩

theorem exists_of_termViews? {s : Sum Float} {view : Term Float → β} {a b : β}
    (h : termViews? s view = some ([(1, a)], [(1, b)])) :
    ∃ (f : Form Float) (c' : Cache Float) (items : List (Item Float)) (t u : Term Float),
      Resolve.Returns (s.build none "L") .empty f c' ∧ FormClass.items f = .ok items ∧
      (t, 0) ∈ TensorCode.written (f.terms .interior) ∧ (u, 0) ∈ TensorCode.written (f.terms .boundary) ∧
      view t = a ∧ view u = b := by
  simp only [termViews?, Option.bind_eq_bind, Option.bind_eq_some_iff, Result.toOption_eq_some, Option.pure_def,
    Option.some.injEq, Prod.mk.injEq] at h
  obtain ⟨f, hf, items, hitems, hinterior, hboundary⟩ := h
  obtain ⟨t, ht, hviewt⟩ := exists_written hinterior
  obtain ⟨u, hu, hviewu⟩ := exists_written hboundary
  exact ⟨f, _, items, t, u, Prod.ext hf rfl, hitems, ht, hu, hviewt, hviewu⟩

/-- The integrals of a test function over the cell and over its boundary. -/
def integrals (e : Descriptor) : Sum Float :=
  let test := BasisFunction.ofArgument e .test
  ⟨[.ofBasis [test], (Product.ofBasis [test]).integrated .boundary]⟩

def linear : Descriptor := .simple "Lagrange" (.simple .interval) (some 1)

theorem tables_aligned_linear : ∃ (f : Form Float) (c' : Cache Float) (items : List (Item Float)),
    Resolve.Returns ((integrals linear).build none "L") .empty f c' ∧ FormClass.items f = .ok items ∧
      ∀ kind, f.terms kind ≠ [] ∧ AlignsTables 3 f kind items ∧
        ∃ t, (t, 0) ∈ TensorCode.written (f.terms kind) ∧ TensorCode.Complete 3 kind t 0 := by
  have hviews : termViews? (integrals linear) (·.reference.primary.size) = some ([(1, 2)], [(1, 2)]) := by
    decide +kernel
  obtain ⟨f, c', items, t, u, hbuild, hitems, ht, hu, hviewt, hviewu⟩ := exists_of_termViews? hviews
  refine ⟨f, c', items, hbuild, hitems, fun kind => ?_⟩
  obtain ⟨x, hx, hsize⟩ : ∃ x, (x, 0) ∈ TensorCode.written (f.terms kind) ∧ x.reference.primary.size = 2 := by
    cases kind with
    | interior => exact ⟨t, ht, hviewt⟩
    | boundary => exact ⟨u, hu, hviewu⟩
  have hterms : f.terms kind ≠ [] := List.ne_nil_of_mem (TensorCode.mem_terms_of_written hx)
  have haligned := tables_aligned Cache.faithful_empty hbuild hitems hterms 3
  have ⟨_, _, _, _, _, _, hall⟩ := haligned
  exact ⟨hterms, haligned, x, hx, (hall x 0 hx).complete.mpr fun _ => by simp [hsize]⟩

/-- A linear element on the interval has no dofs inside. The table over the cell is declared and not initialized;
the one over the boundary is. -/
theorem tables_incomplete : ∃ (f : Form Float) (c' : Cache Float) (items : List (Item Float)) (t u : Term Float),
    Resolve.Returns ((integrals (.restricted linear .interior)).build none "L") .empty f c' ∧
      FormClass.items f = .ok items ∧ (t, 0) ∈ TensorCode.written (f.terms .interior) ∧
      (u, 0) ∈ TensorCode.written (f.terms .boundary) ∧
      (TensorCode.table t 0).lines 3 = ["static const double A0_0[0][1] = \\"] ∧
      (TensorCode.table u 0).lines 3 =
        ["static const double A0_0[2][0][1] = \\", "\x7b\x7b\x7d,", " \x7b\x7d\x7d;"] ∧
      ¬ TensorCode.Complete 3 .interior t 0 ∧ TensorCode.Complete 3 .boundary u 0 := by
  have hviews : termViews? (integrals (.restricted linear .interior))
      (fun t => (t.reference.primary.size, (TensorCode.table t 0).lines 3)) =
        some ([(1, 0, ["static const double A0_0[0][1] = \\"])],
          [(1, 0, ["static const double A0_0[2][0][1] = \\", "\x7b\x7b\x7d,", " \x7b\x7d\x7d;"])]) := by
    decide +kernel
  obtain ⟨f, c', items, t, u, hbuild, hitems, ht, hu, hviewt, hviewu⟩ := exists_of_termViews? hviews
  obtain ⟨hsize, hlines⟩ := Prod.mk.inj hviewt
  obtain ⟨hkind, -⟩ := Sum.term_of_build hbuild (TensorCode.mem_terms_of_written ht)
  obtain ⟨hkind', p, -, _, d, hterm⟩ := Sum.term_of_build hbuild (TensorCode.mem_terms_of_written hu)
  refine ⟨f, c', items, t, u, hbuild, hitems, ht, hu, hlines, (Prod.mk.inj hviewu).2, ?_, ?_⟩
  · rw [TensorCode.complete_interior_iff hkind]
    exact not_not.mpr hsize
  · exact TensorCode.complete_boundary hkind' (Product.term_stored hterm).regions

end Cases
end FormClass
end Variational
