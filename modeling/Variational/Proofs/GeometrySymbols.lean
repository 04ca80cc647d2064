import Variational.Proofs.CheckedBuild
import Variational.Proofs.FormElements

/-! The symbols of geometry tensors. Values that change on the way to a physical cell have a component for
each of its directions, so all entries of the Jacobian and of its inverse exist. A dof of a coefficient is the
value of the secondary index on an axis of that coefficient, and the sum counts all coefficients and
constants. -/
namespace Variational

section Blocks

variable {α : Type} [Scalar α]

/-- Values that are not taken over as they are have a component for each direction of the cell. -/
def Layout.Square (l : Layout) : Prop := l.map ≠ .identity → l.valueSize = l.cell.dim

theorem PolynomialElement.create_square {family : String} {cell : ReferenceCell} {degree : ℕ}
    {valueShape : List ℕ} {span : List (List (List α))} {functionals : List (Functional α)}
    {entityDofs : EntityDofs} {map : ValueMap} {embeddedDegree : ℕ} {e : PolynomialElement α}
    (h : create family cell degree valueShape span functionals entityDofs map embeddedDegree = .ok e)
    (hmap : map = .identity ∨ valueShape = [cell.dim]) : (Layout.ofPolynomial e).Square := by
  obtain ⟨coefficients, -, rfl⟩ := exists_dualBasis h
  intro hne
  obtain rfl := hmap.resolve_left hne
  exact Nat.mul_one cell.dim

theorem PolynomialElement.ofPoints_square {family : String} {cell : ReferenceCell} {degree : ℕ}
    {points : List (List α)} {entityDofs : EntityDofs} {e : PolynomialElement α}
    (h : ofPoints family cell degree points entityDofs = .ok e) : (Layout.ofPolynomial e).Square :=
  create_square h (.inl rfl)

theorem PolynomialElement.ofFamily_square {family : String} {cell : ReferenceCell} {degree : ℕ}
    {e : PolynomialElement α} (h : ofFamily family cell degree = .ok e) :
    (Layout.ofPolynomial e).Square := by
  cases ofFamily_ok h with
  | values h => exact ofPoints_square h
  | components _ _ h => exact create_square h (.inr rfl)
  | interior hx h =>
    obtain ⟨coefficients, -, rfl⟩ := subset_ok h
    have hsquare := ofPoints_square hx
    exact hsquare

namespace Element

theorem OfFamily.square {family : String} {cell : Cell} {degree : ℕ} {e : Element α}
    (h : OfFamily family cell degree e) : e.layout.Square := by
  cases h with
  | reals _ _ hx => exact PolynomialElement.ofFamily_square hx
  | time _ hx => exact PolynomialElement.ofPoints_square (TimeFamily.create_ok hx).2
  | quadrature => exact fun hne => absurd rfl hne
  | polynomial _ hx => exact PolynomialElement.ofFamily_square hx

/-- A block with a map of its own has a component for each direction of the cell. -/
def SquareBlocks (e : Element α) : Prop :=
  ∀ offset, ∀ b ∈ blocksFrom offset e, b.map ≠ .identity → b.size = e.cell.dim

theorem squareBlocks_other {e : Element α} (h : ∀ es, e ≠ mixed es) (hsquare : e.layout.Square) :
    e.SquareBlocks := by
  intro offset
  rw [blocksFrom_other h, List.forall_mem_singleton]
  exact hsquare

theorem closed_square : Closed fun e : Element α => e.layout.Square ∧ e.SquareBlocks where
  family h := by
    have hfamily := (ofFamily_ok h).2
    refine ⟨hfamily.square, squareBlocks_other ?_ hfamily.square⟩
    cases hfamily <;> simp
  restrict h _ := ⟨h.1, squareBlocks_other (by simp) h.1⟩
  enrich ha _ h := by
    obtain rfl := enrich_ok h
    exact ⟨ha.1, squareBlocks_other (by simp) ha.1⟩
  tensor {a b _} _ _ h := by
    obtain rfl := tensor_ok h
    have hsquare : (Layout.product a.layout b.layout).Square := fun hne => absurd rfl hne
    exact ⟨hsquare, squareBlocks_other (by simp) hsquare⟩
  wrap {space _ _} _ h := by
    obtain ⟨a, b, c, -, -, rfl⟩ := wrap_ok h
    have hsquare : ((Layout.product a.layout b.layout).wrapped space).Square := fun _ => Nat.mul_one _
    exact ⟨hsquare, squareBlocks_other (by simp) hsquare⟩
  mix hparts h := by
    have hcell {a : Element α} := cell_of_mem_parts h (a := a)
    obtain rfl := mix_ok h
    refine ⟨fun hne => absurd rfl hne, forall_mem_blocksOfParts fun a ha offset b hb hne => ?_⟩
    rw [← hcell ha]
    exact (hparts a ha).2 offset b hb hne

end Element

end Blocks

/-- A symbol stands for something on a cell of dimension `dim`: an entry of a matrix of that size, one of the
constants, or, for the value `a` of a secondary index, the dof of a coefficient on one of its axes. -/
def Symbol.Available (dim numCoefficients numConstants : ℕ) (axes : List SecondaryAxis)
    (extents a : List ℕ) : Symbol → Prop
  | jacobian i j => i < dim ∧ j < dim
  | inverseJacobian i j => i < dim ∧ j < dim
  | constant n => n < numConstants
  | coefficient n j => n < numCoefficients ∧ ∃ axis extent : ℕ,
      axes[axis]? = some (SecondaryAxis.coefficient n) ∧ extents[axis]? = some extent ∧
        a[axis]? = some j ∧ j < extent

namespace Monomial

variable {α : Type} [Scalar α] {P : Symbol → Prop}

/-- All symbols of a monomial have a property. -/
def All (P : Symbol → Prop) (m : Monomial α) : Prop := ∀ s ∈ m.symbols, P s

theorem All.mul {m n : Monomial α} (hm : m.All P) (hn : n.All P) : (m * n).All P :=
  List.forall_mem_append.mpr ⟨hm, hn⟩

theorem All.foldl {ms : List (Monomial α)} {m : Monomial α} (hm : m.All P) (hms : ∀ n ∈ ms, n.All P) :
    (ms.foldl (· * ·) m).All P :=
  List.foldlRecOn ms _ hm fun _ hacc n hn => hacc.mul (hms n hn)

theorem all_collect {ms : List (Monomial α)} {m : Monomial α} (hms : ∀ n ∈ ms, n.All P) (hm : m.All P) :
    ∀ n ∈ collect ms m, n.All P := by
  induction ms with
  | nil => exact List.forall_mem_singleton.mpr hm
  | cons n ns ih =>
    rw [List.forall_mem_cons] at hms
    unfold collect
    split
    · exact List.forall_mem_cons.mpr ⟨hm, List.forall_mem_cons.mpr hms⟩
    · exact List.forall_mem_cons.mpr ⟨hms.1, hms.2⟩
    · exact List.forall_mem_cons.mpr ⟨hms.1, ih hms.2⟩

/-- Simplifying brings in no symbols. -/
theorem all_simplify {ms : List (Monomial α)} (h : ∀ m ∈ ms, m.All P) : ∀ m ∈ simplify ms, m.All P := by
  have hcollected : ∀ m ∈ (ms.map fun m => { m with symbols := sortSymbols m.symbols }).foldl collect [],
      m.All P := by
    refine List.foldlRecOn _ collect (motive := fun acc : List (Monomial α) => ∀ m ∈ acc, m.All P)
      (List.forall_mem_nil _) ?_
    intro acc hacc m hm
    refine all_collect hacc ?_
    obtain ⟨n, hn, rfl⟩ := List.mem_map.mp hm
    exact fun s hs => h n hn s ((sortSymbols_perm n.symbols).mem_iff.mp hs)
  exact fun m hm => hcollected m (List.mem_of_mem_filter hm)

end Monomial

section Factors

variable {α : Type} [Scalar α] {dim numCoefficients numConstants : ℕ}

/-- The maps of blocks use entries of the Jacobian and its inverse in the range of the block. -/
theorem ValueBlock.all_factor? {blocks : List ValueBlock}
    (hblocks : ∀ b ∈ blocks, b.map ≠ .identity → b.size = dim) {c s : ℕ} {m : Monomial α}
    (h : factor? blocks c s = some m) (axes : List SecondaryAxis) (extents a : List ℕ) :
    m.All (Symbol.Available dim numCoefficients numConstants axes extents a) := by
  unfold factor? at h
  cases hfind : blocks.find? fun b => b.offset ≤ c && c < b.offset + b.size with
  | none => simp [hfind] at h
  | some b =>
    have hcovers : b.offset ≤ c ∧ c < b.offset + b.size := by simpa using List.find?_some hfind
    have hsize := hblocks b (List.mem_of_find?_eq_some hfind)
    simp only [hfind, Option.bind_eq_bind, Option.bind_some] at h
    split at h
    · cases h
    rename_i hinside
    rw [not_or, not_lt, not_le] at hinside
    cases hmap : b.map with
    | identity =>
      simp only [hmap] at h
      split_ifs at h
      obtain rfl := Option.some.inj h
      exact fun s hs => by cases hs
    | contravariantPiola =>
      have hdim := hsize (by simp [hmap])
      simp only [hmap] at h
      obtain rfl := Option.some.inj h
      refine List.forall_mem_singleton.mpr ⟨?_, ?_⟩ <;> omega
    | covariantPiola =>
      have hdim := hsize (by simp [hmap])
      simp only [hmap] at h
      obtain rfl := Option.some.inj h
      refine List.forall_mem_singleton.mpr ⟨?_, ?_⟩ <;> omega

/-- What the symbols of a plan refer to is there. -/
structure Plan.Supplied (p : Plan α) (dim numCoefficients : ℕ) (d : Draft α) : Prop where
  blocks : ∀ b ∈ p.blocks, b.map ≠ .identity → b.size = dim
  axes : p.ReadsAxes dim d.extents
  coefficient : ∀ n axis, p.argument = .function n → p.dof = .secondary axis →
    n < numCoefficients ∧ d.axes[axis]? = some (.coefficient n)
  directions : ∀ assignment ∈ GeometryEntry.assignments d.ranges, ∀ x ∈ p.derivatives,
    GeometryEntry.indexValue assignment x.1 < dim

namespace GeometryEntry

variable {d : Draft α} {assignment : List (ℕ × ℕ)} {a : List ℕ}

theorem all_planFactor? {p : Plan α} (hp : p.Supplied dim numCoefficients d)
    (hassignment : assignment ∈ assignments d.ranges) (ha : a ∈ MultiIndex.tuples d.extents)
    {m : Monomial α} (h : planFactor? assignment a p = some m) :
    m.All (Symbol.Available dim numCoefficients numConstants d.axes d.extents a) := by
  unfold planFactor? at h
  simp only [Option.bind_eq_bind, Option.bind_eq_some_iff, Option.pure_def, Option.some.injEq] at h
  obtain ⟨value, hvalue, rfl⟩ := h
  refine .mul (.mul ?_ (ValueBlock.all_factor? hp.blocks hvalue _ _ _)) ?_
  · unfold Monomial.All
    dsimp only
    split
    · rename_i n axis hargument hdof
      obtain ⟨hn, haxis⟩ := hp.coefficient n axis hargument hdof
      have hextent := hp.axes.dof axis hdof
      obtain ⟨k, hk, hread⟩ := MultiIndex.getElem?_of_mem_tuples ha hextent
      refine List.forall_mem_singleton.mpr ⟨hn, axis, _, haxis, hextent, ?_, ?_⟩
      all_goals simp [hread, hk]
    · simp
  · refine List.forall_mem_map.mpr fun x hx => ⟨?_, hp.directions assignment hassignment x hx⟩
    obtain ⟨k, hk, hread⟩ := MultiIndex.getElem?_of_mem_tuples ha (hp.axes.derivatives x hx)
    simpa [hread] using hk

/-- Where all factors are there, each comes from one of the plans. -/
theorem exists_of_mem_mapM {β γ : Type} {f : β → Option γ} {xs : List β} {ys : List γ}
    (h : xs.mapM f = some ys) {y : γ} (hy : y ∈ ys) : ∃ x ∈ xs, f x = some y := by
  induction xs generalizing ys with
  | nil =>
    obtain rfl : [] = ys := by simpa using h
    cases hy
  | cons x xs ih =>
    simp only [List.mapM_cons, Option.bind_eq_bind, Option.bind_eq_some_iff, Option.pure_def,
      Option.some.injEq] at h
    obtain ⟨first, hfirst, rest, hrest, rfl⟩ := h
    rcases List.mem_cons.mp hy with rfl | hy
    · exact ⟨x, List.mem_cons_self, hfirst⟩
    · obtain ⟨x', hx', hfx'⟩ := ih hrest hy
      exact ⟨x', List.mem_cons_of_mem x hx', hfx'⟩

theorem all_monomial? {p : Product α} (hconstants : ∀ c ∈ p.constants, c.number < numConstants)
    (hplans : ∀ P ∈ d.plans, P.Supplied dim numCoefficients d)
    (hassignment : assignment ∈ assignments d.ranges) (ha : a ∈ MultiIndex.tuples d.extents)
    {m : Monomial α} (h : monomial? p d.plans assignment a = some m) :
    m.All (Symbol.Available dim numCoefficients numConstants d.axes d.extents a) := by
  unfold monomial? at h
  simp only [Option.bind_eq_bind, Option.bind_eq_some_iff, Option.pure_def, Option.some.injEq] at h
  obtain ⟨factors, hfactors, rfl⟩ := h
  refine .foldl (List.forall_mem_map.mpr hconstants) fun factor hfactor => ?_
  obtain ⟨P, hP, hfactor⟩ := exists_of_mem_mapM hfactors hfactor
  exact all_planFactor? (hplans P hP) hassignment ha hfactor

/-- An entry stands at a value of the secondary index, with the monomials of all assignments. -/
theorem mem_ofProduct {p : Product α} {secondary : MultiIndex} {g : GeometryEntry α}
    (h : g ∈ ofProduct p d secondary) : ∃ a, secondary.indices[g.position]? = some a ∧
      g.monomials = Monomial.simplify
        ((assignments d.ranges).filterMap fun values => monomial? p d.plans values a) := by
  obtain ⟨⟨a, position⟩, hmem, hg⟩ := List.mem_filterMap.mp h
  rw [List.mem_zipIdx_iff_getElem?] at hmem
  dsimp only at hg
  split at hg
  · cases hg
  · obtain rfl := Option.some.inj hg
    exact ⟨a, hmem, rfl⟩

theorem zipIdx_increasing {β : Type} (xs : List β) : xs.zipIdx.Pairwise fun x y => x.2 < y.2 := by
  rw [List.pairwise_iff_getElem]
  intro i j hi hj hij
  simpa using hij

theorem ofProduct_positions (p : Product α) (d : Draft α) (secondary : MultiIndex) :
    (ofProduct p d secondary).Pairwise fun g g' => g.position < g'.position := by
  refine List.Pairwise.filterMap _ ?_ (zipIdx_increasing secondary.indices)
  rintro ⟨a, i⟩ ⟨b, j⟩ hij g hg g' hg'
  dsimp only at hg hg'
  split at hg
  · cases hg
  split at hg'
  · cases hg'
  obtain rfl := Option.some.inj hg
  obtain rfl := Option.some.inj hg'
  exact hij

end GeometryEntry
end Factors

section Plans

variable {α : Type} [Scalar α]

/-- An assignment gives every label a value in its range. -/
theorem GeometryEntry.lookup_assignment {ranges : Ranges} {assignment : List (ℕ × ℕ)}
    (h : assignment ∈ assignments ranges) {l n : ℕ} (hl : ranges.lookup l = some n) :
    ∃ value < n, assignment.lookup l = some value := by
  induction ranges generalizing assignment with
  | nil => cases hl
  | cons r ranges ih =>
    obtain ⟨k, m⟩ := r
    simp only [assignments, List.map_cons, MultiIndex.tuples, List.mem_map, List.mem_flatMap,
      List.mem_range] at h
    obtain ⟨_, ⟨value, hvalue, rest, hrest, rfl⟩, rfl⟩ := h
    rw [List.zip_cons_cons, Ranges.lookup_pair]
    rw [Ranges.lookup_pair] at hl
    split_ifs at hl ⊢ with hk
    · obtain rfl := Option.some.inj hl
      exact ⟨value, hvalue, rfl⟩
    · exact ih (List.mem_map.mpr ⟨rest, hrest, rfl⟩) hl

theorem Ranges.Record.indexValue_lt {rs : Ranges} {xs : List (Index × ℕ)} (h : rs.Record xs)
    {assignment : List (ℕ × ℕ)} (hassignment : assignment ∈ GeometryEntry.assignments rs) {i : Index}
    {n : ℕ} (hi : (i, n) ∈ xs) : GeometryEntry.indexValue assignment i < n := by
  cases i with
  | fixed m => exact h.fixed m n hi
  | free l =>
    obtain ⟨value, hvalue, hlookup⟩ := GeometryEntry.lookup_assignment hassignment (h.free l n hi)
    simpa [GeometryEntry.indexValue, hlookup] using hvalue

namespace Plan

/-- The axis that gives the dof of a coefficient function is an axis of that coefficient. -/
theorem ofAll_coefficientAxis (trialPosition dim basis : ℕ) (front : List SecondaryAxis)
    (bes : List (BasisFunction × Element α)) :
    ∀ p ∈ ofAll trialPosition dim basis front.length bes, ∀ n axis, p.argument = .function n →
      p.dof = .secondary axis →
        (front ++ (segments dim basis bes).map (·.1))[axis]? = some (.coefficient n) := by
  induction bes generalizing basis front with
  | nil => simp [ofAll]
  | cons x bes ih =>
    obtain ⟨b, e⟩ := x
    have hrest := ih (basis + 1) (front ++ (b.segment dim basis e).map (·.1))
    rw [List.length_append, List.length_map, List.append_assoc] at hrest
    rw [ofAll, segments, List.map_append]
    refine List.forall_mem_cons.mpr ⟨fun n axis hargument hdof => ?_, hrest⟩
    have hb : b.argument = .function n := hargument
    simp only [ofBasis, hb, DofSource.secondary.injEq] at hdof
    subst hdof
    simp [BasisFunction.segment, hb]

end Plan

namespace Product

theorem Planned.supplied {cell : Cell} {p : Product α} {es : List (Element α)} {d : Draft α}
    (h : p.Planned cell es d) {numCoefficients : ℕ}
    (hfunctions : ∀ b ∈ p.basis, ∀ n, b.argument = .function n → n < numCoefficients) :
    ∀ P ∈ d.plans, P.Supplied cell.dim numCoefficients d := by
  have hplans := Draft.addAll_ok h.drafted
  have hofAll : d.plans = Plan.ofAll p.trialPosition cell.dim 0 0 (p.basis.zip es) := hplans.plans
  have hextents : d.extents = [] ++ (segments cell.dim 0 (p.basis.zip es)).map (·.2) := hplans.extents
  have haxes : d.axes = [] ++ (segments cell.dim 0 (p.basis.zip es)).map (·.1) := hplans.axes
  have hrecord := Ranges.record_nil.checkAll hplans.ranges
  intro P hP
  rw [hofAll] at hP
  have hreads := Plan.ofAll_readsAxes p.trialPosition cell.dim 0 [] (p.basis.zip es) P hP
  have haxis := Plan.ofAll_coefficientAxis p.trialPosition cell.dim 0 [] (p.basis.zip es) P hP
  obtain ⟨⟨b, e⟩, hbe, m, rfl⟩ := Plan.mem_ofAll hP
  have hcell : e.cell = cell := Draft.addAll_onCell h.drafted _ hbe
  refine ⟨?_, hextents ▸ hreads, fun n axis hargument hdof => ⟨?_, ?_⟩, fun assignment hassignment x hx => ?_⟩
  · have hsquare := (Element.closed_square.direct (h.direct_of_mem hbe)).2 0
    rw [hcell] at hsquare
    exact hsquare
  · exact hfunctions b (List.of_mem_zip hbe).1 n hargument
  · rw [haxes]
    exact haxis n axis hargument hdof
  · have hmem : x.1 ∈ b.derivatives := List.fst_mem_of_mem_zipIdx hx
    refine hrecord.indexValue_lt hassignment (List.mem_append_right _ (List.mem_flatMap.mpr ⟨_, hbe, ?_⟩))
    exact List.mem_append_right _ (List.mem_map_of_mem hmem)

end Product

/-- The entries of a geometry tensor stand at different values of the secondary index, and what their symbols
refer to is there. -/
structure Term.Supplied (t : Term α) (dim numCoefficients numConstants : ℕ) : Prop where
  positions : t.geometry.Pairwise fun g g' => g.position < g'.position
  symbols : ∀ g ∈ t.geometry, ∃ a, t.reference.secondary.indices[g.position]? = some a ∧
    ∀ m ∈ g.monomials, m.All (Symbol.Available dim numCoefficients numConstants t.reference.axes
      t.reference.secondary.dims a)

theorem Product.term_supplied {cell : Cell} {numPoints : Option ℕ} {p : Product α} {d : Draft α}
    {t : Term α} (h : p.term cell numPoints d = .ok t) {numCoefficients numConstants : ℕ}
    (hconstants : ∀ c ∈ p.constants, c.number < numConstants)
    (hplans : ∀ P ∈ d.plans, P.Supplied cell.dim numCoefficients d) :
    t.Supplied cell.dim numCoefficients numConstants := by
  obtain ⟨-, -, -, -, hsecondary, haxes, -, hgeometry⟩ := term_ok h
  refine ⟨hgeometry ▸ GeometryEntry.ofProduct_positions p d _, fun g hg => ?_⟩
  rw [hgeometry] at hg
  obtain ⟨a, ha, hmonomials⟩ := GeometryEntry.mem_ofProduct hg
  have htuple : a ∈ MultiIndex.tuples d.extents := hsecondary ▸ List.mem_of_getElem? ha
  refine ⟨a, ha, ?_⟩
  rw [hmonomials, haxes, hsecondary]
  refine Monomial.all_simplify fun m hm => ?_
  obtain ⟨values, hvalues, hm⟩ := List.mem_filterMap.mp hm
  exact GeometryEntry.all_monomial? hconstants hplans hvalues htuple hm

/-- What the geometry tensors of a form refer to is there, by its cell and its counts. -/
def Form.Supplied (f : Form α) : Prop :=
  ∀ cell ∈ f.cell, ∀ kind, ∀ t ∈ f.terms kind, t.Supplied cell.dim f.numCoefficients f.numConstants

open Resolve in
theorem Product.gives_supplied (cell : Cell) (numPoints : Option ℕ) {p : Product α}
    {numCoefficients numConstants : ℕ} (hconstants : ∀ c ∈ p.constants, c.number < numConstants)
    (hfunctions : ∀ b ∈ p.basis, ∀ n, b.argument = .function n → n < numCoefficients) :
    Gives (fun t => t.Supplied cell.dim numCoefficients numConstants) (p.build cell numPoints) := by
  intro c t c' hc hreturns
  obtain ⟨d, hplan, hterm⟩ := build_returns hreturns
  obtain ⟨-, hplanned, hc'⟩ := agree_plan cell p c hc
  rw [show outcome (p.plan cell) c = (.ok d, c') from hplan] at hplanned hc'
  obtain ⟨es, hplanned⟩ := hplanned
  exact ⟨term_supplied hterm hconstants (hplanned.supplied hfunctions), hc'⟩

namespace Sum

omit [Scalar α] in
theorem lt_numConstants {s : Sum α} {p : Product α} (hp : p ∈ s.products) {c : Constant}
    (hc : c ∈ p.constants) : c.number < s.numConstants := by
  apply lt_countOf
  exact List.mem_flatMap.mpr ⟨p, hp, List.mem_map_of_mem hc⟩

theorem gives_buildTerms_supplied (numPoints : Option ℕ) (s : Sum α) (cell : Option Cell) :
    Resolve.Gives (fun terms => ∀ k ∈ cell, ∀ t ∈ terms, t.Supplied k.dim s.numFunctions s.numConstants)
      (s.buildTerms numPoints cell) := by
  cases cell with
  | none => exact .pure (by simp)
  | some cell =>
    intro c terms c' hc hreturns
    obtain ⟨hterms, hc'⟩ := Resolve.Gives.mapM (fun p hp => Product.gives_supplied cell numPoints
      (fun _ => lt_numConstants hp) fun _ hb _ => lt_numFunctions hp hb) c terms c' hc hreturns
    refine ⟨?_, hc'⟩
    rintro _ ⟨rfl⟩
    exact hterms

omit [Scalar α] in
theorem assemble_supplied {s : Sum α} {name : String} {test trial : Option (Element α)}
    {coefficients : List (Option (Element α))} {cell : Option Cell} {terms : List (Term α)} {f : Form α}
    (h : s.assemble name test trial coefficients cell terms = .ok f)
    (hterms : ∀ k ∈ cell, ∀ t ∈ terms, t.Supplied k.dim s.numFunctions s.numConstants) : f.Supplied := by
  unfold assemble at h
  simp only at h
  split_ifs at h
  obtain rfl := Except.ok.inj h
  intro k hk kind t ht
  cases kind with
  | interior => exact hterms k hk t (List.mem_of_mem_filter ht)
  | boundary => exact hterms k hk t (List.mem_of_mem_filter ht)

theorem gives_supplied (numPoints : Option ℕ) (name : String) (s : Sum α) :
    Resolve.Gives Form.Supplied (s.build numPoints name) := by
  unfold build
  refine Resolve.Gives.bind (s.gives_elementOf .test) fun test _ => ?_
  refine Resolve.Gives.bind (s.gives_elementOf .trial) fun trial _ => ?_
  refine Resolve.Gives.bind (Resolve.Gives.mapM fun n _ => s.gives_elementOf (.function n))
    fun coefficients _ => ?_
  refine Resolve.Gives.bind (s.gives_cellOf name) fun cell _ => ?_
  refine Resolve.Gives.bind (s.gives_buildTerms_supplied numPoints cell) fun terms hterms => ?_
  exact Resolve.Gives.ofResult fun f hf => assemble_supplied hf hterms

end Sum
end Plans
end Variational
