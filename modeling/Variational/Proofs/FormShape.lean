import Variational.Proofs.Planning

/-! Shapes of forms. A form takes its arguments and coefficients from the first basis functions of the
whole sum and its dimensions from the first term, while every term has its own dimensions and only the
ranks of the terms are compared. The shapes fit together exactly when all products have the roles of the
sum and spaces of one dimension for each of them. -/
namespace Variational

variable {α : Type} [Scalar α]

/-- The dimension of the resolved element of a basis function. -/
def Cache.dimensionOf? (c : Cache α) (b : BasisFunction) : Option ℕ :=
  (c.find? b.element.canonicalRoot).map (·.dimension)

/-- The arguments, the terms and the coefficients of a form fit together: the loops over its element
tensor stay inside the table of every term. -/
structure Form.ShapeConsistent (f : Form α) : Prop where
  rank : f.rank = f.arguments.length
  dims : f.dims = f.arguments.map (·.dimension)
  terms : ∀ kind, ∀ t ∈ f.terms kind, t.reference.primary.dims = f.dims
  coefficients : ∀ kind, ∀ t ∈ f.terms kind, ∀ n extent,
    (SecondaryAxis.coefficient n, extent) ∈ t.reference.axes.zip t.reference.secondary.dims →
    ∃ e, f.coefficients[n]? = some (some e) ∧ extent = e.dimension

/-- Every product has the test and trial functions of the sum, and all basis functions with one role
have spaces of one dimension. -/
structure Sum.ShapesAgree (s : Sum α) (size : BasisFunction → Option ℕ) : Prop where
  arguments : ∀ p ∈ s.products, ∀ a ∈ [Argument.test, .trial],
    (p.find? a).bind size = (s.find? a).bind size
  functions : ∀ b ∈ s.basis, ∀ n, b.argument = .function n →
    size b = (s.find? (.function n)).bind size

/-- The dimensions of a term are those of the test and trial functions of its product, and its
coefficient axes those of the coefficient functions. -/
structure Term.ShapeOf (t : Term α) (size : BasisFunction → Option ℕ) (p : Product α) : Prop where
  resolved : ∀ b ∈ p.basis, (size b).isSome
  dims : t.reference.primary.dims =
    [Argument.test, .trial].filterMap fun a => (p.find? a).bind size
  coefficients : ∀ n extent,
    (SecondaryAxis.coefficient n, extent) ∈ t.reference.axes.zip t.reference.secondary.dims ↔
      ∃ b ∈ p.basis, b.argument = .function n ∧ size b = some extent

theorem dimensionOf?_of_resolve {b : BasisFunction} {c c₁ c₂ : Cache α} {e : Element α}
    (h : Resolve.Returns (Element.resolve b.element) c e c₁) (hext : c₁.Extends c₂) :
    c₂.dimensionOf? b = some e.dimension := by
  rw [Cache.dimensionOf?, hext.find? (Element.find?_of_resolve h)]
  rfl

namespace Product

theorem build_grows (cell : Cell) (numPoints : Option ℕ) (p : Product α) :
    Resolve.Grows (p.build cell numPoints) := by
  intro c t c' h
  obtain ⟨d, hd, -⟩ := build_returns h
  obtain ⟨es, hes, -⟩ := plan_returns hd
  exact (Resolve.returns_mapM (fun b _ => Element.resolve_grows b.element) hes).1

/-- The plan of a role belongs to the basis function of that role. -/
theorem find?_ofAll (a : Argument) (size : BasisFunction → Option ℕ) (trialPosition dim basis n : ℕ)
    {bs : List BasisFunction} {es : List (Element α)}
    (h : List.Forall₂ (fun b e => size b = some e.dimension) bs es) :
    ((Plan.ofAll trialPosition dim basis n (bs.zip es)).find? fun p => p.argument = a).map
        (·.element.dimension) =
      (bs.find? fun b => b.argument = a).bind size := by
  induction h generalizing basis n with
  | nil => rfl
  | @cons b e bs es hb _ ih =>
    rw [List.zip_cons_cons, Plan.ofAll, List.find?_cons, List.find?_cons]
    by_cases hba : b.argument = a
    · simp [Plan.ofBasis, hba, hb]
    · simpa [Plan.ofBasis, hba] using ih _ _

theorem mem_segments {size : BasisFunction → Option ℕ} {dim basis n extent : ℕ}
    {bs : List BasisFunction} {es : List (Element α)}
    (h : List.Forall₂ (fun b e => size b = some e.dimension) bs es) :
    (SecondaryAxis.coefficient n, extent) ∈ segments dim basis (bs.zip es) ↔
      ∃ b ∈ bs, b.argument = .function n ∧ size b = some extent := by
  induction h generalizing basis with
  | nil => simp [segments]
  | @cons b e bs es hb _ ih =>
    have hsegment : (SecondaryAxis.coefficient n, extent) ∈ b.segment dim basis e ↔
        b.argument = .function n ∧ size b = some extent := by
      unfold BasisFunction.segment
      cases hx : b.argument <;> by_cases hs : 1 < e.valueSize <;> simp [hs, hb, eq_comm]
    rw [List.zip_cons_cons, segments, List.mem_append, ih, hsegment]
    simp only [List.mem_cons, exists_eq_or_imp]

theorem build_shape {cell : Cell} {numPoints : Option ℕ} {p : Product α} {t : Term α}
    {c c₁ c' : Cache α} (h : Resolve.Returns (p.build cell numPoints) c t c₁)
    (hext : c₁.Extends c') : t.ShapeOf c'.dimensionOf? p := by
  obtain ⟨d, hd, ht⟩ := build_returns h
  obtain ⟨es, hes, hplans⟩ := plan_returns hd
  obtain ⟨-, -, -, hprimary, hsecondary, haxes, -, -⟩ := term_ok ht
  obtain ⟨-, hsteps⟩ := Resolve.returns_mapM (fun b _ => Element.resolve_grows b.element) hes
  have hsize : List.Forall₂ (fun b e => c'.dimensionOf? b = some e.dimension) p.basis es := by
    refine hsteps.imp fun b e hstep => ?_
    obtain ⟨c₂, c₃, hreturns, hext'⟩ := hstep
    exact dimensionOf?_of_resolve hreturns (hext'.trans hext)
  refine ⟨fun b hb => ?_, ?_, fun n extent => ?_⟩
  · obtain ⟨e, -, he⟩ := Result.exists_of_forall₂ hsize hb
    rw [he]
    rfl
  · have hplans' : d.plans = Plan.ofAll p.trialPosition cell.dim 0 0 (p.basis.zip es) := hplans.plans
    rw [hprimary, Draft.primaryDims, hplans']
    exact List.filterMap_congr fun a _ => find?_ofAll a _ _ _ _ _ hsize
  · have haxes' : d.axes = (segments cell.dim 0 (p.basis.zip es)).map (·.1) := hplans.axes
    have hextents : d.extents = (segments cell.dim 0 (p.basis.zip es)).map (·.2) := hplans.extents
    rw [haxes, hsecondary, haxes', hextents, ← List.unzip_fst, ← List.unzip_snd, List.zip_unzip,
      mem_segments hsize]

end Product

namespace Sum

theorem elementOf_returns {s : Sum α} {a : Argument} {o : Option (Element α)} {c c₁ : Cache α}
    (h : Resolve.Returns (s.elementOf a) c o c₁) : c.Extends c₁ ∧
      ∀ c', c₁.Extends c' → o.map (·.dimension) = (s.find? a).bind c'.dimensionOf? := by
  unfold elementOf at h
  cases hb : s.find? a with
  | none =>
    rw [hb, Resolve.returns_pure] at h
    obtain ⟨rfl, rfl⟩ := h
    exact ⟨Cache.Extends.refl c, fun _ _ => rfl⟩
  | some b =>
    rw [hb, Resolve.returns_map] at h
    obtain ⟨e, he, rfl⟩ := h
    refine ⟨Element.resolve_grows _ he, fun c' hext => ?_⟩
    rw [Option.bind_some, dimensionOf?_of_resolve he hext]
    rfl

theorem elementOf_grows (s : Sum α) (a : Argument) : Resolve.Grows (s.elementOf a) :=
  fun h => (elementOf_returns h).1

/-- The cell comes from a basis function, which there is if there are products. -/
theorem cellOf_returns {s : Sum α} {name : String} (hne : s.products ≠ []) {o : Option Cell}
    {c c₁ : Cache α} (h : Resolve.Returns (s.cellOf name) c o c₁) :
    c.Extends c₁ ∧ ∃ cell, o = some cell := by
  unfold cellOf at h
  cases hb : s.basis with
  | nil =>
    have hempty : s.products.isEmpty = false := by simpa using hne
    simp only [hb, hempty, Bool.false_eq_true, if_false] at h
    exact absurd h Resolve.not_returns_throw
  | cons b bs =>
    simp only [hb, Resolve.returns_map] at h
    obtain ⟨e, he, rfl⟩ := h
    exact ⟨Element.resolve_grows _ he, e.cell, rfl⟩

/-- The shapes of a form, in terms of the basis functions of the sum and of its products. -/
structure Shapes (s : Sum α) (size : BasisFunction → Option ℕ) (f : Form α) : Prop where
  arguments : f.arguments.map (·.dimension) =
    [Argument.test, .trial].filterMap fun a => (s.find? a).bind size
  coefficients : ∀ n < s.numFunctions, ∃ o, f.coefficients[n]? = some o ∧
    o.map (·.dimension) = (s.find? (.function n)).bind size
  ofProduct : ∀ p ∈ s.products, ∃ kind, ∃ t ∈ f.terms kind, t.ShapeOf size p
  ofTerm : ∀ kind, ∀ t ∈ f.terms kind, ∃ p ∈ s.products, t.ShapeOf size p
  dims : ∃ kind, ∃ t ∈ f.terms kind, f.dims = t.reference.primary.dims

theorem lt_countOf {n : ℕ} {ns : List ℕ} (h : n ∈ ns) : n < countOf ns := by
  induction ns with
  | nil => cases h
  | cons m ns ih =>
    simp only [countOf, List.map_cons, List.foldr_cons] at ih ⊢
    rcases List.mem_cons.mp h with rfl | h
    · omega
    · have hlt := ih h
      omega

omit [Scalar α] in
theorem lt_numFunctions {s : Sum α} {p : Product α} (hp : p ∈ s.products) {b : BasisFunction}
    (hb : b ∈ p.basis) {n : ℕ} (hn : b.argument = .function n) : n < s.numFunctions := by
  apply lt_countOf
  refine List.mem_flatMap.mpr ⟨p, hp, List.mem_filterMap.mpr ⟨b, hb, ?_⟩⟩
  rw [hn]

omit [Scalar α] in
/-- What is known of an assembled form; the terms of both kinds are all terms. -/
theorem assemble_ok {s : Sum α} {name : String} {test trial : Option (Element α)}
    {coefficients : List (Option (Element α))} {cell : Option Cell} {terms : List (Term α)} {f : Form α}
    (h : s.assemble name test trial coefficients cell terms = .ok f) (hne : terms ≠ []) :
    f.arguments = [test, trial].filterMap id ∧ f.coefficients = coefficients ∧
      (∀ t, (∃ kind, t ∈ f.terms kind) ↔ t ∈ terms) ∧
      ∃ kind, ∃ t ∈ f.terms kind, f.dims = t.reference.primary.dims := by
  have hf : f.arguments = [test, trial].filterMap id ∧ f.coefficients = coefficients ∧
      f.interior = terms.filter (·.integral = .interior) ∧
      f.boundary = terms.filter (·.integral = .boundary) ∧
      f.dims = ((f.interior ++ f.boundary).head?.map (·.reference.primary.dims)).getD [] := by
    unfold assemble at h
    simp only at h
    split at h
    · obtain rfl := Except.ok.inj h
      exact ⟨rfl, rfl, rfl, rfl, rfl⟩
    · cases h
  obtain ⟨harguments, hcoefficients, hinterior, hboundary, hdims⟩ := hf
  have hkinds (t : Term α) : (∃ kind, t ∈ f.terms kind) ↔ t ∈ f.interior ++ f.boundary := by
    rw [List.mem_append]
    constructor
    · rintro ⟨_ | _, ht⟩
      · exact .inl ht
      · exact .inr ht
    · rintro (ht | ht)
      · exact ⟨.interior, ht⟩
      · exact ⟨.boundary, ht⟩
  have hmem (t : Term α) : t ∈ f.interior ++ f.boundary ↔ t ∈ terms := by
    rw [hinterior, hboundary]
    cases hk : t.integral <;> simp [hk]
  refine ⟨harguments, hcoefficients, fun t => (hkinds t).trans (hmem t), ?_⟩
  obtain ⟨t, ht⟩ := List.exists_mem_of_ne_nil terms hne
  have hsome : f.interior ++ f.boundary ≠ [] := List.ne_nil_of_mem ((hmem t).mpr ht)
  obtain ⟨first, rest, hfirst⟩ := List.exists_cons_of_ne_nil hsome
  obtain ⟨kind, hkind⟩ := (hkinds first).mpr (by rw [hfirst]; exact List.mem_cons_self)
  refine ⟨kind, first, hkind, ?_⟩
  rw [hdims, hfirst]
  rfl

theorem build_shapes {s : Sum α} {numPoints : Option ℕ} {name : String} {f : Form α} {c c' : Cache α}
    (h : Resolve.Returns (s.build numPoints name) c f c') (hne : s.products ≠ []) :
    s.Shapes c'.dimensionOf? f := by
  simp only [build, Resolve.returns_bind, Resolve.returns_ofResult] at h
  obtain ⟨test, c₁, htest, trial, c₂, htrial, coefficients, c₃, hcoefficients, o, c₄, ho, terms, c₅,
    hterms, hform, rfl⟩ := h
  obtain ⟨hext₄, cell, rfl⟩ := cellOf_returns hne ho
  obtain ⟨hext₅, hsteps⟩ := Resolve.returns_mapM (fun p _ => Product.build_grows cell numPoints p) hterms
  have hshapes : List.Forall₂ (fun p t => t.ShapeOf c₅.dimensionOf? p) s.products terms := by
    refine hsteps.imp fun p t hstep => ?_
    obtain ⟨c₆, c₇, hreturns, hext⟩ := hstep
    exact Product.build_shape hreturns hext
  obtain ⟨hext₃, hfunctions⟩ := Resolve.returns_mapM (fun n _ => s.elementOf_grows (.function n))
    hcoefficients
  have hne' : terms ≠ [] := by
    rintro rfl
    exact hne (List.forall₂_nil_right_iff.mp hshapes)
  obtain ⟨harguments, rfl, hmem, hdims⟩ := assemble_ok hform hne'
  have hext : c₃.Extends c₅ := hext₄.trans hext₅
  have htest' := (elementOf_returns htest).2 c₅ ((elementOf_grows s _ htrial).trans (hext₃.trans hext))
  have htrial' := (elementOf_returns htrial).2 c₅ (hext₃.trans hext)
  refine ⟨?_, ?_, ?_, ?_, hdims⟩
  · rw [harguments]
    simp only [List.filterMap_cons, ← htest', ← htrial']
    cases test <;> cases trial <;> rfl
  · intro n hn
    obtain ⟨o, ho, c₆, c₇, hreturns, hext'⟩ :=
      Result.getElem?_of_forall₂ hfunctions (List.getElem?_range hn)
    exact ⟨o, ho, (elementOf_returns hreturns).2 c₅ (hext'.trans hext)⟩
  · intro p hp
    obtain ⟨t, ht, hshape⟩ := Result.exists_of_forall₂ hshapes hp
    obtain ⟨kind, hkind⟩ := (hmem t).mpr ht
    exact ⟨kind, t, hkind, hshape⟩
  · intro kind t ht
    obtain ⟨p, hp, hshape⟩ := Result.exists_of_forall₂ hshapes.flip ((hmem t).mp ⟨kind, ht⟩)
    exact ⟨p, hp, hshape⟩

/-- Dimensions by role, listed for the roles that occur. -/
theorem agree_of_filterMap {F G : Argument → Option ℕ} (hsub : ∀ a, (F a).isSome → (G a).isSome)
    (h : [Argument.test, .trial].filterMap F = [Argument.test, .trial].filterMap G) :
    ∀ a ∈ [Argument.test, .trial], F a = G a := by
  have htest := hsub .test
  have htrial := hsub .trial
  have hboth : F .test = G .test ∧ F .trial = G .trial := by
    cases hF : F .test <;> cases hG : G .test <;> cases hF' : F .trial <;> cases hG' : G .trial <;>
      simp_all
  intro a ha
  rcases List.mem_pair.mp ha with rfl | rfl
  · exact hboth.1
  · exact hboth.2

/-- A role that a product has, the sum has too. -/
theorem isSome_of_product {s : Sum α} {size : BasisFunction → Option ℕ} {f : Form α}
    (hf : s.Shapes size f) {p : Product α} (hp : p ∈ s.products) (a : Argument)
    (h : ((p.find? a).bind size).isSome) : ((s.find? a).bind size).isSome := by
  obtain ⟨size', hsize⟩ := Option.isSome_iff_exists.mp h
  obtain ⟨b, hb, -⟩ := Option.bind_eq_some_iff.mp hsize
  have hb' : b ∈ s.basis := List.mem_flatMap.mpr ⟨p, hp, List.mem_of_find?_eq_some hb⟩
  have hargument := List.find?_some (p := fun b : BasisFunction => decide (b.argument = a)) hb
  have hfound : (s.find? a).isSome := List.find?_isSome.mpr ⟨b, hb', hargument⟩
  obtain ⟨b₁, hb₁⟩ := Option.isSome_iff_exists.mp hfound
  obtain ⟨p₁, hp₁, hmem⟩ := List.mem_flatMap.mp (List.mem_of_find?_eq_some hb₁)
  obtain ⟨-, t, -, hshape⟩ := hf.ofProduct p₁ hp₁
  rw [hb₁, Option.bind_some]
  exact hshape.resolved b₁ hmem

/-- The shapes of a form with terms fit together exactly when the shapes of the products of the sum
agree. -/
theorem shapeConsistent_iff {s : Sum α} {numPoints : Option ℕ} {name : String} {f : Form α}
    {c c' : Cache α} (h : Resolve.Returns (s.build numPoints name) c f c') (hne : s.products ≠ []) :
    f.ShapeConsistent ↔ s.ShapesAgree c'.dimensionOf? := by
  have hf := build_shapes h hne
  constructor
  · intro hconsistent
    refine ⟨fun p hp => ?_, fun b hb n hn => ?_⟩
    · obtain ⟨kind, t, ht, hshape⟩ := hf.ofProduct p hp
      apply agree_of_filterMap (isSome_of_product hf hp)
      rw [← hshape.dims, ← hf.arguments, ← hconsistent.dims, hconsistent.terms kind t ht]
    · obtain ⟨p, hp, hb⟩ := List.mem_flatMap.mp hb
      obtain ⟨kind, t, ht, hshape⟩ := hf.ofProduct p hp
      obtain ⟨extent, hextent⟩ := Option.isSome_iff_exists.mp (hshape.resolved b hb)
      obtain ⟨e, he, hsize⟩ := hconsistent.coefficients kind t ht n extent
        ((hshape.coefficients n extent).mpr ⟨b, hb, hn, hextent⟩)
      obtain ⟨o, ho, hfirst⟩ := hf.coefficients n (lt_numFunctions hp hb hn)
      obtain rfl : some e = o := Option.some.inj (he.symm.trans ho)
      rw [hextent, ← hfirst, hsize]
      rfl
  · intro hagree
    have hterms (kind : IntegralKind) (t : Term α) (ht : t ∈ f.terms kind) :
        t.reference.primary.dims = f.arguments.map (·.dimension) := by
      obtain ⟨p, hp, hshape⟩ := hf.ofTerm kind t ht
      rw [hshape.dims, hf.arguments]
      exact List.filterMap_congr (hagree.arguments p hp)
    have hdims : f.dims = f.arguments.map (·.dimension) := by
      obtain ⟨kind, t, ht, hfirst⟩ := hf.dims
      rw [hfirst, hterms kind t ht]
    refine ⟨?_, hdims, fun kind t ht => ?_, fun kind t ht n extent hextent => ?_⟩
    · rw [Form.rank, hdims, List.length_map]
    · rw [hterms kind t ht, hdims]
    · obtain ⟨p, hp, hshape⟩ := hf.ofTerm kind t ht
      obtain ⟨b, hb, hn, hsize⟩ := (hshape.coefficients n extent).mp hextent
      obtain ⟨o, ho, hfirst⟩ := hf.coefficients n (lt_numFunctions hp hb hn)
      have hall := hagree.functions b (List.mem_flatMap.mpr ⟨p, hp, hb⟩) n hn
      rw [hsize, ← hfirst] at hall
      obtain ⟨e, rfl, he⟩ := Option.map_eq_some_iff.mp hall.symm
      exact ⟨e, ho, he.symm⟩

/-- A value at a point, once as a test function and once as a trial function. -/
def loneArguments : Sum Float :=
  let value : Descriptor := .simple "Quadrature" (.simple .point) (some 1)
  ⟨[.ofBasis [.ofArgument value .test], .ofBasis [.ofArgument value .trial]]⟩

/-- Both terms have rank one, so the sum is accepted, but the form has two arguments. -/
theorem loneArguments_inconsistent :
    ∃ f c', (loneArguments.build (some 1) "a").Returns .empty f c' ∧ f.rank = 1 ∧
      f.arguments.length = 2 ∧ ¬ f.ShapeConsistent := by
  refine ⟨_, _, rfl, rfl, rfl, fun h => ?_⟩
  exact absurd (h.rank : 1 = 2) (by decide)

/-- Two values at a point, with points of their own. -/
def twoValues (degree : ℕ) : Descriptor :=
  .enriched (.simple "Quadrature" (.simple .point) (some 1)) (.simple "Quadrature" (.simple .point) (some degree))

/-- A vector whose two terms have a test function and a coefficient in different spaces. -/
def matchingSpaces : Sum Float :=
  ⟨[1, 2].map fun degree => .ofBasis [.ofArgument (twoValues degree) .test,
    .ofArgument (twoValues degree) (.function 0)]⟩

/-- The spaces differ, but not in their dimensions. -/
theorem matchingSpaces_consistent :
    ∃ f c', (matchingSpaces.build (some 1) "a").Returns .empty f c' ∧ f.ShapeConsistent := by
  have hbuild : ∃ f c', (matchingSpaces.build (some 1) "a").Returns .empty f c' ∧
      ∀ degree ∈ [1, 2], ∀ a, c'.dimensionOf? (.ofArgument (twoValues degree) a) = some 2 :=
    ⟨_, _, rfl, List.forall_mem_cons.mpr ⟨fun _ => rfl, List.forall_mem_singleton.mpr fun _ => rfl⟩⟩
  obtain ⟨f, c', hf, hsize⟩ := hbuild
  refine ⟨f, c', hf, (shapeConsistent_iff hf (by simp [matchingSpaces])).mpr ⟨?_, ?_⟩⟩
  · intro p hp a ha
    obtain ⟨degree, hdegree, rfl⟩ := List.mem_map.mp hp
    rcases List.mem_pair.mp ha with rfl | rfl
    · exact (hsize degree hdegree .test).trans (hsize 1 List.mem_cons_self .test).symm
    · rfl
  · intro b hb n hn
    obtain ⟨p, hp, hb⟩ := List.mem_flatMap.mp hb
    obtain ⟨degree, hdegree, rfl⟩ := List.mem_map.mp hp
    rcases List.mem_pair.mp hb with rfl | rfl
    · cases hn
    · obtain rfl : 0 = n := Argument.function.inj hn
      exact (hsize degree hdegree _).trans (hsize 1 List.mem_cons_self _).symm

end Sum
end Variational
