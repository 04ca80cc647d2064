import Variational.Proofs.CacheTransparency
import Variational.Proofs.Composition
import Variational.Proofs.ExactScalar

/-! Short and full names of families. A descriptor resolves to what it resolves to with full names
everywhere, with one exception: a family that is restricted has to have its full name, and with a short
one the resolution fails. -/
namespace Variational

namespace Result

variable {β γ : Type}

/-- The first computation succeeds exactly when the second one does and a condition holds, and then with
the same value. -/
def AgreesIf (p : Prop) (x y : Result β) : Prop := ∀ b, x = .ok b ↔ p ∧ y = .ok b

theorem AgreesIf.refl (x : Result β) : AgreesIf True x x := by
  intro b
  rw [true_and]

theorem AgreesIf.bind {p q : Prop} {x y : Result β} {f g : β → Result γ} (h : AgreesIf p x y)
    (hfg : ∀ b, AgreesIf q (f b) (g b)) : AgreesIf (p ∧ q) (x >>= f) (y >>= g) := by
  intro c
  rw [bind_eq_ok, bind_eq_ok]
  constructor
  · rintro ⟨b, hb, hc⟩
    obtain ⟨hp, hb⟩ := (h b).mp hb
    obtain ⟨hq, hc⟩ := (hfg b c).mp hc
    exact ⟨⟨hp, hq⟩, b, hb, hc⟩
  · rintro ⟨⟨hp, hq⟩, b, hb, hc⟩
    exact ⟨b, (h b).mpr ⟨hp, hb⟩, (hfg b c).mpr ⟨hq, hc⟩⟩

/-- What comes after asks for nothing more. -/
theorem AgreesIf.bind_same {p : Prop} {x y : Result β} (h : AgreesIf p x y) (f : β → Result γ) :
    AgreesIf p (x >>= f) (y >>= f) := by
  have hbind := h.bind fun b => AgreesIf.refl (f b)
  rwa [and_true] at hbind

end Result

namespace Descriptor

mutual

/-- The descriptor with full family names at all depths. -/
def canonical : Descriptor → Descriptor
  | simple family cell degree => simple (canonicalFamily family) cell degree
  | mixed ds => mixed (canonicalList ds)
  | restricted d domain => restricted d.canonical domain
  | enriched a b => enriched a.canonical b.canonical
  | product a b => product a.canonical b.canonical
  | wrapped space d => wrapped space d.canonical
  | other name => other name

def canonicalList : List Descriptor → List Descriptor
  | [] => []
  | d :: ds => d.canonical :: canonicalList ds

end

mutual

/-- Every family that is restricted has its full name. -/
def RestrictsFullNames : Descriptor → Prop
  | simple _ _ _ => True
  | mixed ds => RestrictsFullNamesList ds
  | restricted d domain => ∀ leaf ∈ d.restrictedLeaves domain, leaf.1.canonicalRoot = leaf.1
  | enriched a b => a.RestrictsFullNames ∧ b.RestrictsFullNames
  | product a b => a.RestrictsFullNames ∧ b.RestrictsFullNames
  | wrapped _ d => d.RestrictsFullNames
  | other _ => True

def RestrictsFullNamesList : List Descriptor → Prop
  | [] => True
  | d :: ds => d.RestrictsFullNames ∧ RestrictsFullNamesList ds

end

mutual

/-- Full names change neither the parts of a sum nor the restrictions around them. -/
theorem restrictedLeaves_canonical : ∀ (domain : Domain) (d : Descriptor),
    d.canonical.restrictedLeaves domain =
      (d.restrictedLeaves domain).map fun leaf => (leaf.1.canonical, leaf.2)
  | domain, mixed ds => by
    rw [canonical, restrictedLeaves, restrictedLeaves]
    exact restrictedLeavesOfList_canonical domain ds
  | _, restricted d inner => by
    rw [canonical, restrictedLeaves, restrictedLeaves]
    exact restrictedLeaves_canonical inner d
  | _, simple _ _ _ => rfl
  | _, enriched _ _ => rfl
  | _, product _ _ => rfl
  | _, wrapped _ _ => rfl
  | _, other _ => rfl

theorem restrictedLeavesOfList_canonical : ∀ (domain : Domain) (ds : List Descriptor),
    restrictedLeavesOfList domain (canonicalList ds) =
      (restrictedLeavesOfList domain ds).map fun leaf => (leaf.1.canonical, leaf.2)
  | _, [] => rfl
  | domain, d :: ds => by
    rw [canonicalList, restrictedLeavesOfList, restrictedLeavesOfList, List.map_append,
      restrictedLeaves_canonical domain d, restrictedLeavesOfList_canonical domain ds]

end

end Descriptor

namespace Element

variable {α : Type} [Scalar α]

/-- A family is restricted under the name that it is given by, so only its full name will do. -/
theorem restrictLeaf_canonical (leaf : Descriptor × Domain) :
    Result.AgreesIf (leaf.1.canonicalRoot = leaf.1) (restrictLeaf leaf : Result (Element α))
      (restrictLeaf (leaf.1.canonical, leaf.2)) := by
  intro e
  obtain ⟨d, domain⟩ := leaf
  cases d with
  | simple family cell degree =>
    simp only [restrictLeaf, Descriptor.canonicalRoot, Descriptor.canonical,
      Descriptor.simple.injEq, and_true]
    constructor
    · intro h
      obtain ⟨a, -, ha, -, -⟩ := restrictFamily_ok h
      have hfull := canonicalFamily_of_supported family (ofFamily_ok ha).1
      rw [hfull]
      exact ⟨rfl, h⟩
    · rintro ⟨hfull, h⟩
      rwa [hfull] at h
  | _ => simp [restrictLeaf, Descriptor.canonical, Descriptor.canonicalRoot]

theorem restrictLeaves_canonical (leaves : List (Descriptor × Domain)) :
    Result.AgreesIf (∀ leaf ∈ leaves, leaf.1.canonicalRoot = leaf.1)
      (leaves.mapM restrictLeaf : Result (List (Element α)))
      ((leaves.map fun leaf => (leaf.1.canonical, leaf.2)).mapM restrictLeaf) := by
  intro es
  rw [Result.mapM_eq_ok, Result.mapM_eq_ok, List.forall₂_map_left_iff, ← List.forall₂_and_left]
  constructor
  · intro h
    exact h.imp fun leaf e => (restrictLeaf_canonical leaf e).mp
  · intro h
    exact h.imp fun leaf e => (restrictLeaf_canonical leaf e).mpr

/-- Products that are not wrapped come from descriptors of products. -/
theorem family_of_product {d : Descriptor} {a b : Element α} (h : direct d = .ok (product a b none)) :
    d.family = "OuterProductElement" := by
  cases d with
  | product _ _ => rfl
  | simple family cell degree =>
    rw [direct] at h
    cases (ofFamily_ok h).2
  | enriched _ _ =>
    simp only [direct, Result.bind_eq_ok] at h
    obtain ⟨x, -, y, -, h⟩ := h
    cases enrich_ok h
  | wrapped space d =>
    rw [direct] at h
    split_ifs at h
    obtain ⟨x, -, h⟩ := Result.bind_eq_ok.mp h
    obtain ⟨_, _, _, -, -, he⟩ := wrap_ok h
    cases he
  | mixed ds =>
    rw [direct, Result.bind_eq_ok] at h
    obtain ⟨parts, -, h⟩ := h
    cases mix_ok h
  | restricted d domain =>
    cases d with
    | mixed ds =>
      rw [direct, Result.bind_eq_ok] at h
      obtain ⟨parts, -, h⟩ := h
      cases mix_ok h
    | simple family cell degree =>
      obtain ⟨_, _, -, -, he⟩ := restrictFamily_ok h
      cases he
    | _ => cases h
  | other _ => cases h

/-- Only products are wrapped, and their family is supported, so nothing else is asked of the family. -/
theorem direct_wrapped (space : SobolevSpace) (d : Descriptor) :
    Result.AgreesIf True (direct (.wrapped space d) : Result (Element α))
      (direct d >>= wrap space) := by
  intro e
  rw [direct, true_and]
  constructor
  · intro h
    split_ifs at h
    exact h
  · intro h
    obtain ⟨x, hx, hwrap⟩ := Result.bind_eq_ok.mp h
    obtain ⟨a, b, -, rfl, -, -⟩ := wrap_ok hwrap
    rw [if_pos (by rw [family_of_product hx]; decide)]
    exact h

theorem direct_canonical :
    (∀ d : Descriptor, Result.AgreesIf d.RestrictsFullNames (direct d : Result (Element α))
      (direct d.canonical)) ∧
    ∀ ds : List Descriptor, Result.AgreesIf (Descriptor.RestrictsFullNamesList ds)
      (directParts ds : Result (List (Element α))) (directParts (Descriptor.canonicalList ds)) := by
  apply resolution_induction
  case simple =>
    intro family cell degree
    rw [Descriptor.canonical, direct, direct, canonicalFamily_idem]
    exact Result.AgreesIf.refl _
  case enriched =>
    intro a b ha hb
    rw [Descriptor.canonical, direct, direct]
    exact ha.bind fun x => hb.bind_same _
  case product =>
    intro a b ha hb
    rw [Descriptor.canonical, direct, direct]
    exact ha.bind fun x => hb.bind_same _
  case wrapped =>
    intro space d hd e
    rw [Descriptor.canonical]
    have h := (direct_wrapped space d e).trans (and_congr_right fun _ => hd.bind_same (wrap space) e)
    rw [h, direct_wrapped space d.canonical e]
    simp only [true_and, Descriptor.RestrictsFullNames]
  case mixed =>
    intro ds hds
    rw [Descriptor.canonical, direct, direct]
    exact hds.bind_same _
  case restrictedSum =>
    intro ds domain
    rw [Descriptor.canonical, Descriptor.canonical, direct, direct,
      Descriptor.restrictedLeavesOfList_canonical]
    exact (restrictLeaves_canonical _).bind_same _
  case restricted =>
    intro d domain hd e
    have hleaf := restrictLeaf_canonical (α := α) (d, domain) e
    cases d with
    | mixed ds => exact absurd rfl (hd ds)
    | restricted _ _ => simp [direct, restrictLeaf, Descriptor.canonical]
    | _ =>
      simpa [direct, Descriptor.canonical, Descriptor.RestrictsFullNames,
        Descriptor.restrictedLeaves] using hleaf
  case other =>
    intro name
    exact Result.AgreesIf.refl _
  case nil => exact Result.AgreesIf.refl _
  case sum =>
    intro inner ds hinner hds
    rw [Descriptor.canonicalList, Descriptor.canonical, directParts, directParts]
    exact hinner.bind fun first => hds.bind_same _
  case restrictedPart =>
    intro d domain ds hds
    rw [Descriptor.canonicalList, Descriptor.canonical, directParts, directParts,
      Descriptor.restrictedLeaves_canonical]
    exact (restrictLeaves_canonical _).bind fun first => hds.bind_same _
  case part =>
    intro d ds hmixed hrestricted hd hds
    cases d with
    | mixed inner => exact absurd rfl (hmixed inner)
    | restricted d domain => exact absurd rfl (hrestricted d domain)
    | _ => exact hd.bind fun first => hds.bind_same _

/-- A descriptor resolves to an element exactly when every family that it restricts has its full name
and it resolves to that element with full names everywhere. -/
theorem ofDescriptor_iff_canonical (d : Descriptor) (e : Element α) :
    ofDescriptor d = .ok e ↔ d.RestrictsFullNames ∧ ofDescriptor d.canonical = .ok e := by
  rw [ofDescriptor_eq_direct, ofDescriptor_eq_direct]
  exact direct_canonical.1 d e

end Element

section Constants

variable {α : Type} [Scalar α]

theorem LinearSystem.inverse_singleton {x : α} (hx : (Scalar.dot [x] [1] == 0) = false) :
    ∃ m, inverse [[x]] = some m := by
  simp [inverse, inverseSmall, adjugate, cofactor, minor, hx]

theorem PolynomialElement.dualBasis_of_inverse {family : String} {cell : ReferenceCell}
    {degree valueSize : ℕ} {span : List (List (List α))} {functionals : List (Functional α)}
    {embeddedDegree : ℕ} {values : List (List α)} (hcount : functionals.length = span.length)
    (hweights : functionals.find? (·.weights.length != valueSize) = none)
    (hvalues : Expansion.values cell embeddedDegree (functionals.map (·.point)) = .ok values)
    (hcovers : span.all (covers valueSize (Expansion.count cell embeddedDegree)) = true)
    (hinverse : ∃ m, LinearSystem.inverse (span.map fun member =>
      List.zipWith (fun f v => applyFunctional f v member) functionals values) = some m) :
    ∃ coefficients, dualBasis family cell degree valueSize span functionals embeddedDegree =
      .ok coefficients := by
  obtain ⟨m, hm⟩ := hinverse
  simp only [dualBasis, hcount, ne_eq, not_true, if_false, hweights, hvalues, hcovers, hm, bind,
    Except.bind, Bool.not_true, Bool.false_eq_true]
  exact ⟨_, rfl⟩

theorem Expansion.legendre_zero_ne_zero (x : ℝ) : (legendre 0 x).1 ≠ 0 := by
  have hsqrt : Scalar.sqrt (2⁻¹ : ℝ) ≠ 0 := (Real.sqrt_pos.mpr (by norm_num)).ne'
  simp [legendre, Jacobi.value_zero, hsqrt]

/-- There is a constant element on the interval. -/
theorem Lagrange.discontinuous_constant : ∃ x : PolynomialElement ℝ,
    discontinuous .interval 0 = .ok x ∧ x.cell = .interval ∧ x.entityDofs = [[[], []], [[0]]] := by
  have hbasis : ∃ coefficients, PolynomialElement.dualBasis "Discontinuous Lagrange" .interval 0 1
      (PolynomialElement.fullSpan .interval 0) [.at (ReferenceCell.interval.midpoint : List ℝ)] 0 =
        .ok coefficients := by
    apply PolynomialElement.dualBasis_of_inverse rfl rfl rfl rfl
    apply LinearSystem.inverse_singleton
    apply decide_eq_false
    rw [Scalar.dot_eq _ _ (by rfl)]
    simp [PolynomialElement.applyFunctional, Functional.at, Scalar.sum_eq, Expansion.legendreUpTo,
      Expansion.numbered, Expansion.count, Expansion.legendre_zero_ne_zero]
  obtain ⟨coefficients, hcoefficients⟩ := hbasis
  exact ⟨_, Result.bind_eq_ok.mpr ⟨coefficients, hcoefficients, rfl⟩, rfl, rfl⟩

end Constants

/-- Constants on the interval under their short name, restricted to the interior. -/
def Descriptor.shortRestricted : Descriptor :=
  .restricted (.simple "DG" (.simple .interval) (some 0)) .interior

/-- With the full name there is an element, with the short name there is none. -/
theorem Element.shortRestricted_fails :
    (∃ e : Element ℝ, ofDescriptor Descriptor.shortRestricted.canonical = .ok e) ∧
      (ofDescriptor Descriptor.shortRestricted : Result (Element ℝ)) =
        .error (.unsupportedFamily "DG") := by
  obtain ⟨x, hx, hcell, hdofs⟩ := Lagrange.discontinuous_constant
  have hfamily : (ofFamily "Discontinuous Lagrange" (.simple .interval) (some 0) : Result (Element ℝ)) =
      .ok (polynomial x) := Result.bind_eq_ok.mpr ⟨x, hx, rfl⟩
  have hindices : selectIndices (polynomial x).layout .interior = .ok [0] := by
    simp [selectIndices, layout, Layout.ofPolynomial, hcell, hdofs, ReferenceCell.dim]
  refine ⟨⟨restricted (polynomial x) [0] .interior, ?_⟩, rfl⟩
  rw [ofDescriptor_eq_direct]
  change restrictFamily "Discontinuous Lagrange" (.simple .interval) (some 0) .interior = _
  simp only [restrictFamily, Result.bind_eq_ok]
  exact ⟨polynomial x, hfamily, [0], hindices, rfl⟩

end Variational
