import Variational.Proofs.FormShape
import Variational.Proofs.FreeIndices
import Variational.Proofs.TableShapes

/-! Bounds of plans. When basis functions with one role have one element, every plan of a product reads
positions that the primary and secondary indices have, with values below the extents of its element, and
labels that have a range. -/
namespace Variational

open Result

theorem MultiIndex.getElem?_of_mem_tuples {ds a : List ℕ} (h : a ∈ tuples ds) {n d : ℕ}
    (hn : ds[n]? = some d) : ∃ k < d, a[n]? = some k := by
  induction ds generalizing a n with
  | nil => cases hn
  | cons d₀ ds ih =>
    simp only [tuples, List.mem_flatMap, List.mem_map, List.mem_range] at h
    obtain ⟨k, hk, a, ha, rfl⟩ := h
    cases n with
    | zero =>
      obtain rfl := Option.some.inj hn
      exact ⟨k, hk, rfl⟩
    | succ n => exact ih ha hn

/-- Basis functions with one role have one element. -/
def ArgumentsAgree (bs : List BasisFunction) : Prop :=
  ∀ b ∈ bs, ∀ b' ∈ bs, b.argument = b'.argument → b.element = b'.element

namespace Plan

variable {α : Type} [Scalar α]

/-- The axes that a plan reads have the extents of what it reads them for. -/
structure ReadsAxes (p : Plan α) (dim : ℕ) (extents : List ℕ) : Prop where
  dof : ∀ axis, p.dof = .secondary axis → extents[axis]? = some p.element.dimension
  component : ∀ axis, p.componentAxis = some axis → extents[axis]? = some p.element.valueSize
  derivatives : ∀ x ∈ p.derivatives, extents[x.2]? = some dim

theorem ofBasis_readsAxes (trialPosition dim basis : ℕ) (front back : List ℕ) (b : BasisFunction)
    (e : Element α) : (ofBasis trialPosition front.length b e).ReadsAxes dim
      (front ++ ((b.segment dim basis e).map (·.2) ++ back)) := by
  have hread (k : ℕ) : (front ++ ((b.segment dim basis e).map (·.2) ++ back))[front.length + k]? =
      ((b.segment dim basis e).map (·.2) ++ back)[k]? := by
    rw [List.getElem?_append_right (Nat.le_add_right _ _), Nat.add_sub_cancel_left]
  refine ⟨fun axis h => ?_, fun axis h => ?_, fun x hx => ?_⟩
  · cases hb : b.argument with
    | function n =>
      simp only [ofBasis, hb, DofSource.secondary.injEq] at h
      subst h
      rw [← Nat.add_zero front.length, hread]
      simp [BasisFunction.segment, hb, ofBasis]
    | test => simp [ofBasis, hb] at h
    | trial => simp [ofBasis, hb] at h
  · by_cases hs : 1 < e.valueSize
    · simp only [ofBasis, hs, if_true, Option.some.injEq] at h
      subst h
      rw [hread]
      cases hb : b.argument <;> simp [BasisFunction.segment, BasisFunction.dofAxes, hb, hs, ofBasis]
    · simp [ofBasis, hs] at h
  · obtain ⟨head, hlength, hsegment⟩ : ∃ head, head.length = b.dofAxes + e.componentAxes ∧
        (b.segment dim basis e).map (·.2) = head ++ List.replicate b.derivatives.length dim := by
      refine ⟨((b.segment dim basis e).map (·.2)).take (b.dofAxes + e.componentAxes), ?_, ?_⟩ <;>
      cases hb : b.argument <;> by_cases hs : 1 < e.valueSize <;>
        simp [BasisFunction.segment, BasisFunction.dofAxes, Element.componentAxes, hb, hs, Function.comp_def]
    obtain ⟨k, hk⟩ := Nat.exists_eq_add_of_le (List.le_snd_of_mem_zipIdx hx)
    have hlt := List.snd_lt_of_mem_zipIdx hx
    rw [hk, Nat.add_assoc, Nat.add_assoc, hread, hsegment, ← Nat.add_assoc, ← hlength, List.append_assoc,
      List.getElem?_append_right (Nat.le_add_right _ _), Nat.add_sub_cancel_left,
      List.getElem?_append_left (by rw [List.length_replicate]; omega),
      List.getElem?_replicate_of_lt (by omega)]

theorem ofAll_readsAxes (trialPosition dim basis : ℕ) (front : List ℕ)
    (bes : List (BasisFunction × Element α)) :
    ∀ p ∈ ofAll trialPosition dim basis front.length bes,
      p.ReadsAxes dim (front ++ (segments dim basis bes).map (·.2)) := by
  induction bes generalizing basis front with
  | nil => simp [ofAll]
  | cons x bes ih =>
    obtain ⟨b, e⟩ := x
    have hrest := ih (basis + 1) (front ++ (b.segment dim basis e).map (·.2))
    rw [List.length_append, List.length_map, List.append_assoc] at hrest
    rw [ofAll, segments, List.map_append]
    exact List.forall_mem_cons.mpr ⟨ofBasis_readsAxes trialPosition dim basis front _ b e, hrest⟩

theorem mem_ofAll {trialPosition dim basis n : ℕ} {bes : List (BasisFunction × Element α)} {p : Plan α}
    (h : p ∈ ofAll trialPosition dim basis n bes) :
    ∃ x ∈ bes, ∃ m, p = ofBasis trialPosition m x.1 x.2 := by
  induction bes generalizing basis n with
  | nil => cases h
  | cons x bes ih =>
    rcases List.mem_cons.mp h with rfl | h
    · exact ⟨x, List.mem_cons_self, n, rfl⟩
    · obtain ⟨y, hy, hp⟩ := ih h
      exact ⟨y, List.mem_cons_of_mem x hy, hp⟩

theorem map_element_ofAll (trialPosition dim basis n : ℕ) (bes : List (BasisFunction × Element α)) :
    (ofAll trialPosition dim basis n bes).map (·.element) = bes.map (·.2) := by
  induction bes generalizing basis n with
  | nil => rfl
  | cons x bes ih => exact congrArg (x.2 :: ·) (ih _ _)

/-- All that a plan of a draft reads is there. -/
structure Bounded (p : Plan α) (cell : Cell) (d : Draft α) : Prop where
  onCell : p.element.cell = cell
  table : p.element.Tabulates
  primary : ∀ position, p.dof = .primary position → d.primaryDims[position]? = some p.element.dimension
  axes : p.ReadsAxes cell.dim d.extents
  scalar : p.componentAxis = none → p.element.valueSize = 1
  labels : ∀ l, Index.free l ∈ p.component.toList ++ p.derivatives.map (·.1) →
    ∃ range, (l, range) ∈ d.ranges

end Plan

theorem Draft.addAll_onCell {α : Type} [Scalar α] {cell : Cell} {trialPosition : ℕ}
    {bes : List (BasisFunction × Element α)} {d d' : Draft α}
    (h : bes.foldlM (fun d x => d.add cell trialPosition x.1 x.2) d = .ok d') :
    ∀ x ∈ bes, x.2.cell = cell := by
  induction bes generalizing d with
  | nil => simp
  | cons x bes ih =>
    rw [List.foldlM_cons, bind_eq_ok] at h
    obtain ⟨mid, hmid, hrest⟩ := h
    exact List.forall_mem_cons.mpr ⟨(Draft.add_ok hmid).onCell, ih hrest⟩

namespace Product

variable {α : Type} [Scalar α]

/-- The draft of a product comes from the elements that its basis functions have. -/
structure Planned (cell : Cell) (p : Product α) (es : List (Element α)) (d : Draft α) : Prop where
  resolved : List.Forall₂ (fun b e => Element.direct b.element = .ok e) p.basis es
  drafted : (p.basis.zip es).foldlM (fun d x => d.add cell p.trialPosition x.1 x.2) Draft.empty = .ok d

/-- The dimension of the element of a basis function. -/
def dimensionOf? (α : Type) [Scalar α] (b : BasisFunction) : Option ℕ :=
  (Element.direct b.element : Result (Element α)).toOption.map (·.dimension)

namespace Planned

variable {cell : Cell} {p : Product α} {es : List (Element α)} {d : Draft α} (h : p.Planned cell es d)
include h

theorem dimensions :
    List.Forall₂ (fun b e => dimensionOf? α b = some e.dimension) p.basis es := by
  refine h.resolved.imp fun b e he => ?_
  rw [dimensionOf?, he]
  rfl

theorem primaryDims_eq : d.primaryDims =
    [Argument.test, .trial].filterMap fun a => (p.find? a).bind (dimensionOf? α) := by
  have hplans : d.plans = Plan.ofAll p.trialPosition cell.dim 0 0 (p.basis.zip es) :=
    (Draft.addAll_ok h.drafted).plans
  rw [Draft.primaryDims, hplans]
  exact List.filterMap_congr fun a _ => find?_ofAll a _ _ _ _ _ h.dimensions

theorem direct_of_mem {b : BasisFunction} {e : Element α} (hb : (b, e) ∈ p.basis.zip es) :
    Element.direct b.element = .ok e := (List.forall₂_iff_zip.mp h.resolved).2 hb

/-- The first basis function with a role has the dimension of all of them. -/
theorem find?_dimension (hagree : ArgumentsAgree p.basis) {b : BasisFunction} {e : Element α}
    (hb : (b, e) ∈ p.basis.zip es) :
    (p.find? b.argument).bind (dimensionOf? α) = some e.dimension := by
  have hmem : b ∈ p.basis := (List.of_mem_zip hb).1
  have hfound : (p.find? b.argument).isSome := List.find?_isSome.mpr ⟨b, hmem, by simp⟩
  obtain ⟨b₀, hb₀⟩ := Option.isSome_iff_exists.mp hfound
  have hargument : b₀.argument = b.argument := by simpa using List.find?_some hb₀
  rw [hb₀, Option.bind_some, dimensionOf?, hagree b₀ (List.mem_of_find?_eq_some hb₀) b hmem hargument,
    h.direct_of_mem hb]
  rfl

/-- The primary index of a test or trial function runs over the dofs of its element. -/
theorem getElem?_primaryDims (hagree : ArgumentsAgree p.basis) {b : BasisFunction} {e : Element α}
    (hb : (b, e) ∈ p.basis.zip es) {m position : ℕ}
    (hposition : (Plan.ofBasis p.trialPosition m b e).dof = .primary position) :
    d.primaryDims[position]? = some e.dimension := by
  have hdimension := h.find?_dimension hagree hb
  rw [h.primaryDims_eq]
  cases hargument : b.argument with
  | function n => simp [Plan.ofBasis, hargument] at hposition
  | test =>
    simp only [Plan.ofBasis, hargument, DofSource.primary.injEq] at hposition
    subst hposition
    rw [hargument] at hdimension
    simp only [List.filterMap_cons, hdimension, List.getElem?_cons_zero]
  | trial =>
    -- The trial function comes second exactly if the product has a test function.
    simp only [Plan.ofBasis, hargument, DofSource.primary.injEq] at hposition
    subst hposition
    rw [hargument] at hdimension
    unfold trialPosition
    cases htest : p.find? .test with
    | none =>
      simp only [List.filterMap_cons, htest, hdimension, Option.bind_none]
      rfl
    | some b₁ =>
      obtain ⟨e₁, -, hsize⟩ := exists_of_forall₂ h.dimensions (List.mem_of_find?_eq_some htest)
      simp only [List.filterMap_cons, htest, hdimension, hsize, Option.bind_some]
      rfl

/-- What a product with one element for each role plans is bounded by its dimensions and ranges. -/
theorem bounded (hagree : ArgumentsAgree p.basis) : ∀ P ∈ d.plans, P.Bounded cell d := by
  have hplans := Draft.addAll_ok h.drafted
  have hofAll : d.plans = Plan.ofAll p.trialPosition cell.dim 0 0 (p.basis.zip es) := hplans.plans
  have hextents : d.extents = [] ++ (segments cell.dim 0 (p.basis.zip es)).map (·.2) := hplans.extents
  have hrecord := Ranges.record_nil.checkAll hplans.ranges
  intro P hP
  rw [hofAll] at hP
  have haxes := Plan.ofAll_readsAxes p.trialPosition cell.dim 0 [] (p.basis.zip es) P hP
  obtain ⟨⟨b, e⟩, hbe, m, rfl⟩ := Plan.mem_ofAll hP
  have hdirect := h.direct_of_mem hbe
  refine ⟨Draft.addAll_onCell h.drafted _ hbe, (Element.closed_tabular.direct hdirect).table,
    fun position => h.getElem?_primaryDims hagree hbe, hextents ▸ haxes, fun hnone => ?_, fun l hl => ?_⟩
  · have hpositive : 0 < e.valueSize := Element.closed_valueSize_pos.direct hdirect
    have hsize : ¬ 1 < e.valueSize := by simpa [Plan.ofBasis] using hnone
    change e.valueSize = 1
    omega
  · obtain ⟨range, hrange⟩ : ∃ range, (Index.free l, range) ∈ b.indexRanges cell.dim e := by
      rcases List.mem_append.mp hl with hl | hl
      · have hhead : b.components.head? = some (.free l) := Option.mem_toList.mp hl
        exact ⟨e.valueSize, List.mem_append_left _ (List.mem_map_of_mem (List.mem_of_head? hhead))⟩
      · obtain ⟨x, hx, hxl⟩ := List.mem_map.mp hl
        have hmem : Index.free l ∈ b.derivatives := hxl ▸ List.fst_mem_of_mem_zipIdx hx
        exact ⟨cell.dim, List.mem_append_right _ (List.mem_map_of_mem hmem)⟩
    exact ⟨range, Ranges.mem_of_lookup (hrecord.free l range
      (List.mem_append_right _ (List.mem_flatMap.mpr ⟨_, hbe, hrange⟩)))⟩

end Planned
end Product
end Variational
