import Variational.Proofs.CacheTransparency
import Variational.Proofs.GeometrySymbols

/-! The cell that a descriptor names and the cell that its element lives on. They are the same unless the name
comes from a time element, which lives on the interval whatever cell it names, or from an empty sum. -/
namespace Variational

/-- No short name stands for a time family. -/
theorem TimeFamily.ofName?_canonicalFamily (family : String) :
    ofName? (canonicalFamily family) = ofName? family := by
  unfold canonicalFamily
  split <;> rfl

/-- No time family has elements on reference cells in general. -/
theorem PolynomialElement.ofName?_of_ofFamily {α : Type} [Scalar α] {family : String} {cell : ReferenceCell}
    {degree : ℕ} {x : PolynomialElement α} (h : ofFamily family cell degree = .ok x) :
    TimeFamily.ofName? family = none := by
  unfold TimeFamily.ofName?
  split
  · simp [ofFamily] at h
    split_ifs at h
  · simp [ofFamily] at h
    split_ifs at h
  · rfl

namespace Descriptor

/-- The cell of the descriptor is read from a part that lives on the cell it names. -/
def NamesCell : Descriptor → Prop
  | simple family cell _ => TimeFamily.ofName? family ≠ none → cell = .simple .interval
  | mixed [] => False
  | mixed (d :: _) => d.NamesCell
  | restricted d _ => d.NamesCell
  | enriched a _ => a.NamesCell
  | product a b => a.NamesCell ∧ b.NamesCell
  | wrapped _ d => d.NamesCell
  | other _ => False

/-- Whether the descriptor names the given cell is told by its parts alone. -/
def Locates (d : Descriptor) (c : Cell) : Prop := d.cell = some c ↔ d.NamesCell

theorem Locates.empty (c : Cell) : (mixed []).Locates c := by
  simp [Locates, cell, NamesCell]

theorem Locates.first {d : Descriptor} {c : Cell} (h : d.Locates c) (ds : List Descriptor) :
    (mixed (d :: ds)).Locates c := by
  rw [Locates, cell, NamesCell]
  exact h

theorem Locates.restricted {d : Descriptor} {c : Cell} (h : d.Locates c) (domain : Domain) :
    (restricted d domain).Locates c := by
  rw [Locates, cell, NamesCell]
  exact h

theorem Locates.product {a b : Descriptor} {ca cb : Cell} (ha : a.Locates ca) (hb : b.Locates cb) :
    (product a b).Locates (.product ca cb) := by
  have hcell : (Descriptor.product a b).cell = some (.product ca cb) ↔
      a.cell = some ca ∧ b.cell = some cb := by
    rw [cell]
    cases a.cell <;> cases b.cell <;> simp
  rw [Locates, hcell, NamesCell]
  exact and_congr ha hb

end Descriptor

namespace Element
open Descriptor

variable {α : Type} [Scalar α]

/-- A time element lives on the interval, the elements of all other families on the cell they are asked for. -/
theorem OfFamily.cell_eq {family : String} {cell : Cell} {degree : ℕ} {e : Element α}
    (h : OfFamily family cell degree e) :
    e.cell = if TimeFamily.ofName? family = none then cell else .simple .interval := by
  have hregular {c : ReferenceCell} {x : PolynomialElement α} (hx : x.Regular c) :
      Cell.simple x.cell = .simple c := congrArg Cell.simple hx.1
  cases h with
  | reals hfamily hcell hx =>
    subst hfamily hcell
    exact hregular (PolynomialElement.ofFamily_regular hx)
  | @time f x hfamily hx =>
    subst hfamily
    have hcell := (PolynomialElement.create_ok (TimeFamily.create_ok hx).2).1
    cases f <;> exact congrArg Cell.simple hcell
  | quadrature hfamily _ =>
    subst hfamily
    rfl
  | polynomial hcell hx =>
    subst hcell
    rw [if_pos]
    · exact hregular (PolynomialElement.ofFamily_regular hx)
    · exact PolynomialElement.ofName?_of_ofFamily hx

theorem OfFamily.locates {family : String} {cell : Cell} {degree : ℕ} {n : Option ℕ} {e : Element α}
    (h : OfFamily family cell degree e) : (simple family cell n).Locates e.cell := by
  rw [Locates, Descriptor.cell, NamesCell, h.cell_eq, Option.some_inj]
  split_ifs with hname <;> simp [hname]

theorem restrictLeaf_locates {d : Descriptor} {domain : Domain} {e : Element α}
    (h : restrictLeaf (d, domain) = .ok e) : d.Locates e.cell := by
  cases d with
  | simple family cell degree =>
    obtain ⟨a, indices, ha, -, rfl⟩ := restrictFamily_ok h
    exact (ofFamily_ok ha).2.locates
  | _ => cases h

/-- A part that is restricted by itself. -/
theorem restrictedLeaf_locates {d : Descriptor} (domain : Domain) {parts : List (Element α)} {c : Cell}
    (h : [(d, domain)].mapM restrictLeaf = .ok parts) (hc : ∀ a ∈ parts, a.cell = c) : d.Locates c := by
  rw [List.mapM_cons, Result.bind_eq_ok] at h
  obtain ⟨e, he, hparts⟩ := h
  obtain rfl : parts = [e] := (Except.ok.inj hparts).symm
  rw [← hc e (List.mem_singleton_self e)]
  exact restrictLeaf_locates he

mutual

theorem restrictedLeaves_locates : ∀ (domain : Domain) (d : Descriptor) {parts : List (Element α)} {c : Cell},
    (d.restrictedLeaves domain).mapM restrictLeaf = .ok parts → (∀ a ∈ parts, a.cell = c) → d.Locates c
  | domain, .mixed ds, _, _, h, hc => by
    rw [restrictedLeaves] at h
    exact restrictedLeavesOfList_locates domain ds h hc
  | _, .restricted d inner, _, _, h, hc => by
    rw [restrictedLeaves] at h
    exact (restrictedLeaves_locates inner d h hc).restricted inner
  | domain, .simple _ _ _, _, _, h, hc => restrictedLeaf_locates domain h hc
  | domain, .enriched _ _, _, _, h, hc => restrictedLeaf_locates domain h hc
  | domain, .product _ _, _, _, h, hc => restrictedLeaf_locates domain h hc
  | domain, .wrapped _ _, _, _, h, hc => restrictedLeaf_locates domain h hc
  | domain, .other _, _, _, h, hc => restrictedLeaf_locates domain h hc

theorem restrictedLeavesOfList_locates : ∀ (domain : Domain) (ds : List Descriptor)
    {parts : List (Element α)} {c : Cell},
    (restrictedLeavesOfList domain ds).mapM restrictLeaf = .ok parts → (∀ a ∈ parts, a.cell = c) →
      (Descriptor.mixed ds).Locates c
  | _, [], _, c, _, _ => .empty c
  | domain, d :: ds, _, _, h, hc => by
    rw [restrictedLeavesOfList, List.mapM_append] at h
    simp only [Result.bind_eq_ok, Result.pure_eq_ok] at h
    obtain ⟨first, hfirst, rest, -, rfl⟩ := h
    exact (restrictedLeaves_locates domain d hfirst fun a ha => hc a (List.mem_append_left _ ha)).first ds

end

theorem direct_locates :
    (∀ (d : Descriptor) (e : Element α), direct d = .ok e → d.Locates e.cell) ∧
    ∀ (ds : List Descriptor) (parts : List (Element α)) (c : Cell), directParts ds = .ok parts →
      (∀ a ∈ parts, a.cell = c) → (Descriptor.mixed ds).Locates c := by
  -- The parts of a sum all live on its cell, so the first of them locates it.
  apply resolution_induction
  case simple =>
    intro family cell degree e h
    rw [direct] at h
    have hlocates := (ofFamily_ok h).2.locates (n := degree)
    rwa [Locates, Descriptor.cell, NamesCell, TimeFamily.ofName?_canonicalFamily] at hlocates
  case enriched =>
    intro a b ha _ e h
    simp only [direct, Result.bind_eq_ok] at h
    obtain ⟨x, hx, y, -, h⟩ := h
    obtain rfl := enrich_ok h
    rw [Locates, Descriptor.cell, NamesCell]
    exact ha x hx
  case product =>
    intro a b ha hb e h
    simp only [direct, Result.bind_eq_ok] at h
    obtain ⟨x, hx, y, hy, h⟩ := h
    obtain rfl := tensor_ok h
    exact (ha x hx).product (hb y hy)
  case wrapped =>
    intro space d hd e h
    rw [direct] at h
    split_ifs at h
    obtain ⟨x, hx, h⟩ := Result.bind_eq_ok.mp h
    obtain ⟨a, b, c, rfl, -, rfl⟩ := wrap_ok h
    have hlocates : d.Locates (product a b none).cell := hd _ hx
    rw [Locates, Descriptor.cell, NamesCell]
    exact hlocates
  case mixed =>
    intro ds hds e h
    rw [direct, Result.bind_eq_ok] at h
    obtain ⟨parts, hparts, h⟩ := h
    exact hds parts e.cell hparts fun a => cell_of_mem_parts h
  case restrictedSum =>
    intro ds domain e h
    rw [direct, Result.bind_eq_ok] at h
    obtain ⟨parts, hparts, h⟩ := h
    exact (restrictedLeavesOfList_locates domain ds hparts fun a => cell_of_mem_parts h).restricted domain
  case restricted =>
    intro d domain hd e h
    rw [direct] at h
    · exact (restrictLeaf_locates h).restricted domain
    · exact hd
  case other =>
    intro name e h
    rw [direct] at h
    cases h
  case nil => exact fun parts c _ _ => .empty c
  case sum =>
    intro inner ds hinner _ parts c h hc
    simp only [directParts, Result.bind_eq_ok, Result.pure_eq_ok] at h
    obtain ⟨first, hfirst, rest, -, rfl⟩ := h
    exact (hinner first c hfirst fun a ha => hc a (List.mem_append_left _ ha)).first ds
  case restrictedPart =>
    intro d domain ds _ parts c h hc
    simp only [directParts, Result.bind_eq_ok, Result.pure_eq_ok] at h
    obtain ⟨first, hfirst, rest, -, rfl⟩ := h
    have hlocates := restrictedLeaves_locates domain d hfirst fun a ha => hc a (List.mem_append_left _ ha)
    exact (hlocates.restricted domain).first ds
  case part =>
    intro d ds hmixed hrestricted hd _ parts c h hc
    rw [directParts] at h
    · simp only [Result.bind_eq_ok, Result.pure_eq_ok] at h
      obtain ⟨first, hfirst, rest, -, rfl⟩ := h
      rw [← hc first List.mem_cons_self]
      exact (hd first hfirst).first ds
    all_goals assumption

end Element

namespace Resolve

/-- Whatever was resolved before, an element lives on the cell of its descriptor exactly when the descriptor
reads its cell from a part that names the cell it lives on. -/
theorem answerAfter_cell {α : Type} [Scalar α] {earlier : List Descriptor} {d : Descriptor} {e : Element α}
    (h : answerAfter earlier d = .ok e) : d.cell = some e.cell ↔ d.NamesCell := by
  rw [answerAfter_eq] at h
  exact Element.direct_locates.1 d e h

theorem exists_of_cell (earlier : List Descriptor) (d : Descriptor) (c : Cell)
    (h : (answerAfter earlier d : Result (Element Float)).toOption.map (·.cell) = some c) :
    ∃ e : Element Float, answerAfter earlier d = .ok e ∧ e.cell = c := by
  obtain ⟨e, he, hcell⟩ := Option.map_eq_some_iff.mp h
  exact ⟨e, Result.toOption_eq_some.mp he, hcell⟩

end Resolve

namespace Descriptor

/-- Products on a prism, one of them in a sum of its own. -/
def onPrism : Descriptor :=
  .mixed [
    .mixed [.product (.simple "DG" (.simple .triangle) (some 0)) (.simple "Lobatto" (.simple .interval) (some 1))],
    .product (.simple "Lagrange" (.simple .triangle) (some 1)) (.simple "Radau" (.simple .interval) (some 0))]

/-- A time element that is asked for on a triangle. -/
def timeOnTriangle : Descriptor := .simple "Radau" (.simple .triangle) (some 0)

/-- A sum that starts with an empty sum. -/
def emptyFirst : Descriptor := .mixed [.mixed [], .simple "Radau" (.simple .interval) (some 0)]

end Descriptor

namespace Resolve
open Descriptor

theorem answerAfter_cell_onPrism : ∃ e : Element Float, answerAfter [timeOnTriangle] onPrism = .ok e ∧
    onPrism.NamesCell ∧ onPrism.cell = some e.cell := by
  obtain ⟨e, he, -⟩ := exists_of_cell [timeOnTriangle] onPrism (.product (.simple .triangle) (.simple .interval))
    (by decide +kernel)
  have hnames : onPrism.NamesCell := by simp [onPrism, NamesCell, TimeFamily.ofName?]
  exact ⟨e, he, hnames, (answerAfter_cell he).mpr hnames⟩

/-- Elements that do not live on the cell of their descriptor. -/
theorem answerAfter_cell_fails :
    (∃ e : Element Float, answerAfter [] timeOnTriangle = .ok e ∧ timeOnTriangle.cell ≠ some e.cell) ∧
      ∃ e : Element Float, answerAfter [] emptyFirst = .ok e ∧ emptyFirst.cell ≠ some e.cell := by
  constructor
  · obtain ⟨e, he, hcell⟩ := exists_of_cell [] timeOnTriangle (.simple .interval) (by decide +kernel)
    refine ⟨e, he, ?_⟩
    rw [hcell]
    decide
  · obtain ⟨e, he, hcell⟩ := exists_of_cell [] emptyFirst (.simple .interval) (by decide +kernel)
    refine ⟨e, he, ?_⟩
    rw [hcell]
    decide

end Resolve
end Variational
