import Mathlib
import Variational.Proofs.Composition
import Variational.Proofs.DofPartition

/-! Signatures can be read back: where a text goes on after the signature of an element, the element and
the rest of the text are determined. So resolved elements with one signature are equal. -/
namespace Variational

/-- The text before the first of two delimiters. -/
theorem append_delimiter_inj {c : Char} {xs ys r s : List Char} (hx : c ∉ xs) (hy : c ∉ ys)
    (h : xs ++ c :: r = ys ++ c :: s) : xs = ys ∧ r = s := by
  induction xs generalizing ys with
  | nil =>
    cases ys with
    | nil => exact ⟨rfl, (List.cons.inj h).2⟩
    | cons y ys => exact absurd (List.cons.inj h).1 (List.ne_of_not_mem_cons hy)
  | cons x xs ih =>
    cases ys with
    | nil => exact absurd (List.cons.inj h).1.symm (List.ne_of_not_mem_cons hx)
    | cons y ys =>
      obtain ⟨hxy, h⟩ := List.cons.inj h
      obtain ⟨hxs, hr⟩ := ih (List.not_mem_of_not_mem_cons hx) (List.not_mem_of_not_mem_cons hy) h
      exact ⟨congrArg₂ List.cons hxy hxs, hr⟩

section Numbers

variable {m n : ℕ}

theorem isDigit_of_mem_toString {c : Char} (h : c ∈ (toString n).toList) : c.isDigit = true := by
  rw [Nat.toString_eq_repr, Nat.toList_repr] at h
  exact Nat.isDigit_of_mem_toDigits (by norm_num) (by norm_num) h

theorem delimiter_notMem_toString {delimiter : Char} (hdelimiter : delimiter.isDigit = false) (n : ℕ) :
    delimiter ∉ (toString n).toList := by
  intro h
  rw [isDigit_of_mem_toString h] at hdelimiter
  cases hdelimiter

theorem toString_toList_inj (h : (toString m).toList = (toString n).toList) : m = n :=
  Nat.repr_inj.mp (String.toList_inj.mp h)

theorem length_digit (h : n < 10) : (toString n).toList.length = 1 := by
  rw [Nat.toString_eq_repr, Nat.toList_repr, Nat.toDigits_of_lt_base h]
  rfl

end Numbers

/-- Texts that can be read back one at a time can be read back as a list up to the closing bracket. -/
theorem intercalate_append_inj {β : Type} (text : β → List Char) {xs ys : List β} (hx : xs ≠ [])
    (hy : ys ≠ []) (hread : ∀ x ∈ xs, ∀ y ∈ ys, ∀ {r s : List Char},
      text x ++ r = text y ++ s → x = y ∧ r = s) {r s : List Char}
    (h : ", ".toList.intercalate (xs.map text) ++ (")".toList ++ r) =
      ", ".toList.intercalate (ys.map text) ++ (")".toList ++ s)) : xs = ys ∧ r = s := by
  simp only [String.reduceToList, List.singleton_append] at h
  induction xs generalizing ys with
  | nil => exact absurd rfl hx
  | cons x xs ih =>
    obtain ⟨y, ys, rfl⟩ := List.exists_cons_of_ne_nil hy
    have hfirst {r s : List Char} (h : text x ++ r = text y ++ s) : x = y ∧ r = s :=
      hread x List.mem_cons_self y List.mem_cons_self h
    rcases xs with - | ⟨x', xs⟩ <;> rcases ys with - | ⟨y', ys⟩
    · simp only [List.map_cons, List.map_nil, List.intercalate_singleton] at h
      obtain ⟨rfl, hrest⟩ := hfirst h
      exact ⟨rfl, (List.cons.inj hrest).2⟩
    · simp only [List.map_cons, List.map_nil, List.intercalate_singleton,
        List.intercalate_cons_cons, List.append_assoc] at h
      exact absurd (hfirst h).2 (by simp)
    · simp only [List.map_cons, List.map_nil, List.intercalate_singleton,
        List.intercalate_cons_cons, List.append_assoc] at h
      exact absurd (hfirst h).2 (by simp)
    · simp only [List.map_cons, List.intercalate_cons_cons, List.append_assoc] at h
      obtain ⟨rfl, hrest⟩ := hfirst h
      obtain ⟨htail, hr⟩ := @ih (y' :: ys) (by simp) (by simp)
        (fun a ha b hb => hread a (List.mem_cons_of_mem x ha) b (List.mem_cons_of_mem x hb))
        (List.append_cancel_left hrest)
      exact ⟨congrArg (x :: ·) htail, hr⟩

theorem ReferenceCell.name_append_inj {a b : ReferenceCell} {r s : List Char}
    (h : a.name.toList ++ r = b.name.toList ++ s) : a = b ∧ r = s := by
  cases a <;> cases b <;> simp_all [ReferenceCell.name]

namespace Cell

theorem name_simple (c : ReferenceCell) : (simple c).name = c.name := rfl

theorem name_product (a b : Cell) :
    (product a b).name = "OuterProductCell(" ++ a.name ++ ", " ++ b.name ++ ")" := rfl

theorem name_append_inj {a b : Cell} {r s : List Char}
    (h : a.name.toList ++ r = b.name.toList ++ s) : a = b ∧ r = s := by
  induction a generalizing b r s with
  | simple c =>
    cases b with
    | simple d =>
      rw [name_simple, name_simple] at h
      obtain ⟨hcell, hrest⟩ := ReferenceCell.name_append_inj h
      exact ⟨congrArg simple hcell, hrest⟩
    | product b₁ b₂ => cases c <;> simp [name_simple, name_product, ReferenceCell.name] at h
  | product a₁ a₂ ih₁ ih₂ =>
    cases b with
    | simple d => cases d <;> simp [name_simple, name_product, ReferenceCell.name] at h
    | product b₁ b₂ =>
      simp only [name_product, String.toList_append, List.append_assoc] at h
      obtain ⟨rfl, h₁⟩ := ih₁ (List.append_cancel_left h)
      obtain ⟨rfl, h₂⟩ := ih₂ (List.append_cancel_left h₁)
      exact ⟨rfl, List.append_cancel_left h₂⟩

/-- No cell is called `interior`. -/
theorem name_append_ne_interior (c : Cell) (r s : List Char) :
    c.name.toList ++ r ≠ "interior".toList ++ s := by
  intro h
  cases c with
  | simple c => cases c <;> simp [name_simple, ReferenceCell.name] at h
  | product a b => simp [name_product] at h

end Cell

/-- Names of the domains that an element can be restricted to. -/
theorem Domain.name_append_inj {a b : Domain} (ha : ∀ name, a ≠ .other name)
    (hb : ∀ name, b ≠ .other name) {r s : List Char} (h : a.name.toList ++ r = b.name.toList ++ s) :
    a = b ∧ r = s := by
  cases a with
  | interior =>
    cases b with
    | interior => exact ⟨rfl, List.append_cancel_left h⟩
    | upTo c => exact absurd h.symm (c.name_append_ne_interior s r)
    | other name => exact absurd rfl (hb name)
  | upTo c =>
    cases b with
    | interior => exact absurd h (c.name_append_ne_interior r s)
    | upTo d =>
      obtain ⟨rfl, hrest⟩ := Cell.name_append_inj h
      exact ⟨rfl, hrest⟩
    | other name => exact absurd rfl (hb name)
  | other name => exact absurd rfl (ha name)

theorem SobolevSpace.name_append_inj {a b : SobolevSpace} {r s : List Char}
    (h : a.name.toList ++ r = b.name.toList ++ s) : a = b ∧ r = s := by
  cases a <;> cases b <;> simp_all [SobolevSpace.name]

theorem toString_append_inj {m n : ℕ} {r s : List Char}
    (h : (toString m).toList ++ ')' :: r = (toString n).toList ++ ')' :: s) : m = n ∧ r = s := by
  obtain ⟨htext, hrest⟩ :=
    append_delimiter_inj (delimiter_notMem_toString rfl m) (delimiter_notMem_toString rfl n) h
  exact ⟨toString_toList_inj htext, hrest⟩

namespace PolynomialElement

variable {α : Type} [Scalar α]

/-- The element bears the names that it was asked for with. -/
structure Named (e : PolynomialElement α) (family : String) (cell : ReferenceCell) (degree : ℕ) :
    Prop where
  family_eq : e.family = family
  cell_eq : e.cell = cell
  degree_eq : e.degree = degree

theorem create_named {family : String} {cell : ReferenceCell} {degree : ℕ} {valueShape : List ℕ}
    {span : List (List (List α))} {functionals : List (Functional α)} {entityDofs : EntityDofs}
    {map : ValueMap} {embeddedDegree : ℕ} {e : PolynomialElement α}
    (h : create family cell degree valueShape span functionals entityDofs map embeddedDegree = .ok e) :
    e.Named family cell degree := by
  obtain ⟨coefficients, -, rfl⟩ := exists_dualBasis h
  exact ⟨rfl, rfl, rfl⟩

theorem ofFamily_named {family : String} {cell : ReferenceCell} {degree : ℕ} {e : PolynomialElement α}
    (h : ofFamily family cell degree = .ok e) : e.Named family cell degree := by
  cases ofFamily_ok h with
  | values h => exact create_named h
  | components _ _ h => exact create_named h
  | interior hx h =>
    obtain ⟨coefficients, -, rfl⟩ := subset_ok h
    obtain ⟨-, hcell, hdegree⟩ := create_named hx
    exact ⟨rfl, hcell, hdegree⟩

end PolynomialElement

theorem TimeFamily.create_named {α : Type} [Scalar α] {f : TimeFamily} {degree : ℕ}
    {e : PolynomialElement α} (h : f.create degree = .ok e) : e.Named f.name .interval degree :=
  PolynomialElement.create_named (create_ok h).2

namespace Element

variable {α : Type} [Scalar α]

/-- The signature of an element of a family. -/
def familySignature (family : String) (cell : Cell) (degree : ℕ) : String :=
  "FiniteElement('" ++ family ++ "', " ++ cell.name ++ ", " ++ toString degree ++ ")"

theorem familySignature_append_inj {family family' : String} (h : family ∈ supportedFamilies)
    (h' : family' ∈ supportedFamilies) {cell cell' : Cell} {degree degree' : ℕ} {r s : List Char}
    (htext : (familySignature family cell degree).toList ++ r =
      (familySignature family' cell' degree').toList ++ s) :
    family = family' ∧ cell = cell' ∧ degree = degree' ∧ r = s := by
  have hquote : ∀ f ∈ supportedFamilies, '\'' ∉ f.toList := by simp [supportedFamilies]
  unfold familySignature at htext
  simp only [String.toList_append, String.reduceToList, List.append_assoc, List.cons_append,
    List.nil_append, List.cons.injEq, true_and] at htext
  obtain ⟨hfamily, hafter⟩ := append_delimiter_inj (hquote family h) (hquote family' h') htext
  simp only [List.cons.injEq, true_and] at hafter
  obtain ⟨hcell, hafter'⟩ := Cell.name_append_inj hafter
  simp only [List.cons.injEq, true_and] at hafter'
  obtain ⟨hdegree, hrest⟩ := toString_append_inj hafter'
  exact ⟨String.toList_inj.mp hfamily, hcell, hdegree, hrest⟩

/-- An element of a family is found again under the family, cell and degree that it has from outside,
which its signature shows. -/
theorem ofFamily_layout {family : String} {cell : Cell} {degree : Option ℕ} {e : Element α}
    (h : ofFamily family cell degree = .ok e) :
    e.layout.family ∈ supportedFamilies ∧
      ofFamily e.layout.family e.layout.cell (some e.layout.degree) = .ok e ∧
      e.signature = familySignature e.layout.family e.layout.cell e.layout.degree := by
  obtain ⟨hsupported, hkind⟩ := ofFamily_ok h
  -- Constants show degree zero and time elements show the interval, whatever they were asked for with.
  cases hkind with
  | @reals c x hfamily hcell hx =>
    subst hfamily hcell
    obtain ⟨-, rfl, hdegree⟩ := PolynomialElement.ofFamily_named hx
    refine ⟨hsupported, h, ?_⟩
    change "FiniteElement('Real', " ++ x.cell.name ++ ", 0)" =
      familySignature "Real" (.simple x.cell) x.degree
    unfold familySignature
    rw [hdegree, Cell.name_simple, ← String.toList_inj]
    simp
  | @time f x hfamily hx =>
    subst hfamily
    obtain ⟨hfamily, hcell, hdegree⟩ := TimeFamily.create_named hx
    rw [← hfamily] at hsupported
    refine ⟨hsupported, ?_, rfl⟩
    change ofFamily x.family (.simple x.cell) (some x.degree) = _
    rw [hfamily, hdegree]
    cases f <;> exact h
  | quadrature hfamily hrule =>
    subst hfamily
    exact ⟨hsupported, h, rfl⟩
  | @polynomial c x hcell hx =>
    subst hcell
    obtain ⟨rfl, rfl, hdegree⟩ := PolynomialElement.ofFamily_named hx
    refine ⟨hsupported, ?_, rfl⟩
    change ofFamily x.family (.simple x.cell) (some x.degree) = _
    rw [hdegree]
    exact h

theorem signature_mixed (parts : List (Element α)) : (mixed parts).signature =
    "MixedElement(" ++ ", ".intercalate (parts.map signature) ++ ")" := by
  change "MixedElement(" ++ ", ".intercalate ((layouts parts).map (·.signature)) ++ ")" = _
  rw [layouts_eq_map, List.map_map]
  rfl

theorem signature_restricted (e : Element α) (indices : List ℕ) (domain : Domain) :
    (restricted e indices domain).signature =
      "RestrictedElement(" ++ e.signature ++ ", " ++ domain.name ++ ")" := rfl

theorem signature_enriched (a b : Element α) : (enriched a b).signature =
    "EnrichedElement(" ++ a.signature ++ ", " ++ b.signature ++ ")" := rfl

theorem signature_product (a b : Element α) : (product a b none).signature =
    "OuterProductElement(" ++ a.signature ++ ", " ++ b.signature ++ ")" := rfl

theorem signature_wrapped (a b : Element α) (w : Wrapping) : (product a b (some w)).signature =
    w.space.name ++ "(" ++ (product a b none).signature ++ ")" := rfl

/-- Elements as resolution builds them: what a composite element has besides its parts follows from
them. -/
inductive Built : Element α → Prop
  | family {family : String} {cell : Cell} {degree : Option ℕ} {e : Element α}
    (h : ofFamily family cell degree = .ok e) : Built e
  | mixed {parts : List (Element α)} (hne : parts ≠ []) (hparts : ∀ e ∈ parts, Built e) :
    Built (mixed parts)
  | restricted {e : Element α} {domain : Domain} {indices : List ℕ} (he : Built e)
    (hindices : selectIndices e.layout domain = .ok indices) : Built (restricted e indices domain)
  | enriched {a b : Element α} (ha : Built a) (hb : Built b) : Built (enriched a b)
  | product {a b : Element α} (ha : Built a) (hb : Built b) : Built (product a b none)
  | wrapped {a b : Element α} {w : Wrapping} (ha : Built a) (hb : Built b)
    (hw : wrappingComponent? w.space a.layout b.layout = some w.component) :
    Built (product a b (some w))

theorem Built.factors {a b : Element α} (h : Built (Element.product a b none)) : Built a ∧ Built b := by
  cases h with
  | family h => cases (ofFamily_ok h).2
  | product ha hb => exact ⟨ha, hb⟩

theorem closed_built : Closed (Built : Element α → Prop) where
  family h := .family h
  restrict he hindices := .restricted he hindices
  enrich ha hb h := by
    obtain rfl := enrich_ok h
    exact .enriched ha hb
  tensor ha hb h := by
    obtain rfl := tensor_ok h
    exact .product ha hb
  wrap hx h := by
    obtain ⟨a, b, c, rfl, hc, rfl⟩ := wrap_ok h
    exact .wrapped hx.factors.1 hx.factors.2 hc
  mix hparts h := by
    obtain ⟨first, rest, rfl, -⟩ := mix_compatible h
    obtain rfl := mix_ok h
    exact .mixed (List.cons_ne_nil first rest) hparts

theorem built_of_ofDescriptor {d : Descriptor} {e : Element α} (h : ofDescriptor d = .ok e) : e.Built :=
  (closed_built.resolve d .empty (Cache.all_empty Built)).2.2 e h

theorem selectIndices_ne_other {l : Layout} {domain : Domain} {indices : List ℕ}
    (h : selectIndices l domain = .ok indices) (name : String) : domain ≠ .other name := by
  rintro rfl
  cases h

/-- The first letter of a signature. -/
def initial : Element α → Char
  | mixed _ => 'M'
  | restricted _ _ _ => 'R'
  | enriched _ _ => 'E'
  | product _ _ none => 'O'
  | product _ _ (some _) => 'H'
  | _ => 'F'

theorem initial_of_family {family : String} {cell : Cell} {degree : Option ℕ} {e : Element α}
    (h : ofFamily family cell degree = .ok e) : e.initial = 'F' := by
  cases (ofFamily_ok h).2 <;> rfl

theorem Built.head?_signature {e : Element α} (h : e.Built) :
    e.signature.toList.head? = some e.initial := by
  cases h with
  | family h =>
    rw [(ofFamily_layout h).2.2, initial_of_family h]
    unfold familySignature
    simp
  | mixed _ _ => simp [signature_mixed, initial]
  | restricted _ _ => simp [signature_restricted, initial]
  | enriched _ _ => simp [signature_enriched, initial]
  | product _ _ => simp [signature_product, initial]
  | @wrapped _ _ w _ _ _ =>
    rw [signature_wrapped]
    cases w.space <;> simp [SobolevSpace.name, initial]

/-- A text that begins with the signature of the element and also with the signature of an element that
is built begins twice with the same one. -/
def Readable (e : Element α) : Prop :=
  ∀ {e' : Element α} {r s : List Char}, e'.Built →
    e.signature.toList ++ r = e'.signature.toList ++ s → e = e' ∧ r = s

theorem initial_eq {e e' : Element α} (he : e.Built) (he' : e'.Built) {r s : List Char}
    (h : e.signature.toList ++ r = e'.signature.toList ++ s) : e.initial = e'.initial := by
  have hhead := congrArg List.head? h
  simpa [he.head?_signature, he'.head?_signature] using hhead

theorem readable_of_family {family : String} {cell : Cell} {degree : Option ℕ} {e : Element α}
    (h : ofFamily family cell degree = .ok e) : e.Readable := by
  intro e' r s he' htext
  have hinitial := initial_eq (.family h) he' htext
  rw [initial_of_family h] at hinitial
  cases he' with
  | family h' =>
    obtain ⟨hsupported, hself, hsignature⟩ := ofFamily_layout h
    obtain ⟨hsupported', hself', hsignature'⟩ := ofFamily_layout h'
    rw [hsignature, hsignature'] at htext
    obtain ⟨hfamily, hcell, hdegree, hrest⟩ :=
      familySignature_append_inj hsupported hsupported' htext
    rw [hfamily, hcell, hdegree, hself'] at hself
    exact ⟨(Except.ok.inj hself).symm, hrest⟩
  | _ => cases hinitial

theorem readable_mixed {parts : List (Element α)} (hne : parts ≠ []) (hbuilt : ∀ e ∈ parts, e.Built)
    (hparts : ∀ e ∈ parts, e.Readable) : (mixed parts).Readable := by
  intro e' r s he' htext
  have hinitial := initial_eq (.mixed hne hbuilt) he' htext
  cases he' with
  | mixed hne' hparts' =>
    simp only [signature_mixed, String.toList_append, String.toList_intercalate, List.append_assoc,
      List.map_map] at htext
    obtain ⟨rfl, hrest⟩ := intercalate_append_inj _ hne hne'
      (fun x hx y hy => hparts x hx (hparts' y hy)) (List.append_cancel_left htext)
    exact ⟨rfl, hrest⟩
  | family h' => rw [initial_of_family h'] at hinitial; cases hinitial
  | _ => cases hinitial

theorem readable_restricted {e : Element α} {domain : Domain} {indices : List ℕ} (he : e.Built)
    (hindices : selectIndices e.layout domain = .ok indices) (hread : e.Readable) :
    (restricted e indices domain).Readable := by
  intro e' r s he' htext
  have hinitial := initial_eq (.restricted he hindices) he' htext
  cases he' with
  | restricted he' hindices' =>
    simp only [signature_restricted, String.toList_append, List.append_assoc] at htext
    obtain ⟨rfl, hdomain⟩ := hread he' (List.append_cancel_left htext)
    obtain ⟨rfl, hrest⟩ := Domain.name_append_inj (selectIndices_ne_other hindices)
      (selectIndices_ne_other hindices') (List.append_cancel_left hdomain)
    obtain rfl := Except.ok.inj (hindices.symm.trans hindices')
    exact ⟨rfl, List.append_cancel_left hrest⟩
  | family h' => rw [initial_of_family h'] at hinitial; cases hinitial
  | _ => cases hinitial

/-- Two signatures between a comma and a bracket. -/
theorem Readable.pair {a b a' b' : Element α} (ha : a.Readable) (hb : b.Readable) (ha' : a'.Built)
    (hb' : b'.Built) {r s : List Char}
    (h : a.signature.toList ++ (", ".toList ++ (b.signature.toList ++ (")".toList ++ r))) =
      a'.signature.toList ++ (", ".toList ++ (b'.signature.toList ++ (")".toList ++ s)))) :
    a = a' ∧ b = b' ∧ r = s := by
  obtain ⟨hfirst, hsecond⟩ := ha ha' h
  obtain ⟨hsecond, hrest⟩ := hb hb' (List.append_cancel_left hsecond)
  exact ⟨hfirst, hsecond, List.append_cancel_left hrest⟩

theorem readable_enriched {a b : Element α} (ha : a.Built) (hb : b.Built) (hreada : a.Readable)
    (hreadb : b.Readable) : (enriched a b).Readable := by
  intro e' r s he' htext
  have hinitial := initial_eq (.enriched ha hb) he' htext
  cases he' with
  | enriched ha' hb' =>
    simp only [signature_enriched, String.toList_append, List.append_assoc] at htext
    obtain ⟨rfl, rfl, hrest⟩ := hreada.pair hreadb ha' hb' (List.append_cancel_left htext)
    exact ⟨rfl, hrest⟩
  | family h' => rw [initial_of_family h'] at hinitial; cases hinitial
  | _ => cases hinitial

theorem readable_product {a b : Element α} (ha : a.Built) (hb : b.Built) (hreada : a.Readable)
    (hreadb : b.Readable) : (product a b none).Readable := by
  intro e' r s he' htext
  have hinitial := initial_eq (.product ha hb) he' htext
  cases he' with
  | product ha' hb' =>
    simp only [signature_product, String.toList_append, List.append_assoc] at htext
    obtain ⟨rfl, rfl, hrest⟩ := hreada.pair hreadb ha' hb' (List.append_cancel_left htext)
    exact ⟨rfl, hrest⟩
  | family h' => rw [initial_of_family h'] at hinitial; cases hinitial
  | _ => cases hinitial

theorem readable_wrapped {a b : Element α} {w : Wrapping} (ha : a.Built) (hb : b.Built)
    (hw : wrappingComponent? w.space a.layout b.layout = some w.component) (hreada : a.Readable)
    (hreadb : b.Readable) : (product a b (some w)).Readable := by
  intro e' r s he' htext
  have hinitial := initial_eq (.wrapped ha hb hw) he' htext
  cases he' with
  | @wrapped a' b' w' ha' hb' hw' =>
    simp only [signature_wrapped, String.toList_append, List.append_assoc] at htext
    obtain ⟨hspace, hinner⟩ := SobolevSpace.name_append_inj htext
    obtain ⟨hproduct, hrest⟩ := readable_product ha hb hreada hreadb (.product ha' hb')
      (List.append_cancel_left hinner)
    obtain ⟨rfl, rfl, -⟩ := Element.product.inj hproduct
    rw [hspace, hw'] at hw
    obtain rfl : w = w' := by
      cases w
      cases w'
      simp_all
    exact ⟨rfl, List.append_cancel_left hrest⟩
  | family h' => rw [initial_of_family h'] at hinitial; cases hinitial
  | _ => cases hinitial

theorem Built.readable {e : Element α} (h : e.Built) : e.Readable := by
  induction h with
  | family h => exact readable_of_family h
  | mixed hne hparts ih => exact readable_mixed hne hparts ih
  | restricted he hindices ih => exact readable_restricted he hindices ih
  | enriched ha hb iha ihb => exact readable_enriched ha hb iha ihb
  | product ha hb iha ihb => exact readable_product ha hb iha ihb
  | wrapped ha hb hw iha ihb => exact readable_wrapped ha hb hw iha ihb

/-- An element that is built is known by its signature. -/
theorem Built.eq_of_signature {e e' : Element α} (he : e.Built) (he' : e'.Built)
    (h : e.signature = e'.signature) : e = e' :=
  (he.readable he' (congrArg (·.toList ++ []) h)).1

end Element
end Variational
