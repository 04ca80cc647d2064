import Variational.Proofs.NodeLabels

/-! Paths of nodes. The label of a node is the path of part numbers that leads to it, every path leads to one
node, and a node comes after everything below it. -/
namespace Variational

namespace Naming

section Paths

variable {β : Type} (numParts : β → ℕ) (part : β → ℕ → β)

/-- The part numbers that lead from a node to one below it. A node with a single part is not opened. -/
inductive Leads : β → List ℕ → β → Prop
  | here (x : β) : Leads x [] x
  | part {x y : β} {i : ℕ} {path : List ℕ} :
      numParts x ≠ 1 → i < numParts x → Leads (part x i) path y → Leads x (i :: path) y

/-- A node below the root, labelled with the label of the root and the path to it. -/
def Reached (root : β) (label : List ℕ) (x : Labelled β) : Prop :=
  ∃ path, x.label = label ++ path ∧ Leads numParts part root path x.node

/-- The nodes of a tree: all that are reached from the root. No label is used twice, and a node comes after
all nodes below it. -/
structure Flattens (root : β) (label : List ℕ) (nodes : List (Labelled β)) : Prop where
  paths : ∀ x, x ∈ nodes ↔ Reached numParts part root label x
  distinct : (nodes.map (·.label)).Nodup
  order : Sequential (fun before x =>
    ∀ y ∈ nodes, x.label <+: y.label → x.label ≠ y.label → y ∈ before) nodes

variable {numParts part}

namespace Leads

theorem cons_iff {x y : β} {i : ℕ} {path : List ℕ} :
    Leads numParts part x (i :: path) y ↔
      numParts x ≠ 1 ∧ i < numParts x ∧ Leads numParts part (part x i) path y := by
  refine ⟨?_, fun ⟨hone, hi, h⟩ => .part hone hi h⟩
  rintro (_ | ⟨hone, hi, h⟩)
  exact ⟨hone, hi, h⟩

theorem nil_iff {x y : β} : Leads numParts part x [] y ↔ y = x := by
  constructor
  · rintro ⟨⟩
    rfl
  · rintro rfl
    exact .here y

theorem of_single {x y : β} {path : List ℕ} (hx : numParts x = 1) :
    Leads numParts part x path y ↔ path = [] ∧ y = x := by
  cases path with
  | nil => simp [nil_iff]
  | cons i path => simp [cons_iff, hx]

theorem mem_leaf {r : β} {label : List ℕ} {x : Labelled β} (hr : numParts r = 1) :
    x ∈ [⟨label, r⟩] ↔ Reached numParts part r label x := by
  obtain ⟨xlabel, node⟩ := x
  simp [Reached, of_single hr]

/-- A path passes through the node that its first steps lead to. -/
theorem of_append {x y z : β} {path rest : List ℕ} (hy : Leads numParts part x path y)
    (hz : Leads numParts part x (path ++ rest) z) : Leads numParts part y rest z := by
  induction hy with
  | here x => exact hz
  | part hone hi _ ih => exact ih (cons_iff.mp hz).2.2

end Leads

/-- What a path leads to comes before where the path starts. The path is walked from its start on: the first
part lies before the start, with the rest of the path still to be walked. -/
theorem Forest.mem_before {root : β} {label : List ℕ} {nodes : List (Labelled β)}
    (h : Forest numParts [label] nodes) (hpaths : ∀ x, x ∈ nodes ↔ Reached numParts part root label x)
    {path : List ℕ} (hpath : path ≠ []) : ∀ {before after : List (Labelled β)} {x y : Labelled β},
    nodes = before ++ x :: after → y ∈ nodes → y.label = x.label ++ path → y ∈ before := by
  induction path with
  | nil => exact absurd rfl hpath
  | cons i path ih =>
    intro before after x y hnodes hy hlabel
    obtain ⟨start, hstart, hx⟩ := (hpaths x).mp (hnodes ▸ List.mem_append_cons_self)
    obtain ⟨whole, hwhole, hroot⟩ := (hpaths y).mp hy
    obtain rfl : whole = start ++ i :: path := by
      rw [hwhole, hstart, List.append_assoc] at hlabel
      exact List.append_cancel_left hlabel
    obtain ⟨hone, hi, -⟩ := Leads.cons_iff.mp (hx.of_append hroot)
    obtain ⟨z, hz, hzlabel⟩ := List.mem_map.mp (h.parts before x after hnodes hone i hi)
    by_cases hrest : path = []
    · have hsame : y = z := by
        refine List.inj_on_of_nodup_map h.nodup hy (hnodes ▸ List.mem_append_left _ hz) ?_
        rw [hlabel, hrest, hzlabel]
      exact hsame ▸ hz
    obtain ⟨first, second, rfl⟩ := List.append_of_mem hz
    have hsplit : nodes = first ++ z :: (second ++ x :: after) := by
      rw [hnodes, List.append_assoc, List.cons_append]
    refine List.mem_append_left _ (ih hrest hsplit hy ?_)
    rw [hlabel, hzlabel, List.append_assoc, List.singleton_append]

theorem Forest.flattens {root : β} {label : List ℕ} {nodes : List (Labelled β)}
    (h : Forest numParts [label] nodes) (hpaths : ∀ x, x ∈ nodes ↔ Reached numParts part root label x) :
    Flattens numParts part root label nodes where
  paths := hpaths
  distinct := h.nodup
  order := by
    rintro before x after hnodes y hy ⟨path, hpath⟩ hne
    refine h.mem_before hpaths (fun hnil => hne ?_) hnodes hy hpath.symm
    rw [← hpath, hnil, List.append_nil]

end Paths

end Naming

namespace Element
open Naming

variable {α : Type}

/-- The part with a number. What is no sum is its own part. -/
def part : Element α → ℕ → Element α
  | mixed es, i => es.getD i (mixed es)
  | e, _ => e

theorem mem_flattenParts_iff {label : List ℕ} {es : List (Element α)} {x : Labelled (Element α)} :
    x ∈ flattenParts label 0 es ↔
      ∃ i < es.length, x ∈ ((mixed es).part i).flatten (label ++ [i]) := by
  rw [flattenParts_eq, List.mem_flatMap]
  constructor
  · rintro ⟨⟨e, i⟩, he, hx⟩
    have hi := List.mem_zipIdx_iff_getElem?.mp he
    refine ⟨i, (List.getElem?_eq_some_iff.mp hi).1, ?_⟩
    rwa [part, List.getD_eq_getElem?_getD, hi]
  · rintro ⟨i, hi, hx⟩
    refine ⟨(es[i], i), List.mem_zipIdx_iff_getElem?.mpr (List.getElem?_eq_getElem hi), ?_⟩
    rwa [part, List.getD_eq_getElem _ _ hi] at hx

theorem part_mixed_mem {es : List (Element α)} {i : ℕ} (hi : i < es.length) : (mixed es).part i ∈ es := by
  rw [part, List.getD_eq_getElem _ _ hi]
  exact List.getElem_mem hi

theorem mem_flatten_iff (e : Element α) : ∀ label (x : Labelled (Element α)),
    x ∈ e.flatten label ↔ Reached numParts part e label x := by
  induction e using mixed_induction with
  | other e h =>
    intro label x
    rw [flatten_other h]
    exact Leads.mem_leaf (numParts_other h)
  | sum es ih =>
    intro label x
    rw [flatten_mixed]
    split_ifs with hone
    · exact Leads.mem_leaf (r := mixed es) hone
    rw [List.mem_append, mem_flattenParts_iff, List.mem_singleton]
    constructor
    · rintro (⟨i, hi, hx⟩ | rfl)
      · obtain ⟨path, hlabel, hpath⟩ := (ih _ (part_mixed_mem hi) _ _).mp hx
        refine ⟨i :: path, ?_, .part hone hi hpath⟩
        rw [hlabel, List.append_assoc, List.singleton_append]
      · exact ⟨[], (List.append_nil _).symm, .here _⟩
    · obtain ⟨xlabel, node⟩ := x
      rintro ⟨path, hlabel, hpath⟩
      cases path with
      | nil =>
        obtain rfl : node = mixed es := Leads.nil_iff.mp hpath
        obtain rfl : xlabel = label := hlabel.trans (List.append_nil _)
        exact .inr rfl
      | cons i path =>
        obtain ⟨-, hi, hpath⟩ := Leads.cons_iff.mp hpath
        refine .inl ⟨i, hi, (ih _ (part_mixed_mem hi) _ _).mpr ⟨path, ?_, hpath⟩⟩
        rw [hlabel, List.append_assoc, List.singleton_append]

theorem flattens (e : Element α) (label : List ℕ) :
    Flattens numParts part e label (e.flatten label) :=
  (e.forest_flatten label).flattens (e.mem_flatten_iff label)

end Element

namespace DofMap
open Naming

variable {α : Type} [Scalar α]

/-- The part with a number. A dof map that is not opened is its own part. -/
def part (m : DofMap) (i : ℕ) : DofMap := if 1 < m.parts.length then m.parts.getD i m else m

/-- A dof map is opened where its element is, and its parts are those of the element. -/
theorem opened_ofElement {e : Element α} {i : ℕ} :
    (ofElement e).numParts ≠ 1 ∧ i < (ofElement e).numParts ↔ e.numParts ≠ 1 ∧ i < e.numParts := by
  rw [numParts, parts_ofElement]
  cases e with
  | mixed es => cases es <;> simp [Element.parts, Element.numParts]
  | _ => simp [Element.parts, Element.numParts]

theorem part_ofElement {e : Element α} {i : ℕ} (hone : e.numParts ≠ 1) (hi : i < e.numParts) :
    (ofElement e).part i = ofElement (e.part i) := by
  cases e with
  | mixed es =>
    change es.length ≠ 1 at hone
    change i < es.length at hi
    have hmany : 1 < es.length := by omega
    have hparts : (ofElement (.mixed es)).parts = es.map ofElement := parts_ofElement _
    rw [part, hparts, List.length_map, if_pos hmany, Element.part, List.getD_eq_getElem _ _ hi,
      List.getD_eq_getElem _ _ (by rwa [List.length_map]), List.getElem_map]
  | _ => exact absurd rfl hone

theorem leads_ofElement {path : List ℕ} : ∀ {e : Element α} {m : DofMap},
    Leads numParts part (ofElement e) path m ↔
      ∃ e', Leads Element.numParts Element.part e path e' ∧ m = ofElement e' := by
  induction path with
  | nil => simp [Leads.nil_iff]
  | cons i path ih =>
    intro e m
    simp only [Leads.cons_iff, ← and_assoc]
    rw [opened_ofElement]
    constructor
    · rintro ⟨⟨hone, hi⟩, h⟩
      rw [part_ofElement hone hi] at h
      obtain ⟨e', he', rfl⟩ := ih.mp h
      exact ⟨e', ⟨⟨hone, hi⟩, he'⟩, rfl⟩
    · rintro ⟨e', ⟨⟨hone, hi⟩, he'⟩, rfl⟩
      rw [part_ofElement hone hi]
      exact ⟨⟨hone, hi⟩, ih.mpr ⟨e', he', rfl⟩⟩

theorem mem_flatten_ofElement (e : Element α) (label : List ℕ) (x : Labelled DofMap) :
    x ∈ (ofElement e).flatten label ↔ Reached numParts part (ofElement e) label x := by
  rw [flatten_ofElement, List.mem_map]
  constructor
  · rintro ⟨y, hy, rfl⟩
    obtain ⟨path, hlabel, hpath⟩ := (e.mem_flatten_iff label y).mp hy
    exact ⟨path, hlabel, leads_ofElement.mpr ⟨y.node, hpath, rfl⟩⟩
  · rintro ⟨path, hlabel, hpath⟩
    obtain ⟨e', he', hnode⟩ := leads_ofElement.mp hpath
    refine ⟨⟨x.label, e'⟩, (e.mem_flatten_iff label _).mpr ⟨path, hlabel, he'⟩, ?_⟩
    rw [← hnode]

theorem flattens_ofElement (e : Element α) (label : List ℕ) :
    Flattens numParts part (ofElement e) label ((ofElement e).flatten label) := by
  refine Forest.flattens ?_ (mem_flatten_ofElement e label)
  rw [flatten_ofElement]
  exact (e.forest_flatten label).map _ fun x _ => numParts_ofElement x.node

end DofMap

/-- An element and its dof map have their nodes in the same order under the same labels, and at each label is
the dof map of the element there. In both the labels are the paths to the nodes, they are distinct, and a node
comes after everything below it. -/
theorem flatten_agrees {α : Type} [Scalar α] (e : Element α) (label : List ℕ) :
    (DofMap.ofElement e).flatten label =
        (e.flatten label).map (fun x => ⟨x.label, DofMap.ofElement x.node⟩) ∧
      Naming.Flattens Element.numParts Element.part e label (e.flatten label) ∧
      Naming.Flattens DofMap.numParts DofMap.part (DofMap.ofElement e) label
        ((DofMap.ofElement e).flatten label) :=
  ⟨DofMap.flatten_ofElement e label, e.flattens label, DofMap.flattens_ofElement e label⟩

end Variational
