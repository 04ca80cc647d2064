import Variational.Proofs.SharedClasses
import Variational.Proofs.ValueBlocks

/-! Labels of nodes. The nodes of an element or dof map come after their parts, every node has a label of its
own, and the label is read back from the name of the class of the node. -/
namespace Variational

/-- All elements of a list are in a relation to what comes before them. -/
def Sequential {β : Type} (P : List β → β → Prop) (xs : List β) : Prop :=
  ∀ (before : List β) (x : β) (after : List β), xs = before ++ x :: after → P before x

namespace Sequential

variable {β : Type} {P : List β → β → Prop} {xs ys : List β}

theorem nil : Sequential P [] := fun before x after h => by simp at h

theorem append (hxs : Sequential P xs) (hys : Sequential (fun before => P (xs ++ before)) ys) :
    Sequential P (xs ++ ys) := by
  intro before x after h
  rcases List.append_eq_append_iff.mp h with ⟨rest, rfl, hrest⟩ | ⟨rest, rfl, hrest⟩
  · exact hys rest x after hrest
  · cases rest with
    | nil =>
      have hlast := hys [] x after hrest.symm
      rwa [List.append_nil, List.append_nil] at hlast
    | cons y rest =>
      obtain ⟨rfl, -⟩ := List.cons.inj hrest
      exact hxs before x rest rfl

theorem singleton {x : β} (h : P [] x) : Sequential P [x] := by
  intro before y after heq
  cases before with
  | nil =>
    obtain ⟨rfl, -⟩ := List.cons.inj heq
    exact h
  | cons z before => simp at heq

theorem of_forall (h : ∀ x ∈ xs, ∀ before, P before x) : Sequential P xs := by
  intro before x after heq
  refine h x ?_ before
  rw [heq]
  exact List.mem_append_cons_self

theorem mono {Q : List β → β → Prop} (h : Sequential P xs)
    (hPQ : ∀ before, ∀ x ∈ xs, P before x → Q before x) : Sequential Q xs := by
  intro before x after heq
  refine hPQ before x ?_ (h before x after heq)
  rw [heq]
  exact List.mem_append_cons_self

/-- What holds after fewer elements holds after more, so lists can be joined. -/
theorem flatten {lists : List (List β)} (hP : ∀ more before x, P before x → P (more ++ before) x)
    (h : ∀ xs ∈ lists, Sequential P xs) : Sequential P lists.flatten := by
  induction lists with
  | nil => exact nil
  | cons xs lists ih =>
    rw [List.forall_mem_cons] at h
    exact append h.1 (mono (ih h.2) fun before x _ => hP xs before x)

end Sequential

namespace Naming

section Labels

variable {delimiter : Char}

/-- Numbers with a delimiter after each of them are read back one by one. -/
theorem delimited_inj (hdelimiter : delimiter.isDigit = false) {l m : List ℕ}
    (h : l.flatMap (fun n => (toString n).toList ++ [delimiter]) =
      m.flatMap fun n => (toString n).toList ++ [delimiter]) : l = m := by
  induction l generalizing m with
  | nil =>
    cases m with
    | nil => rfl
    | cons n m => simp at h
  | cons n l ih =>
    cases m with
    | nil => simp at h
    | cons k m =>
      simp only [List.flatMap_cons, List.append_assoc, List.singleton_append] at h
      obtain ⟨hnumber, hrest⟩ :=
        append_delimiter_inj (delimiter_notMem_toString hdelimiter n) (delimiter_notMem_toString hdelimiter k) h
      rw [toString_toList_inj hnumber, ih hrest]

theorem delimited_label (separator : String) {l : List ℕ} (h : l ≠ []) :
    (MultiIndex.label separator l).toList ++ separator.toList =
      l.flatMap fun n => (toString n).toList ++ separator.toList := by
  obtain ⟨l, n, rfl⟩ := List.eq_nil_or_concat' l |>.resolve_left h
  rw [toList_label_concat, List.flatMap_append, List.flatMap_map]
  simp

/-- A label is read back from the name of its class. -/
theorem ofLabel_inj {stem : String} {l m : List ℕ} (hl : l ≠ []) (hm : m ≠ [])
    (h : ofLabel stem l = ofLabel stem m) : l = m := by
  have hdelimited := (delimited_label "_" hl).symm.trans
    ((congrArg (· ++ "_".toList) (toList_label_of_ofLabel h)).trans (delimited_label "_" hm))
  exact delimited_inj rfl hdelimited

end Labels

section Nodes

variable {β : Type} (numParts : β → ℕ)

/-- The labels of the parts of a node are among the given ones; a single part has none. -/
def PartsIn (before : List (Labelled β)) (x : Labelled β) : Prop :=
  numParts x.node ≠ 1 → ∀ i < numParts x.node, x.label ++ [i] ∈ before.map (·.label)

/-- The nodes of trees whose roots have the given labels. They lie below the roots, each has a label of its
own, and each comes after its parts. -/
structure Forest (roots : List (List ℕ)) (nodes : List (Labelled β)) : Prop where
  below : ∀ x ∈ nodes, ∃ label ∈ roots, label <+: x.label
  roots : ∀ label ∈ roots, label ∈ nodes.map (·.label)
  nodup : (nodes.map (·.label)).Nodup
  parts : Sequential (PartsIn numParts) nodes

variable {numParts}

theorem PartsIn.mono {before : List (Labelled β)} {x : Labelled β} (h : PartsIn numParts before x)
    (more : List (Labelled β)) : PartsIn numParts (more ++ before) x := by
  intro hparts i hi
  rw [List.map_append]
  exact List.mem_append_right _ (h hparts i hi)

theorem Forest.leaf (label : List ℕ) {node : β} (h : numParts node = 1) :
    Forest numParts [label] [⟨label, node⟩] where
  below := by simp
  roots := by simp
  nodup := List.nodup_singleton _
  parts := .singleton fun hparts => absurd h hparts

/-- A tree is the trees of its parts with the root behind them. -/
theorem Forest.node (label : List ℕ) {node : β} {nodes : List (Labelled β)}
    (h : Forest numParts ((List.range (numParts node)).map fun i => label ++ [i]) nodes) :
    Forest numParts [label] (nodes ++ [⟨label, node⟩]) where
  below x hx := by
    refine ⟨label, List.mem_singleton_self _, ?_⟩
    rcases List.mem_append.mp hx with hx | hx
    · obtain ⟨inner, hinner, hbelow⟩ := h.below x hx
      obtain ⟨i, -, rfl⟩ := List.mem_map.mp hinner
      exact (List.prefix_append label [i]).trans hbelow
    · rw [List.mem_singleton.mp hx]
  roots := by simp
  nodup := by
    rw [List.map_append, List.map_singleton, List.nodup_append]
    refine ⟨h.nodup, List.nodup_singleton _, ?_⟩
    rintro _ hx _ hroot rfl
    obtain ⟨x, hx, hlabel⟩ := List.mem_map.mp hx
    obtain ⟨inner, hinner, hbelow⟩ := h.below x hx
    obtain ⟨i, -, rfl⟩ := List.mem_map.mp hinner
    have hlength := hbelow.length_le
    rw [hlabel, List.mem_singleton.mp hroot, List.length_append, List.length_singleton] at hlength
    dsimp only at hlength
    omega
  parts := by
    refine h.parts.append (.singleton fun _ i hi => ?_)
    rw [List.append_nil]
    exact h.roots _ (List.mem_map_of_mem (List.mem_range.mpr hi))

/-- Trees with roots of one depth are apart if the roots are. -/
theorem Forest.flatMap {γ : Type} {xs : List γ} {label : γ → List ℕ} {nodes : γ → List (Labelled β)}
    {depth : ℕ} (h : ∀ x ∈ xs, Forest numParts [label x] (nodes x))
    (hdepth : ∀ x ∈ xs, (label x).length = depth) (hlabels : (xs.map label).Nodup) :
    Forest numParts (xs.map label) (xs.flatMap nodes) where
  below y hy := by
    obtain ⟨x, hx, hy⟩ := List.mem_flatMap.mp hy
    obtain ⟨root, hroot, hbelow⟩ := (h x hx).below y hy
    rw [List.mem_singleton.mp hroot] at hbelow
    exact ⟨label x, List.mem_map_of_mem hx, hbelow⟩
  roots := by
    refine List.forall_mem_map.mpr fun x hx => ?_
    obtain ⟨y, hy, hlabel⟩ := List.mem_map.mp ((h x hx).roots (label x) (List.mem_singleton_self _))
    exact List.mem_map.mpr ⟨y, List.mem_flatMap.mpr ⟨x, hx, hy⟩, hlabel⟩
  nodup := by
    rw [List.map_flatMap, List.nodup_flatMap]
    refine ⟨fun x hx => (h x hx).nodup, ?_⟩
    rw [List.Nodup, List.pairwise_map] at hlabels
    refine hlabels.imp_of_mem fun {x y} hx hy hne => ?_
    rw [Function.onFun, List.disjoint_left]
    intro l hlx hly
    obtain ⟨a, ha, rfl⟩ := List.mem_map.mp hlx
    obtain ⟨b, hb, hlabel⟩ := List.mem_map.mp hly
    obtain ⟨_, hrootx, hx'⟩ := (h x hx).below a ha
    obtain ⟨_, hrooty, hy'⟩ := (h y hy).below b hb
    rw [List.mem_singleton.mp hrootx] at hx'
    rw [List.mem_singleton.mp hrooty, hlabel] at hy'
    apply hne
    refine (List.prefix_of_prefix_length_le hx' hy' ?_).eq_of_length ?_ <;> rw [hdepth x hx, hdepth y hy]
  parts := by
    rw [List.flatMap_def]
    exact .flatten (fun more _ _ hparts => hparts.mono more)
      (List.forall_mem_map.mpr fun x hx => (h x hx).parts)

/-- Other nodes in the same places with the same numbers of parts, where a node without parts may be its
own part. -/
theorem Forest.map {γ : Type} {numParts' : γ → ℕ} {roots : List (List ℕ)} {nodes : List (Labelled β)}
    (h : Forest numParts roots nodes) (f : β → γ)
    (hparts : ∀ x ∈ nodes, numParts' (f x.node) = numParts x.node ∨ numParts' (f x.node) = 1) :
    Forest numParts' roots (nodes.map fun x => ⟨x.label, f x.node⟩) where
  below := List.forall_mem_map.mpr h.below
  roots := by
    rw [List.map_map]
    exact h.roots
  nodup := by
    rw [List.map_map]
    exact h.nodup
  parts := by
    intro before y after heq hone i hi
    obtain ⟨before, rest, hnodes, rfl, hrest⟩ := List.map_eq_append_iff.mp heq
    obtain ⟨x, after, rfl, rfl, -⟩ := List.map_eq_cons_iff.mp hrest
    have hx : x ∈ nodes := hnodes ▸ List.mem_append_cons_self
    have hsame := (hparts x hx).resolve_right hone
    rw [List.map_map]
    exact h.parts before x after hnodes (hsame ▸ hone) i (hsame ▸ hi)

end Nodes

end Naming

namespace Element
open Naming

variable {α : Type}

theorem flattenParts_eq (label : List ℕ) (i : ℕ) (es : List (Element α)) :
    flattenParts label i es = (es.zipIdx i).flatMap fun x => x.1.flatten (label ++ [x.2]) := by
  induction es generalizing i with
  | nil => rfl
  | cons e es ih => rw [flattenParts, ih, List.zipIdx_cons, List.flatMap_cons]

theorem flatten_other {e : Element α} (h : ∀ es, e ≠ mixed es) (label : List ℕ) :
    e.flatten label = [⟨label, e⟩] := by
  cases e with
  | mixed es => exact absurd rfl (h es)
  | _ => rfl

theorem numParts_other {e : Element α} (h : ∀ es, e ≠ mixed es) : e.numParts = 1 := by
  cases e with
  | mixed es => exact absurd rfl (h es)
  | _ => rfl

/-- A sum of one part is not opened. -/
theorem flatten_mixed (label : List ℕ) (es : List (Element α)) :
    (mixed es).flatten label =
      (if es.length = 1 then [] else flattenParts label 0 es) ++ [⟨label, mixed es⟩] := by
  match es with
  | [] => rfl
  | [e] => rfl
  | e :: e' :: es => simp [flatten]

theorem forest_flatten (e : Element α) : ∀ label, Forest numParts [label] (e.flatten label) := by
  induction e using mixed_induction with
  | other e h =>
    intro label
    rw [flatten_other h]
    exact .leaf label (numParts_other h)
  | sum es ih =>
    intro label
    rw [flatten_mixed]
    split_ifs with hone
    · exact .leaf label hone
    apply Forest.node
    have hlabels : (List.range (mixed es).numParts).map (fun i => label ++ [i]) =
        es.zipIdx.map fun x => label ++ [x.2] := by
      rw [numParts, List.range_eq_range', ← List.zipIdx_map_snd, List.map_map]
      rfl
    rw [hlabels, flattenParts_eq]
    refine Forest.flatMap (fun x hx => ih x.1 (List.fst_mem_of_mem_zipIdx hx) _)
      (fun x _ => List.length_append) ?_
    · rw [← hlabels]
      refine List.nodup_range.map fun i j hij => ?_
      simpa using hij

end Element

namespace DofMap
open Naming

variable {α : Type} [Scalar α]

theorem flattenParts_eq (label : List ℕ) (i : ℕ) (ms : List DofMap) :
    flattenParts label i ms = (ms.zipIdx i).flatMap fun x => x.1.flatten (label ++ [x.2]) := by
  induction ms generalizing i with
  | nil => rfl
  | cons m ms ih => rw [flattenParts, ih, List.zipIdx_cons, List.flatMap_cons]

theorem flatten_eq (label : List ℕ) (m : DofMap) :
    m.flatten label =
      (if m.parts.length = 1 then [] else flattenParts label 0 m.parts) ++ [⟨label, m⟩] := by
  obtain ⟨signature, cell, localDimension, entityDofs, parts⟩ := m
  match parts with
  | [] => rfl
  | [m] => rfl
  | m :: m' :: ms => simp [flatten]

/-- The nodes of the dof map of an element are those of the element. -/
theorem flatten_ofElement (e : Element α) : ∀ label,
    (ofElement e).flatten label = (e.flatten label).map fun x => ⟨x.label, ofElement x.node⟩ := by
  induction e using Element.mixed_induction with
  | other e h =>
    intro label
    have hparts : e.parts = [] := by
      cases e with
      | mixed es => exact absurd rfl (h es)
      | _ => rfl
    rw [Element.flatten_other h, flatten_eq, parts_ofElement, hparts]
    rfl
  | sum es ih =>
    intro label
    rw [flatten_eq, Element.flatten_mixed, parts_ofElement, Element.parts, List.length_map,
      List.map_append]
    split_ifs
    · rfl
    rw [flattenParts_eq, Element.flattenParts_eq, List.zipIdx_map, List.flatMap_map, List.map_flatMap]
    refine congrArg (· ++ _) (List.flatMap_congr fun x hx => ?_)
    exact ih x.1 (List.fst_mem_of_mem_zipIdx hx) _

theorem numParts_ofElement (e : Element α) :
    (ofElement e).numParts = e.numParts ∨ (ofElement e).numParts = 1 := by
  rw [numParts, parts_ofElement]
  cases e with
  | mixed es =>
    cases es with
    | nil => exact .inr rfl
    | cons e es => exact .inl (by simp [Element.parts, Element.numParts])
  | _ => exact .inr rfl

end DofMap

namespace Form
open Naming

variable {α : Type}

theorem elements_numbers (f : Form α) : (f.elements.map Prod.fst).Nodup := by
  have hsublist (es : List (Option (Element α))) (k : ℕ) :
      (((es.zipIdx k).filterMap fun x => x.1.map fun e => (x.2, e)).map Prod.fst).Sublist
        (List.range' k es.length) := by
    induction es generalizing k with
    | nil => exact List.Sublist.slnil
    | cons e es ih =>
      rw [List.zipIdx_cons, List.length_cons, List.range'_succ]
      cases e with
      | none => exact (ih (k + 1)).cons k
      | some e => exact (ih (k + 1)).cons_cons k
  exact (hsublist _ 0).nodup List.nodup_range'

theorem forest_elementNodes [Scalar α] (f : Form α) :
    Forest Element.numParts (f.elements.map fun x => [x.1]) f.elementNodes := by
  refine Forest.flatMap (fun x _ => x.2.forest_flatten [x.1]) (fun _ _ => List.length_singleton) ?_
  have hnodup := f.elements_numbers.map (f := fun n => [n]) fun m n h => by simpa using h
  rwa [List.map_map] at hnodup

variable [Scalar α]

theorem dofMapNodes_eq (f : Form α) :
    f.dofMapNodes = f.elementNodes.map fun x => ⟨x.label, DofMap.ofElement x.node⟩ := by
  rw [dofMapNodes, elementNodes, dofMaps, List.flatMap_map, List.map_flatMap]
  exact List.flatMap_congr fun x _ => DofMap.flatten_ofElement x.2 [x.1]

theorem forest_dofMapNodes (f : Form α) :
    Forest DofMap.numParts (f.elements.map fun x => [x.1]) f.dofMapNodes := by
  rw [dofMapNodes_eq]
  exact f.forest_elementNodes.map _ fun x _ => DofMap.numParts_ofElement x.node

end Form
end Variational
