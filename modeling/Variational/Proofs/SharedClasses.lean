import Mathlib
import Variational.Header.FormClass
import Variational.Proofs.FormElements
import Variational.Proofs.Signatures

/-! Classes under other names. A class is a pattern in its own name and the names of its parts, so nodes
that are equal get the same class up to these names. Signatures identify the nodes of resolved elements,
so every further name for a class stands for the class that its node would have got. -/
namespace Variational
namespace Code

/-- Other names for the classes of which instances are created. -/
def Value.rename (f : String → String) : Value → Value
  | .create c => .create (f c)
  | v => v

def Body.rename {α : Type} (f : String → String) : Body α → Body α
  | .returns v => .returns (v.rename f)
  | .select argument cases v =>
    .select argument (cases.map fun (k, w) => (k, w.rename f)) (v.rename f)
  | b => b

/-- Another name for the class and for those that its members create. -/
def Class.rename {α : Type} (f : String → String) (c : Class α) : Class α :=
  { c with
    name := f c.name
    members := c.members.map fun m => { m with body := m.body.rename f } }

section Rename

variable {α : Type} (f : String → String)

@[simp] theorem Value.rename_create (c : String) : (create c).rename f = create (f c) := rfl
@[simp] theorem Value.rename_plain (s : String) : (plain s).rename f = plain s := rfl
@[simp] theorem Value.rename_quoted (s : String) : (quoted s).rename f = quoted s := rfl
@[simp] theorem Value.rename_number (n : ℕ) : (number n).rename f = number n := rfl
@[simp] theorem Value.rename_truth (b : Bool) : (truth b).rename f = truth b := rfl

@[simp] theorem Body.rename_returns (v : Value) :
    (returns v : Body α).rename f = returns (v.rename f) := rfl

@[simp] theorem Body.rename_select (argument : String) (cases : List (ℕ × Value)) (v : Value) :
    (select argument cases v : Body α).rename f =
      select argument (cases.map fun (k, w) => (k, w.rename f)) (v.rename f) := rfl

@[simp] theorem Body.rename_run (blocks : List (Block α)) : (run blocks).rename f = run blocks := rfl
@[simp] theorem Body.rename_idle : (idle : Body α).rename f = idle := rfl

end Rename
end Code

namespace Naming
open Code

variable {α β : Type}

theorem intercalate_concat {γ : Type} (sep : List γ) (xs : List (List γ)) (x : List γ) :
    sep.intercalate (xs ++ [x]) = xs.flatMap (· ++ sep) ++ x := by
  induction xs with
  | nil => simp
  | cons y ys ih =>
    rw [List.flatMap_cons, List.append_assoc, ← ih]
    cases ys <;> simp [List.intercalate_cons_cons]

theorem toList_label_concat (separator : String) (label : List ℕ) (i : ℕ) :
    (MultiIndex.label separator (label ++ [i])).toList =
      (label.map fun n => (toString n).toList).flatMap (· ++ separator.toList) ++ (toString i).toList := by
  unfold MultiIndex.label
  rw [String.toList_intercalate, List.map_append, List.map_append, List.map_singleton,
    List.map_singleton, intercalate_concat, List.map_map]
  rfl

theorem toList_label_of_ofLabel {stem : String} {l m : List ℕ} (h : ofLabel stem l = ofLabel stem m) :
    (MultiIndex.label "_" l).toList = (MultiIndex.label "_" m).toList := by
  unfold ofLabel at h
  rw [← String.toList_inj] at h
  simp only [String.toList_append] at h
  exact List.append_cancel_left h

theorem ofLabel_concat_inj {stem : String} {label : List ℕ} {i j : ℕ}
    (h : ofLabel stem (label ++ [i]) = ofLabel stem (label ++ [j])) : i = j := by
  have hlabel := toList_label_of_ofLabel h
  rw [toList_label_concat, toList_label_concat] at hlabel
  exact toString_toList_inj (List.append_cancel_left hlabel)

/-- No part is named like the whole. -/
theorem ofLabel_concat_ne (stem : String) (label : List ℕ) (i : ℕ) :
    ofLabel stem (label ++ [i]) ≠ ofLabel stem label := by
  intro h
  have hlabel := congrArg List.length (toList_label_of_ofLabel h)
  rcases List.eq_nil_or_concat' label with rfl | ⟨l, k, rfl⟩
  · rw [toList_label_concat] at hlabel
    simp [MultiIndex.label] at hlabel
  · rw [toList_label_concat, toList_label_concat] at hlabel
    simp at hlabel

theorem ofParts_nodup (stem : String) (label : List ℕ) (n : ℕ) :
    (ofLabel stem label :: ofParts stem label n).Nodup := by
  unfold ofParts
  split_ifs
  · exact List.nodup_singleton _
  · rw [List.nodup_cons]
    constructor
    · intro hmem
      obtain ⟨i, -, hi⟩ := List.mem_map.mp hmem
      exact ofLabel_concat_ne stem label i hi
    · exact List.nodup_range.map fun i j => ofLabel_concat_inj

theorem length_ofParts (stem : String) (label label' : List ℕ) (n : ℕ) :
    (ofParts stem label n).length = (ofParts stem label' n).length := by
  unfold ofParts
  split_ifs <;> simp

theorem exists_map_eq {xs ys : List String} (hxs : xs.Nodup) (hlength : xs.length = ys.length) :
    ∃ f : String → String, xs.map f = ys := by
  refine ⟨fun x => ys.getD (xs.idxOf x) "", List.ext_getElem (by simpa) fun i hi hi' => ?_⟩
  rw [List.length_map] at hi
  simp [hxs.idxOf_getElem, List.getElem?_eq_getElem hi']

/-- Other names that take the names of one place to those of another. -/
theorem exists_renaming (stem : String) (label label' : List ℕ) (n : ℕ) :
    ∃ f : String → String, f (ofLabel stem label) = ofLabel stem label' ∧
      (ofParts stem label n).map f = ofParts stem label' n := by
  have hlength : (ofLabel stem label :: ofParts stem label n).length =
      (ofLabel stem label' :: ofParts stem label' n).length := by
    simp [length_ofParts stem label label' n]
  obtain ⟨f, hf⟩ := exists_map_eq (ofParts_nodup stem label n) hlength
  rw [List.map_cons] at hf
  obtain ⟨hname, hparts⟩ := List.cons.inj hf
  exact ⟨f, hname, hparts⟩

theorem instances_map (f : String → String) (name : String) (parts : List String) :
    instances (f name) (parts.map f) = (instances name parts).map fun (i, v) => (i, v.rename f) := by
  cases parts with
  | nil => rfl
  | cons p ps => simp [instances, List.zipIdx_map, List.map_map, Function.comp_def, Prod.map]

namespace Scheme

/-- The class of a node under the names of its place. -/
def classOf (s : Scheme α β) (stem : String) (x : Labelled β) : Result (Class α) :=
  s.define (ofLabel stem x.label) (ofParts stem x.label (s.numParts x.node)) x.node

/-- What stands for a node after the nodes before it: its own class, or another name for the class of an
earlier node with its signature. -/
inductive Entry (s : Scheme α β) (stem : String) (earlier : List (Labelled β × Item α))
    (x : Labelled β) : Item α → Prop
  | define {c : Class α} (h : s.classOf stem x = .ok c) : Entry s stem earlier x (.define c)
  | rename {y : Labelled β} {c : Class α} (hy : (y, .define c) ∈ earlier)
    (hc : s.classOf stem y = .ok c) (hsignature : s.signature y.node = s.signature x.node) :
    Entry s stem earlier x (.rename (ofLabel stem y.label) (ofLabel stem x.label))

/-- Every signature that is known belongs to an earlier node with a class of the name that is kept. -/
def Records (s : Scheme α β) (stem : String) (earlier : List (Labelled β × Item α))
    (known : List (String × String)) : Prop :=
  ∀ {signature first : String}, known.lookup signature = some first → ∃ y c,
    (y, .define c) ∈ earlier ∧ s.classOf stem y = .ok c ∧ s.signature y.node = signature ∧
      ofLabel stem y.label = first

theorem Records.mono {s : Scheme α β} {stem : String} {earlier more : List (Labelled β × Item α)}
    {known : List (String × String)} (h : s.Records stem earlier known) :
    s.Records stem (earlier ++ more) known := by
  intro signature first hfirst
  obtain ⟨y, c, hy, hrest⟩ := h hfirst
  exact ⟨y, c, List.mem_append_left more hy, hrest⟩

/-- One step: the entry of the first node, and the state in which the other nodes are read. -/
theorem items_cons_ok {s : Scheme α β} {stem : String} {known : List (String × String)}
    {earlier : List (Labelled β × Item α)} (hknown : s.Records stem earlier known) {x : Labelled β}
    {xs : List (Labelled β)} {items : List (Item α)} (h : s.items stem known (x :: xs) = .ok items) :
    ∃ item known' rest, items = item :: rest ∧ s.Entry stem earlier x item ∧
      s.Records stem (earlier ++ [(x, item)]) known' ∧ s.items stem known' xs = .ok rest := by
  rw [Scheme.items] at h
  split at h
  · rename_i first hfirst
    simp only [Result.bind_eq_ok, Result.pure_eq_ok] at h
    obtain ⟨rest, hrest, rfl⟩ := h
    obtain ⟨y, c, hy, hc, hsignature, rfl⟩ := hknown hfirst
    exact ⟨_, known, rest, rfl, .rename hy hc hsignature, hknown.mono, hrest⟩
  · simp only [Result.bind_eq_ok, Result.pure_eq_ok] at h
    obtain ⟨c, hc, rest, hrest, rfl⟩ := h
    refine ⟨_, _, rest, rfl, .define hc, ?_, hrest⟩
    intro signature first hfirst
    rw [List.lookup_cons] at hfirst
    split at hfirst
    · rename_i hsame
      obtain rfl := Option.some.inj hfirst
      exact ⟨x, c, by simp, hc, (beq_iff_eq.mp hsame).symm, rfl⟩
    · exact hknown.mono hfirst

/-- The run: every node has an entry. -/
theorem items_ok {s : Scheme α β} {stem : String} {known : List (String × String)}
    {earlier : List (Labelled β × Item α)} (hknown : s.Records stem earlier known)
    {nodes : List (Labelled β)} {items : List (Item α)} (h : s.items stem known nodes = .ok items) :
    items.length = nodes.length ∧ ∀ {before after x item},
      nodes.zip items = before ++ (x, item) :: after → s.Entry stem (earlier ++ before) x item := by
  induction nodes generalizing known earlier items with
  | nil =>
    obtain rfl := Except.ok.inj h
    exact ⟨rfl, fun h => by simp at h⟩
  | cons x xs ih =>
    obtain ⟨item, known', rest, rfl, hentry, hknown', hrest⟩ := items_cons_ok hknown h
    obtain ⟨hlength, hentries⟩ := ih hknown' hrest
    refine ⟨congrArg (· + 1) hlength, fun {before after y item'} hzip => ?_⟩
    rw [List.zip_cons_cons] at hzip
    cases before with
    | nil =>
      obtain ⟨hfirst, -⟩ := List.cons.inj hzip
      obtain ⟨rfl, rfl⟩ := Prod.mk.inj hfirst
      rwa [List.append_nil]
    | cons first before =>
      obtain ⟨rfl, htail⟩ := List.cons.inj hzip
      have htail := hentries htail
      rwa [List.append_assoc] at htail

/-- The classes of a scheme have the names that they are asked for with, and no other part of them
depends on names. -/
structure Uniform (s : Scheme α β) : Prop where
  name_eq {name : String} {parts : List String} {node : β} {c : Class α} :
    s.define name parts node = .ok c → c.name = name
  rename {name : String} {parts : List String} {node : β} {c : Class α} (f : String → String) :
    s.define name parts node = .ok c → s.define (f name) (parts.map f) node = .ok (c.rename f)

/-- Every node has a class or another name for an earlier one. Where it has another name, the class that it
would have got is the earlier one with the names of the earlier node and its parts replaced by those of
the node and its parts. -/
structure SharesClasses (s : Scheme α β) (stem : String) (nodes : List (Labelled β))
    (items : List (Item α)) : Prop where
  length_eq : items.length = nodes.length
  renamed {before after : List (Labelled β × Item α)} {x : Labelled β} {target name : String} :
    nodes.zip items = before ++ (x, .rename target name) :: after → ∃ y c f,
      (y, .define c) ∈ before ∧ c.name = target ∧ s.classOf stem x = .ok (c.rename f) ∧
      f target = name ∧
      (ofParts stem y.label (s.numParts y.node)).map f = ofParts stem x.label (s.numParts x.node)

/-- Signatures that identify nodes make sharing sound. -/
theorem Uniform.sharesClasses {s : Scheme α β} (hs : s.Uniform) {stem : String}
    {nodes : List (Labelled β)} (hnodes : ∀ x ∈ nodes, ∀ y ∈ nodes,
      s.signature x.node = s.signature y.node → x.node = y.node) {items : List (Item α)}
    (h : s.items stem [] nodes = .ok items) : s.SharesClasses stem nodes items := by
  have hknown : s.Records stem [] [] := fun h => by cases h
  obtain ⟨hlength, hentries⟩ := items_ok hknown h
  refine ⟨hlength, fun {before after x target name} hzip => ?_⟩
  cases hentries hzip with
  | @rename y c hy hc hsignature =>
    -- Both nodes stand in the list, so the signature that they share makes them equal.
    have hmem : ∀ entry ∈ before ++ (x, Item.rename (ofLabel stem y.label) (ofLabel stem x.label)) ::
        after, entry.1 ∈ nodes := by
      rw [← hzip]
      exact fun entry hentry => (List.of_mem_zip hentry).1
    rw [List.nil_append] at hy
    have hnode := hnodes y (hmem _ (List.mem_append_left _ hy)) x (hmem _ List.mem_append_cons_self)
      hsignature
    obtain ⟨f, hname, hparts⟩ := exists_renaming stem y.label x.label (s.numParts x.node)
    refine ⟨y, c, f, hy, hs.name_eq hc, ?_, hname, by rwa [hnode]⟩
    unfold classOf at hc ⊢
    rw [← hname, ← hparts, ← hnode]
    exact hs.rename f hc

end Scheme
end Naming

namespace ElementClass
open Code

variable {α : Type} [Scalar α]

theorem evaluation_rename {e : Element α} {b : Body α} (h : evaluation e = .ok b)
    (f : String → String) : b.rename f = b := by
  unfold evaluation at h
  dsimp only at h
  split at h
  · obtain rfl := Except.ok.inj h
    rfl
  · cases h
  · obtain rfl := Except.ok.inj h
    rfl

omit [Scalar α] in
theorem valueDimensions_rename (valueShape : List ℕ) (f : String → String) :
    (valueDimensions valueShape : Body α).rename f = valueDimensions valueShape := by
  simp [valueDimensions, Function.comp_def]

theorem scheme_uniform : (scheme : Naming.Scheme α (Element α)).Uniform where
  name_eq h := by
    simp only [scheme, define, Result.bind_eq_ok, Result.pure_eq_ok] at h
    obtain ⟨shape, -, evaluate, -, rfl⟩ := h
    rfl
  rename f h := by
    simp only [scheme, define, Result.bind_eq_ok, Result.pure_eq_ok] at h ⊢
    obtain ⟨shape, hshape, evaluate, hevaluate, rfl⟩ := h
    refine ⟨shape, hshape, evaluate, hevaluate, ?_⟩
    simp [Class.rename, Naming.instances_map, evaluation_rename hevaluate, valueDimensions_rename]

end ElementClass

namespace DofMapClass
open Code

variable {α : Type}

theorem facetNumbering_rename (facets : List (List ℕ)) (f : String → String) :
    (facetNumbering facets : Body α).rename f = facetNumbering facets := by
  unfold facetNumbering
  split <;> rfl

theorem scheme_uniform : (scheme : Naming.Scheme α DofMap).Uniform where
  name_eq h := by
    simp only [scheme, define, Result.bind_eq_ok, Result.pure_eq_ok] at h
    obtain ⟨facets, -, numFacetDofs, -, rfl⟩ := h
    rfl
  rename f h := by
    simp only [scheme, define, Result.bind_eq_ok, Result.pure_eq_ok] at h ⊢
    obtain ⟨facets, hfacets, numFacetDofs, hnumFacetDofs, rfl⟩ := h
    refine ⟨facets, hfacets, numFacetDofs, hnumFacetDofs, ?_⟩
    simp [Class.rename, Naming.instances_map, facetNumbering_rename, byDimension, Function.comp_def]

end DofMapClass

namespace Element

variable {α : Type} [Scalar α]

/-- A property that an element has if its parts have it. -/
theorem Built.induction_parts {P : Element α → Prop}
    (step : ∀ {e : Element α}, e.Built → (∀ a ∈ e.parts, P a) → P e) {e : Element α} (he : e.Built) :
    P e := by
  induction he with
  | family h =>
    refine step (.family h) ?_
    cases (ofFamily_ok h).2 <;> simp [Element.parts]
  | mixed hne hparts ih => exact step (.mixed hne hparts) ih
  | restricted he hindices _ => exact step (.restricted he hindices) (by simp [Element.parts])
  | enriched ha hb _ _ => exact step (.enriched ha hb) (by simp [Element.parts])
  | product ha hb _ _ => exact step (.product ha hb) (by simp [Element.parts])
  | wrapped ha hb hw _ _ => exact step (.wrapped ha hb hw) (by simp [Element.parts])

omit [Scalar α] in
theorem mem_flattenParts {label : List ℕ} {i : ℕ} {es : List (Element α)} {x : Labelled (Element α)}
    (h : x ∈ flattenParts label i es) : ∃ e ∈ es, ∃ inner, x ∈ e.flatten inner := by
  induction es generalizing i with
  | nil => simp [flattenParts] at h
  | cons e es ih =>
    rw [flattenParts, List.mem_append] at h
    rcases h with h | h
    · exact ⟨e, List.mem_cons_self, _, h⟩
    · obtain ⟨a, ha, inner, hx⟩ := ih h
      exact ⟨a, List.mem_cons_of_mem e ha, inner, hx⟩

omit [Scalar α] in
/-- A node is the root or belongs to a part. -/
theorem mem_flatten {label : List ℕ} {e : Element α} {x : Labelled (Element α)}
    (h : x ∈ e.flatten label) : x.node = e ∨ ∃ a ∈ e.parts, ∃ inner, x ∈ a.flatten inner := by
  unfold flatten at h
  split at h
  · rw [List.mem_singleton] at h
    exact .inl (congrArg Labelled.node h)
  · rcases List.mem_append.mp h with h | h
    · exact .inr (mem_flattenParts h)
    · rw [List.mem_singleton] at h
      exact .inl (congrArg Labelled.node h)
  · rw [List.mem_singleton] at h
    exact .inl (congrArg Labelled.node h)

theorem Built.flatten {e : Element α} (he : e.Built) {label : List ℕ} {x : Labelled (Element α)}
    (hx : x ∈ e.flatten label) : x.node.Built := by
  refine induction_parts (P := fun e => ∀ label, x ∈ e.flatten label → x.node.Built) ?_ he label hx
  intro e he ih label hx
  rcases mem_flatten hx with hroot | ⟨a, ha, inner, hx⟩
  · rwa [hroot]
  · exact ih a ha inner hx

end Element

namespace DofMap

theorem mem_flattenParts {label : List ℕ} {i : ℕ} {ms : List DofMap} {x : Labelled DofMap}
    (h : x ∈ flattenParts label i ms) : ∃ m ∈ ms, ∃ inner, x ∈ m.flatten inner := by
  induction ms generalizing i with
  | nil => simp [flattenParts] at h
  | cons m ms ih =>
    rw [flattenParts, List.mem_append] at h
    rcases h with h | h
    · exact ⟨m, List.mem_cons_self, _, h⟩
    · obtain ⟨a, ha, inner, hx⟩ := ih h
      exact ⟨a, List.mem_cons_of_mem m ha, inner, hx⟩

theorem mem_flatten {label : List ℕ} {m : DofMap} {x : Labelled DofMap} (h : x ∈ m.flatten label) :
    x.node = m ∨ ∃ a ∈ m.parts, ∃ inner, x ∈ a.flatten inner := by
  unfold flatten at h
  split at h
  · rw [List.mem_singleton] at h
    exact .inl (congrArg Labelled.node h)
  · rcases List.mem_append.mp h with h | h
    · exact .inr (mem_flattenParts h)
    · rw [List.mem_singleton] at h
      exact .inl (congrArg Labelled.node h)

variable {α : Type} [Scalar α]

theorem ofElements_eq_map (es : List (Element α)) : ofElements es = es.map ofElement := by
  induction es with
  | nil => rfl
  | cons e es ih => rw [ofElements, ih, List.map_cons]

theorem parts_ofElement (e : Element α) : (ofElement e).parts = e.parts.map ofElement := by
  cases e with
  | mixed es => exact ofElements_eq_map es
  | _ => rfl

theorem signature_ofElement (e : Element α) :
    (ofElement e).signature = "Dof map for " ++ e.signature := by
  cases e <;> rfl

/-- The nodes of the dof map of an element are the dof maps of elements. -/
theorem exists_of_mem_flatten {e : Element α} (he : e.Built) {label : List ℕ} {x : Labelled DofMap}
    (hx : x ∈ (ofElement e).flatten label) : ∃ a : Element α, a.Built ∧ x.node = ofElement a := by
  refine Element.Built.induction_parts (P := fun e => ∀ label, x ∈ (ofElement e).flatten label →
    ∃ a : Element α, a.Built ∧ x.node = ofElement a) ?_ he label hx
  intro e he ih label hx
  rcases mem_flatten hx with hroot | ⟨m, hm, inner, hx⟩
  · exact ⟨e, he, hroot⟩
  · rw [parts_ofElement] at hm
    obtain ⟨a, ha, rfl⟩ := List.mem_map.mp hm
    exact ih a ha inner hx

end DofMap

namespace Form

variable {α : Type} [Scalar α]

/-- The elements of the arguments and coefficients with all their parts. -/
def elementNodes (f : Form α) : List (Labelled (Element α)) :=
  f.elements.flatMap fun (n, e) => e.flatten [n]

/-- The dof maps of the arguments and coefficients with all their parts. -/
def dofMapNodes (f : Form α) : List (Labelled DofMap) :=
  f.dofMaps.flatMap fun (n, m) => m.flatten [n]

theorem Resolved.elementNodes {f : Form α} (hf : f.Resolved) {x : Labelled (Element α)}
    (hx : x ∈ f.elementNodes) : x.node.Built := by
  obtain ⟨entry, hentry, hx⟩ := List.mem_flatMap.mp hx
  obtain ⟨d, hd⟩ := hf entry hentry
  exact (Element.built_of_ofDescriptor hd).flatten hx

theorem Resolved.dofMapNodes {f : Form α} (hf : f.Resolved) {x : Labelled DofMap}
    (hx : x ∈ f.dofMapNodes) : ∃ a : Element α, a.Built ∧ x.node = DofMap.ofElement a := by
  obtain ⟨entry, hentry, hx⟩ := List.mem_flatMap.mp hx
  obtain ⟨⟨n, e⟩, he, rfl⟩ := List.mem_map.mp hentry
  obtain ⟨d, hd⟩ := hf (n, e) he
  exact DofMap.exists_of_mem_flatten (Element.built_of_ofDescriptor hd) hx

/-- The classes of the elements are shared soundly. -/
theorem Resolved.sharesElementClasses {f : Form α} (hf : f.Resolved) {stem : String}
    {items : List (Code.Item α)} (h : ElementClass.scheme.items stem [] f.elementNodes = .ok items) :
    ElementClass.scheme.SharesClasses stem f.elementNodes items :=
  ElementClass.scheme_uniform.sharesClasses
    (fun _ hx _ hy => (hf.elementNodes hx).eq_of_signature (hf.elementNodes hy)) h

/-- The classes of the dof maps are shared soundly. -/
theorem Resolved.sharesDofMapClasses {f : Form α} (hf : f.Resolved) {stem : String}
    {items : List (Code.Item α)}
    (h : (DofMapClass.scheme : Naming.Scheme α DofMap).items stem [] f.dofMapNodes = .ok items) :
    DofMapClass.scheme.SharesClasses stem f.dofMapNodes items := by
  refine DofMapClass.scheme_uniform.sharesClasses (fun x hx y hy hsignature => ?_) h
  obtain ⟨a, ha, hxa⟩ := hf.dofMapNodes hx
  obtain ⟨b, hb, hyb⟩ := hf.dofMapNodes hy
  change x.node.signature = y.node.signature at hsignature
  rw [hxa, hyb, DofMap.signature_ofElement, DofMap.signature_ofElement] at hsignature
  rw [hxa, hyb, ha.eq_of_signature hb ?_]
  rw [← String.toList_inj, String.toList_append, String.toList_append] at hsignature
  exact String.toList_inj.mp (List.append_cancel_left hsignature)

end Form

namespace Element

variable {α : Type} [Scalar α]

/-- Resolved elements with one signature are equal. So in the code for a form with resolved elements, as
all forms that are built have, another name for the class of an element or dof map stands for the class
that would have been written, up to the names of the class and of those of the parts. -/
theorem signature_identifies :
    (∀ {d d' : Descriptor} {e e' : Element α}, ofDescriptor d = .ok e → ofDescriptor d' = .ok e' →
      e.signature = e'.signature → e = e') ∧
    (∀ {f : Form α}, f.Resolved →
      (∀ {items}, ElementClass.scheme.items s!"{f.name}_finite_element" [] f.elementNodes = .ok items →
        ElementClass.scheme.SharesClasses s!"{f.name}_finite_element" f.elementNodes items) ∧
      ∀ {items : List (Code.Item α)},
        DofMapClass.scheme.items s!"{f.name}_dof_map" [] f.dofMapNodes = .ok items →
        DofMapClass.scheme.SharesClasses s!"{f.name}_dof_map" f.dofMapNodes items) ∧
    ∀ {numPoints : Option ℕ} {name : String} {sums : List (Sum α)} {forms : List (Form α)}
      {c : Cache α}, Resolve.Returns (Sum.buildAll numPoints name sums) .empty forms c →
      ∀ f ∈ forms, f.Resolved := by
  refine ⟨fun h h' => ?_, fun hf => ⟨hf.sharesElementClasses, hf.sharesDofMapClasses⟩, fun h => ?_⟩
  · exact (built_of_ofDescriptor h).eq_of_signature (built_of_ofDescriptor h')
  · exact (Sum.gives_buildAll _ _ _ _ _ _ Cache.faithful_empty h).1

/-- Values at a point of the interval as test and trial functions. -/
def valuePair (e e' : Element Float) : Form Float where
  name := "a"
  dims := [1, 1]
  interior := []
  boundary := []
  numCoefficients := 0
  numConstants := 0
  arguments := [e, e']
  coefficients := []
  cell := some (.simple .interval)
  format := .header

/-- A value at a point as a test function. -/
def pointValue : Sum Float :=
  ⟨[.ofBasis [.ofArgument (.simple "Quadrature" (.simple .point) (some 1)) .test]]⟩

/-- Without a degree the values are those of degree zero, so the trial function shares the classes of the
test function. -/
theorem signature_identifies_valuePair : (∃ e e' : Element Float, ∃ c c',
    ofDescriptor (.simple "Quadrature" (.simple .interval) none) = .ok e ∧
      ofDescriptor (.simple "Quadrature" (.simple .interval) (some 0)) = .ok e' ∧ e = e' ∧
      ElementClass.scheme.items "a_finite_element" [] (valuePair e e').elementNodes =
        .ok [.define c, .rename "a_finite_element_0" "a_finite_element_1"] ∧
      ElementClass.scheme.SharesClasses "a_finite_element" (valuePair e e').elementNodes
        [.define c, .rename "a_finite_element_0" "a_finite_element_1"] ∧
      DofMapClass.scheme.items "a_dof_map" [] (valuePair e e').dofMapNodes =
        .ok [.define c', .rename "a_dof_map_0" "a_dof_map_1"] ∧
      DofMapClass.scheme.SharesClasses (α := Float) "a_dof_map" (valuePair e e').dofMapNodes
        [.define c', .rename "a_dof_map_0" "a_dof_map_1"]) ∧
    ∃ forms c, Resolve.Returns (Sum.buildAll (some 1) "a" [pointValue]) .empty forms c ∧
      forms.length = 1 ∧ ∀ f ∈ forms, f.Resolved := by
  have hvalues : ∃ e e' : Element Float, ∃ c c',
      ofDescriptor (.simple "Quadrature" (.simple .interval) none) = .ok e ∧
      ofDescriptor (.simple "Quadrature" (.simple .interval) (some 0)) = .ok e' ∧
      e.signature = e'.signature ∧
      ElementClass.scheme.items "a_finite_element" [] (valuePair e e').elementNodes =
        .ok [.define c, .rename "a_finite_element_0" "a_finite_element_1"] ∧
      DofMapClass.scheme.items (α := Float) "a_dof_map" [] (valuePair e e').dofMapNodes =
        .ok [.define c', .rename "a_dof_map_0" "a_dof_map_1"] :=
    ⟨_, _, _, _, rfl, rfl, rfl, rfl, rfl⟩
  obtain ⟨e, e', c, c', he, he', hsignature, helements, hdofMaps⟩ := hvalues
  have hresolved : (valuePair e e').Resolved := by
    intro entry hentry
    have hentry : entry = (0, e) ∨ entry = (1, e') := by simpa [valuePair, Form.elements] using hentry
    rcases hentry with rfl | rfl
    · exact ⟨_, he⟩
    · exact ⟨_, he'⟩
  have hforms : ∃ forms c, Resolve.Returns (Sum.buildAll (some 1) "a" [pointValue]) .empty forms c ∧
      forms.length = 1 := ⟨_, _, rfl, rfl⟩
  obtain ⟨forms, cache, hbuilt, hlength⟩ := hforms
  obtain ⟨hidentifies, hshares, hforms⟩ := signature_identifies (α := Float)
  refine ⟨⟨e, e', c, c', he, he', hidentifies he he' hsignature, helements, ?_, hdofMaps, ?_⟩,
    forms, cache, hbuilt, hlength, hforms hbuilt⟩
  · exact (hshares hresolved).1 helements
  · exact (hshares hresolved).2 hdofMaps

end Element
end Variational
