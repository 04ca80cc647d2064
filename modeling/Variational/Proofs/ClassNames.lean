import Variational.Compiler
import Variational.Proofs.NodeLabels

/-! Names of generated classes. Every name of a header is introduced once. Other names are given to classes
that stand before, and a class creates instances of itself and of what stands before it. -/
namespace Variational

namespace Code

variable {α : Type}

section Created

@[simp] theorem Value.created?_create (c : String) : (create c).created? = some c := rfl
@[simp] theorem Value.created?_plain (s : String) : (plain s).created? = none := rfl
@[simp] theorem Value.created?_quoted (s : String) : (quoted s).created? = none := rfl
@[simp] theorem Value.created?_number (n : ℕ) : (number n).created? = none := rfl
@[simp] theorem Value.created?_truth (b : Bool) : (truth b).created? = none := rfl

@[simp] theorem Body.created_returns (v : Value) : (returns v : Body α).created = v.created?.toList := rfl

@[simp] theorem Body.created_select (argument : String) (cases : List (ℕ × Value)) (v : Value) :
    (select argument cases v : Body α).created = cases.filterMap (·.2.created?) ++ v.created?.toList := rfl

@[simp] theorem Body.created_run (blocks : List (Block α)) : (run blocks).created = [] := rfl
@[simp] theorem Body.created_idle : (idle : Body α).created = [] := rfl

end Created

/-- Another name is for a class that stands before, and instances are created of the class itself and of
what stands before it. -/
def Item.GroundedIn (before : List (Item α)) : Item α → Prop
  | define c => ∀ created ∈ c.created, created = c.name ∨ created ∈ before.map Item.name
  | rename target _ => ∃ c, define c ∈ before ∧ c.name = target

/-- Every name is introduced once, and only names that are there are used. -/
structure NamesClosed (items : List (Item α)) : Prop where
  nodup : (items.map Item.name).Nodup
  grounded : Sequential Item.GroundedIn items

theorem Item.GroundedIn.mono {item : Item α} {before : List (Item α)} (h : item.GroundedIn before)
    (more : List (Item α)) : item.GroundedIn (more ++ before) := by
  cases item with
  | define c =>
    intro created hcreated
    refine (h created hcreated).imp_right fun hmem => ?_
    rw [List.map_append]
    exact List.mem_append_right _ hmem
  | rename target name =>
    obtain ⟨c, hc, hname⟩ := h
    exact ⟨c, List.mem_append_right more hc, hname⟩

end Code

namespace Naming.Scheme
open Code

variable {α β : Type} {s : Scheme α β} {stem : String}

/-- The items have the names of their nodes. -/
theorem items_names (hs : s.Uniform) {known : List (String × String)} {nodes : List (Labelled β)}
    {items : List (Item α)} (h : s.items stem known nodes = .ok items) :
    items.map Item.name = nodes.map fun x => ofLabel stem x.label := by
  induction nodes generalizing known items with
  | nil =>
    obtain rfl := Except.ok.inj h
    rfl
  | cons x xs ih =>
    rw [Scheme.items] at h
    split at h
    · simp only [Result.bind_eq_ok, Result.pure_eq_ok] at h
      obtain ⟨rest, hrest, rfl⟩ := h
      rw [List.map_cons, List.map_cons, ih hrest]
      rfl
    · simp only [Result.bind_eq_ok, Result.pure_eq_ok] at h
      obtain ⟨c, hc, rest, hrest, rfl⟩ := h
      rw [List.map_cons, List.map_cons, ih hrest, Item.name, hs.name_eq hc]

/-- A class creates instances of itself and of its named parts. -/
def CreatesParts (s : Scheme α β) : Prop :=
  ∀ {name : String} {parts : List String} {node : β} {c : Class α}, s.define name parts node = .ok c →
    ∀ created ∈ c.created, created = name ∨ created ∈ parts

/-- Nodes after their parts have classes after those that they create. -/
theorem items_grounded (hs : s.Uniform) (hcreates : s.CreatesParts) {nodes : List (Labelled β)}
    (hnodes : Sequential (PartsIn s.numParts) nodes) {items : List (Item α)}
    (h : s.items stem [] nodes = .ok items) : Sequential Item.GroundedIn items := by
  have hknown : s.Records stem [] [] := fun h => by cases h
  obtain ⟨hlength, hentries⟩ := items_ok hknown h
  have hnames := items_names hs h
  intro before item after heq
  subst heq
  -- The item stands for the node at its place, and the items before it for the nodes before.
  obtain ⟨first, x, last, rfl, hfirst⟩ : ∃ first x last,
      nodes = first ++ x :: last ∧ first.length = before.length := by
    have hlt : before.length < nodes.length := by
      rw [← hlength, List.length_append, List.length_cons]
      omega
    refine ⟨nodes.take before.length, nodes[before.length], nodes.drop (before.length + 1), ?_, ?_⟩
    · rw [← List.drop_eq_getElem_cons hlt, List.take_append_drop]
    · rw [List.length_take, Nat.min_eq_left hlt.le]
  rw [List.map_append, List.map_append] at hnames
  have hbefore := (List.append_inj hnames (by simp [hfirst])).1
  rw [List.zip_append hfirst] at hentries
  have hentry := hentries rfl
  rw [List.nil_append] at hentry
  cases hentry with
  | @define c hc =>
    intro created hcreated
    rcases hcreates hc created hcreated with hself | hpart
    · exact .inl (hself.trans (hs.name_eq hc).symm)
    · right
      unfold ofParts at hpart
      split_ifs at hpart with hone
      · cases hpart
      · obtain ⟨i, hi, rfl⟩ := List.mem_map.mp hpart
        obtain ⟨y, hy, hlabel⟩ := List.mem_map.mp
          (hnodes first x last rfl hone i (List.mem_range.mp hi))
        rw [hbefore, ← hlabel]
        exact List.mem_map_of_mem hy
  | @rename y c hy hc _ => exact ⟨c, (List.of_mem_zip hy).2, hs.name_eq hc⟩

theorem items_closed (hs : s.Uniform) (hcreates : s.CreatesParts) {roots : List (List ℕ)}
    {nodes : List (Labelled β)} (hnodes : Forest s.numParts roots nodes) (hroots : ∀ l ∈ roots, l ≠ [])
    {items : List (Item α)} (h : s.items stem [] nodes = .ok items) : NamesClosed items where
  nodup := by
    have hne : ∀ l ∈ nodes.map (·.label), l ≠ [] := by
      refine List.forall_mem_map.mpr fun x hx => ?_
      obtain ⟨label, hlabel, hbelow⟩ := hnodes.below x hx
      exact fun hnil => hroots label hlabel (List.prefix_nil.mp (hnil ▸ hbelow))
    rw [items_names hs h]
    have hnodup : ((nodes.map (·.label)).map (ofLabel stem)).Nodup :=
      hnodes.nodup.map_on fun l hl m hm heq => ofLabel_inj (hne l hl) (hne m hm) heq
    rwa [List.map_map] at hnodup
  grounded := items_grounded hs hcreates hnodes.parts h

end Naming.Scheme

/-- The members that create the parts of a node create these parts, or the node itself. -/
theorem Naming.mem_created_instances {name created : String} {parts : List String}
    (h : created ∈ (instances name parts).filterMap (·.2.created?)) : created = name ∨ created ∈ parts := by
  obtain ⟨x, hx, hcreated⟩ := List.mem_filterMap.mp h
  obtain ⟨y, hy, rfl⟩ := List.mem_map.mp hx
  obtain rfl := Option.some.inj hcreated
  have hy := List.fst_mem_of_mem_zipIdx hy
  split_ifs at hy
  · exact .inl (List.mem_singleton.mp hy)
  · exact .inr hy

namespace ElementClass
open Code

variable {α : Type} [Scalar α]

theorem evaluation_created {e : Element α} {b : Body α} (h : evaluation e = .ok b) : b.created = [] := by
  unfold evaluation at h
  dsimp only at h
  split at h
  · obtain rfl := Except.ok.inj h
    rfl
  · cases h
  · obtain rfl := Except.ok.inj h
    rfl

theorem scheme_createsParts : (scheme : Naming.Scheme α (Element α)).CreatesParts := by
  intro name parts node c h created hcreated
  simp only [scheme, define, Result.bind_eq_ok, Result.pure_eq_ok] at h
  obtain ⟨shape, -, evaluate, hevaluate, rfl⟩ := h
  apply Naming.mem_created_instances
  simpa [Class.created, Class.allMembers, valueDimensions, evaluation_created hevaluate] using hcreated

end ElementClass

namespace DofMapClass
open Code

variable {α : Type}

theorem facetNumbering_created (facets : List (List ℕ)) :
    (facetNumbering facets : Body α).created = [] := by
  unfold facetNumbering
  split <;> rfl

theorem scheme_createsParts : (scheme : Naming.Scheme α DofMap).CreatesParts := by
  intro name parts node c h created hcreated
  simp only [scheme, define, Result.bind_eq_ok, Result.pure_eq_ok] at h
  obtain ⟨facets, -, numFacetDofs, -, rfl⟩ := h
  apply Naming.mem_created_instances
  simpa [Class.created, Class.allMembers, byDimension, facetNumbering_created] using hcreated

end DofMapClass

namespace Code

variable {α : Type} {xs ys : List (Item α)}

theorem NamesClosed.append (hxs : NamesClosed xs) (hys : NamesClosed ys)
    (h : List.Disjoint (xs.map Item.name) (ys.map Item.name)) : NamesClosed (xs ++ ys) where
  nodup := by
    rw [List.map_append]
    exact hxs.nodup.append hys.nodup h
  grounded := hxs.grounded.append (hys.grounded.mono fun _ _ _ hitem => hitem.mono xs)

/-- A class with a new name behind all that it creates. -/
theorem NamesClosed.concat {c : Class α} (h : NamesClosed xs)
    (hcreated : ∀ created ∈ c.created, created ∈ xs.map Item.name) (hname : c.name ∉ xs.map Item.name) :
    NamesClosed (xs ++ [.define c]) where
  nodup := by
    rw [List.map_append]
    exact h.nodup.append (List.nodup_singleton _) (by simpa [Item.name] using hname)
  grounded := by
    refine h.grounded.append (.singleton fun created hmem => .inr ?_)
    rw [List.append_nil]
    exact hcreated created hmem

end Code

namespace FormClass
open Code Naming

variable {α : Type}

/-- The names continue a stem by a delimiter and the given character. -/
def Continues (stem : String) (k : Char) (names : List String) : Prop :=
  ∀ name ∈ names, ∃ rest, name.toList = stem.toList ++ '_' :: k :: rest

theorem Continues.disjoint {stem : String} {k l : Char} {xs ys : List String} (hxs : Continues stem k xs)
    (hys : Continues stem l ys) (h : k ≠ l) : List.Disjoint xs ys := by
  intro name hx hy
  obtain ⟨r, hr⟩ := hxs name hx
  obtain ⟨t, ht⟩ := hys name hy
  have heq := List.append_cancel_left (hr.symm.trans ht)
  exact h (List.cons.inj (List.cons.inj heq).2).1

theorem Continues.notMem {stem : String} {k : Char} {names : List String} (h : Continues stem k names) :
    stem ∉ names := by
  intro hmem
  obtain ⟨rest, hrest⟩ := h stem hmem
  simp at hrest

variable [Scalar α]

/-- An integral without terms has no class; otherwise it has one, with the code of the cell map before that
of the tensors. -/
theorem integral_ok {f : Form α} {kind : IntegralKind} {items : List (Item α)}
    (h : integral f kind = .ok items) :
    (f.terms kind = [] ∧ items = []) ∨ ∃ cell geometry, ∃ c : Class α,
      f.terms kind ≠ [] ∧ f.cell = some cell ∧ scaling cell kind = .ok geometry ∧ items = [.define c] ∧
        c.name = integralName f kind ∧ c.base = integralSuffix kind ∧ c.initial = .idle ∧
        c.members = [tabulateTensor kind (.run (geometry ++ [.plain (TensorCode.body f kind)]))] := by
  unfold integral at h
  split at h
  · rename_i hempty
    exact .inl ⟨List.isEmpty_iff.mp hempty, (Except.ok.inj h).symm⟩
  · rename_i hempty
    split at h
    · rename_i cell hcell
      simp only [Result.bind_eq_ok, Result.pure_eq_ok] at h
      obtain ⟨geometry, hgeometry, rfl⟩ := h
      exact .inr ⟨cell, geometry, _, fun hnil => hempty (List.isEmpty_iff.mpr hnil), hcell, hgeometry, rfl,
        rfl, rfl, rfl, rfl⟩
    · cases h

omit [Scalar α] in
theorem tabulateTensor_created (kind : IntegralKind) (blocks : List (Block α)) :
    (tabulateTensor kind (.run blocks)).body.created = [] := by
  cases kind <;> rfl

theorem integral_names {f : Form α} {kind : IntegralKind} {items : List (Item α)}
    (h : integral f kind = .ok items) :
    items.map Item.name = if (f.terms kind).isEmpty then [] else [integralName f kind] := by
  rcases integral_ok h with ⟨hnil, rfl⟩ | ⟨_, _, c, hne, -, -, rfl, hname, -⟩
  · rw [hnil]
    rfl
  · rw [if_neg (by simpa using hne), List.map_singleton, Item.name, hname]

theorem integral_closed {f : Form α} {kind : IntegralKind} {items : List (Item α)}
    (h : integral f kind = .ok items) : NamesClosed items := by
  rcases integral_ok h with ⟨-, rfl⟩ | ⟨_, _, c, -, -, -, rfl, -, -, hinitial, hmembers⟩
  · exact ⟨List.nodup_nil, .nil⟩
  · refine ⟨List.nodup_singleton _, .singleton fun created hcreated => ?_⟩
    simp [Class.created, Class.allMembers, hinitial, hmembers, tabulateTensor_created] at hcreated

omit [Scalar α] in
theorem integralName_eq (f : Form α) (kind : IntegralKind) :
    integralName f kind = f.name ++ "_" ++ integralSuffix kind ++ "_0" := rfl

/-- The first letter of the name of an integral after the name of the form. -/
def integralInitial : IntegralKind → Char
  | .interior => 'c'
  | .boundary => 'e'

theorem integral_continues {f : Form α} {kind : IntegralKind} {items : List (Item α)}
    (h : integral f kind = .ok items) :
    Continues f.name (integralInitial kind) (items.map Item.name) := by
  rw [integral_names h]
  split_ifs
  · exact fun name hname => by cases hname
  · refine List.forall_mem_singleton.mpr ?_
    cases kind
    · exact ⟨"ell_integral_0".toList, by simp [integralName_eq, integralSuffix, integralInitial]⟩
    · exact ⟨"xterior_facet_integral_0".toList, by simp [integralName_eq, integralSuffix, integralInitial]⟩

/-- The part of the names of the classes of elements or dof maps before their labels. -/
def stem (f : Form α) (kind : String) : String := f.name ++ "_" ++ kind

omit [Scalar α] in
theorem labels_continue {β : Type} (f : Form α) {kind : String} {k : Char} {rest : List Char}
    (hkind : kind.toList = k :: rest) (nodes : List (Labelled β)) :
    Continues f.name k (nodes.map fun x => ofLabel (stem f kind) x.label) := by
  refine List.forall_mem_map.mpr fun x _ => ⟨rest ++ '_' :: (MultiIndex.label "_" x.label).toList, ?_⟩
  simp [ofLabel, stem, hkind]

/-- What a header has for one form: the classes of the elements and dof maps, the integrals, and the form,
with names that tell these apart. -/
theorem items_ok {f : Form α} {items : List (Item α)} (h : FormClass.items f = .ok items) :
    ∃ elements dofMaps interior boundary,
      items = elements ++ dofMaps ++ interior ++ boundary ++ [.define (define f)] ∧
      (NamesClosed elements ∧ Continues f.name 'f' (elements.map Item.name) ∧
        elements.map Item.name = f.elementNodes.map fun x => ofLabel (stem f "finite_element") x.label) ∧
      (NamesClosed dofMaps ∧ Continues f.name 'd' (dofMaps.map Item.name) ∧
        dofMaps.map Item.name = f.dofMapNodes.map fun x => ofLabel (stem f "dof_map") x.label) ∧
      integral f .interior = .ok interior ∧ integral f .boundary = .ok boundary := by
  simp only [FormClass.items, Result.bind_eq_ok, Result.pure_eq_ok] at h
  obtain ⟨elements, helements, dofMaps, hdofMaps, interior, hinterior, boundary, hboundary, rfl⟩ := h
  have hstem : s!"{f.name}_finite_element" = stem f "finite_element" := by
    rw [stem, String.append_assoc]
    rfl
  have hstem' : s!"{f.name}_dof_map" = stem f "dof_map" := by
    rw [stem, String.append_assoc]
    rfl
  rw [hstem] at helements
  rw [hstem'] at hdofMaps
  have hroots : ∀ l ∈ f.elements.map (fun x => [x.1]), l ≠ [] :=
    List.forall_mem_map.mpr fun x _ => List.cons_ne_nil _ _
  have hnames := Scheme.items_names ElementClass.scheme_uniform helements
  have hnames' := Scheme.items_names DofMapClass.scheme_uniform hdofMaps
  refine ⟨elements, dofMaps, interior, boundary, rfl, ⟨?_, ?_, hnames⟩, ⟨?_, ?_, hnames'⟩, hinterior,
    hboundary⟩
  · exact Scheme.items_closed ElementClass.scheme_uniform ElementClass.scheme_createsParts
      f.forest_elementNodes hroots helements
  · rw [hnames]
    exact labels_continue f (by simp; rfl) _
  · exact Scheme.items_closed DofMapClass.scheme_uniform DofMapClass.scheme_createsParts
      f.forest_dofMapNodes hroots hdofMaps
  · rw [hnames']
    exact labels_continue f (by simp; rfl) _

omit [Scalar α] in
/-- The name of the class of an argument or coefficient is that of the root of its nodes. -/
theorem mem_names_of_root {β : Type} {numParts : β → ℕ} {f : Form α} {nodes : List (Labelled β)}
    (h : Forest numParts (f.elements.map fun x => [x.1]) nodes) {kind created : String}
    (hcreated : created ∈ (createNumbered f kind : Body α).created) :
    created ∈ nodes.map fun x => ofLabel (stem f kind) x.label := by
  simp only [createNumbered, Body.created_select, Value.created?_number, Option.toList_none,
    List.append_nil, List.filterMap_map, List.mem_filterMap] at hcreated
  obtain ⟨⟨n, e⟩, hmem, hcreated⟩ := hcreated
  obtain rfl := Option.some.inj hcreated
  obtain ⟨x, hx, hlabel⟩ := List.mem_map.mp (h.roots [n] (List.mem_map.mpr ⟨(n, e), hmem, rfl⟩))
  refine List.mem_map.mpr ⟨x, hx, ?_⟩
  rw [hlabel]
  rfl

theorem createIntegral_created {f : Form α} {kind : IntegralKind} {items : List (Item α)}
    (h : integral f kind = .ok items) :
    (createIntegral f kind : Body α).created = items.map Item.name := by
  rw [integral_names h]
  unfold createIntegral
  split_ifs <;> rfl

/-- All names of a form are introduced once, and before they are used. -/
theorem items_closed {f : Form α} {items : List (Item α)} (h : FormClass.items f = .ok items) :
    NamesClosed items := by
  obtain ⟨elements, dofMaps, interior, boundary, rfl, ⟨helements, hf, hnames⟩, ⟨hdofMaps, hd, hnames'⟩,
    hinterior, hboundary⟩ := items_ok h
  have hc := integral_continues hinterior
  have he := integral_continues hboundary
  have hparts : NamesClosed (elements ++ dofMaps ++ interior ++ boundary) := by
    refine ((helements.append hdofMaps ?_).append (integral_closed hinterior) ?_).append
      (integral_closed hboundary) ?_
    · exact hf.disjoint hd (by decide)
    · rw [List.map_append, List.disjoint_append_left]
      exact ⟨hf.disjoint hc (by decide), hd.disjoint hc (by decide)⟩
    · rw [List.map_append, List.map_append, List.disjoint_append_left, List.disjoint_append_left]
      exact ⟨⟨hf.disjoint he (by decide), hd.disjoint he (by decide)⟩, hc.disjoint he (by decide)⟩
  refine hparts.concat (fun created hcreated => ?_) ?_
  · simp only [List.map_append, List.mem_append]
    have hcreated : created ∈ (createNumbered f "finite_element" : Body α).created ∨
        created ∈ (createNumbered f "dof_map" : Body α).created ∨
        created ∈ interior.map Item.name ∨ created ∈ boundary.map Item.name := by
      rw [← createIntegral_created hinterior, ← createIntegral_created hboundary]
      simpa [Class.created, Class.allMembers, define, numIntegrals] using hcreated
    rcases hcreated with hcreated | hcreated | hcreated | hcreated
    · exact .inl (.inl (.inl (hnames ▸ mem_names_of_root f.forest_elementNodes hcreated)))
    · exact .inl (.inl (.inr (hnames' ▸ mem_names_of_root f.forest_dofMapNodes hcreated)))
    · exact .inl (.inr hcreated)
    · exact .inr hcreated
  · simp only [List.map_append, List.mem_append, not_or]
    exact ⟨⟨⟨hf.notMem, hd.notMem⟩, hc.notMem⟩, he.notMem⟩

/-- All names of a form continue its name, if at all then by a delimiter. -/
theorem items_named {f : Form α} {items : List (Item α)} (h : FormClass.items f = .ok items) :
    ∀ name ∈ items.map Item.name, ∃ rest, name.toList ++ ['_'] = f.name.toList ++ '_' :: rest := by
  obtain ⟨elements, dofMaps, interior, boundary, rfl, ⟨-, hf, -⟩, ⟨-, hd, -⟩, hinterior, hboundary⟩ :=
    items_ok h
  have hcontinues {k : Char} {names : List String} (h : Continues f.name k names) :
      ∀ name ∈ names, ∃ rest, name.toList ++ ['_'] = f.name.toList ++ '_' :: rest := by
    intro name hname
    obtain ⟨rest, hrest⟩ := h name hname
    exact ⟨k :: rest ++ ['_'], by rw [hrest]; simp⟩
  simp only [List.map_append, List.forall_mem_append]
  refine ⟨⟨⟨⟨hcontinues hf, hcontinues hd⟩, hcontinues (integral_continues hinterior)⟩,
    hcontinues (integral_continues hboundary)⟩, ?_⟩
  exact List.forall_mem_singleton.mpr ⟨[], rfl⟩

end FormClass

namespace Resolve

variable {α β γ : Type}

theorem returns_mapM_each {f : β → Resolve α γ} {xs : List β} {c c' : Cache α} {ys : List γ}
    (h : Returns (xs.mapM f) c ys c') :
    List.Forall₂ (fun x y => ∃ c₁ c₂, Returns (f x) c₁ y c₂) xs ys := by
  induction xs generalizing c c' ys with
  | nil =>
    rw [List.mapM_nil, returns_pure] at h
    obtain ⟨rfl, -⟩ := h
    exact .nil
  | cons x xs ih =>
    simp only [List.mapM_cons, returns_bind, returns_pure] at h
    obtain ⟨y, c₁, hy, rest, c₂, hrest, rfl, -⟩ := h
    exact .cons ⟨c, c₁, hy⟩ (ih hrest)

end Resolve

namespace Sum

variable {α : Type} [Scalar α]

theorem build_name {numPoints : Option ℕ} {name : String} {s : Sum α} {f : Form α} {c c' : Cache α}
    (h : Resolve.Returns (s.build numPoints name) c f c') : f.name = name := by
  simp only [build, Resolve.returns_bind, Resolve.returns_ofResult] at h
  obtain ⟨test, _, -, trial, _, -, coefficients, _, -, cell, _, -, terms, _, -, h, -⟩ := h
  unfold assemble at h
  simp only at h
  split_ifs at h
  obtain rfl := Except.ok.inj h
  rfl

/-- The names of several forms differ, with a delimiter behind them at the latest. -/
theorem buildAll_names {numPoints : Option ℕ} {name : String} {sums : List (Sum α)}
    {forms : List (Form α)} {c c' : Cache α}
    (h : Resolve.Returns (buildAll numPoints name sums) c forms c') :
    forms.Pairwise fun f g => ∀ r t : List Char, f.name.toList ++ '_' :: r ≠ g.name.toList ++ '_' :: t := by
  unfold buildAll at h
  split at h
  · simp only [Resolve.returns_bind, Resolve.returns_pure] at h
    obtain ⟨f, -, -, rfl, -⟩ := h
    exact List.pairwise_singleton _ f
  · have hforms := Resolve.returns_mapM_each h
    have hname (k : ℕ) (hk : k < forms.length) : forms[k].name = name ++ "_" ++ toString k := by
      obtain ⟨⟨s, i⟩, hx, c₁, c₂, hbuild⟩ :=
        Result.getElem?_of_forall₂ hforms.flip (List.getElem?_eq_getElem hk)
      obtain ⟨-, rfl⟩ : sums[k]? = some s ∧ k = i := by simpa [List.getElem?_zipIdx] using hx
      exact build_name hbuild
    rw [List.pairwise_iff_getElem]
    intro i j hi hj hij r t heq
    simp only [hname, String.toList_append, List.append_assoc] at heq
    have hnumbers := List.append_cancel_left (List.append_cancel_left heq)
    obtain ⟨hdigits, -⟩ := append_delimiter_inj (delimiter_notMem_toString rfl i)
      (delimiter_notMem_toString rfl j) hnumbers
    exact hij.ne (toString_toList_inj hdigits)

end Sum

namespace Header
open Code

variable {α : Type} [Scalar α]

/-- The names of several forms are closed together if no name of one is a name of another. -/
theorem items_closed {forms : List (Form α)} {items : List (Item α)} (h : Header.items forms = .ok items)
    (hnames : forms.Pairwise fun f g => ∀ r t : List Char,
      f.name.toList ++ '_' :: r ≠ g.name.toList ++ '_' :: t) : NamesClosed items := by
  simp only [Header.items, Result.bind_eq_ok, Result.pure_eq_ok] at h
  obtain ⟨lists, hlists, rfl⟩ := h
  have hforms := Result.mapM_eq_ok.mp hlists
  have hclosed : ∀ list ∈ lists, NamesClosed list := by
    intro list hlist
    obtain ⟨f, -, hf⟩ := Result.exists_of_forall₂ hforms.flip hlist
    exact FormClass.items_closed hf
  refine ⟨?_, .flatten (fun more _ _ hitem => hitem.mono more) fun list hlist => (hclosed list hlist).grounded⟩
  rw [List.map_flatten, List.nodup_flatten]
  refine ⟨List.forall_mem_map.mpr fun list hlist => (hclosed list hlist).nodup, ?_⟩
  rw [List.pairwise_map, List.pairwise_iff_getElem]
  intro i j hi hj hij name hnamei hnamej
  obtain ⟨f, hf, hitems⟩ := Result.getElem?_of_forall₂ hforms.flip (List.getElem?_eq_getElem hi)
  obtain ⟨g, hg, hitems'⟩ := Result.getElem?_of_forall₂ hforms.flip (List.getElem?_eq_getElem hj)
  obtain ⟨r, hr⟩ := FormClass.items_named hitems name hnamei
  obtain ⟨t, ht⟩ := FormClass.items_named hitems' name hnamej
  obtain ⟨hi', rfl⟩ := List.getElem?_eq_some_iff.mp hf
  obtain ⟨hj', rfl⟩ := List.getElem?_eq_some_iff.mp hg
  exact List.pairwise_iff_getElem.mp hnames i j hi' hj' hij r t (hr.symm.trans ht)

/-- In the text for forms that are built together, every name of a class is introduced once. Other names are
for classes before them, and instances are created of the class itself and of what is introduced before. -/
theorem names_closed {o : CompilerOptions} {sums : List (Sum Float)} {forms : List (Form Float)}
    {c c' : Cache Float} (hbuild : Resolve.Returns (o.build sums) c forms c') {output : OutputOptions}
    {text : String} (htext : Format.header.generate output forms = .ok text) :
    ∃ items guard, Header.items forms = .ok items ∧
      text = String.join ((banner output.license ++ preamble guard ++
        items.flatMap (·.lines output.places) ++ ["#endif"]).map (· ++ "\n")) ∧
      NamesClosed items := by
  simp only [CompilerOptions.build, Resolve.returns_bind, Resolve.returns_pure] at hbuild
  obtain ⟨built, _, hbuilt, rfl, -⟩ := hbuild
  simp only [Format.generate] at htext
  split at htext
  · cases htext
  simp only [lines, Result.bind_eq_ok, Result.pure_eq_ok] at htext
  obtain ⟨all, ⟨items, hitems, rfl⟩, rfl⟩ := htext
  refine ⟨items, _, hitems, rfl, items_closed hitems ?_⟩
  rw [List.pairwise_map]
  exact Sum.buildAll_names hbuilt

/-- A value at a point of the interval. -/
def midpointValue : Descriptor := .simple "Quadrature" (.simple .interval) (some 1)

/-- The first of three values times a second coefficient without dofs; there is no first coefficient. -/
def numberedValues : Sum Float :=
  ⟨[.ofBasis
    [(BasisFunction.ofArgument (.mixed [midpointValue, midpointValue, midpointValue]) .test).component (.fixed 0),
      .ofArgument (.restricted midpointValue (.upTo (.simple .point))) (.function 1)]]⟩

/-- Each of the two forms has an integral and names for five elements and dof maps; the second and third value
share the classes of the first. -/
theorem names_closed_numberedValues : ∃ forms c text items,
    Resolve.Returns (({} : CompilerOptions).build [numberedValues, numberedValues]) .empty forms c ∧
      Format.header.generate {} forms = .ok text ∧ Header.items forms = .ok items ∧ items.length = 24 ∧
      items.countP (fun item => item matches .rename ..) = 8 ∧ NamesClosed items := by
  have hforms : ∃ forms c text items,
      Resolve.Returns (({} : CompilerOptions).build [numberedValues, numberedValues]) .empty forms c ∧
        Format.header.generate {} forms = .ok text ∧ Header.items forms = .ok items ∧ items.length = 24 ∧
        items.countP (fun item => item matches .rename ..) = 8 := ⟨_, _, _, _, rfl, rfl, rfl, rfl, rfl⟩
  obtain ⟨forms, c, text, items, hbuild, htext, hitems, hlength, hrenames⟩ := hforms
  obtain ⟨items', _, hitems', -, hclosed⟩ := names_closed hbuild htext
  obtain rfl : items = items' := Except.ok.inj (hitems.symm.trans hitems')
  exact ⟨forms, c, text, items, hbuild, htext, hitems, hlength, hrenames, hclosed⟩

end Header
end Variational
