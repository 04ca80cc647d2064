import Variational.Proofs.CacheTransparency
import Variational.Proofs.Composition
import Variational.Proofs.DofPartition

/-! Restrictions of sums. A restriction of a sum is passed on to its parts, but a restriction inside the
sum takes the place of the outer one. So the dofs of each part lie where the innermost restriction around
it allows, and all dofs lie where the outer one allows if the inner ones are at least as narrow. -/
namespace Variational

namespace Domain

/-- Entities of dimension `k` of a cell of dimension `dim` belong to the domain. -/
def Allows (domain : Domain) (dim k : ℕ) : Prop :=
  match domain with
  | interior => dim ≤ k
  | upTo c => k ≤ c.dim
  | other _ => False

/-- All entities of a cell of dimension `dim` that belong to a domain belong to another one. -/
def Inside (inner outer : Domain) (dim : ℕ) : Prop :=
  ∀ k ≤ dim, inner.Allows dim k → outer.Allows dim k

end Domain

/-- All dofs are on entities that belong to the domain. -/
def Layout.Within (l : Layout) (domain : Domain) : Prop :=
  ∀ k, ¬ domain.Allows l.cell.dim k → ∀ entity, EntityDofs.on l.entityDofs k entity = []

namespace EntityDofs

theorem on_keep (indices : List ℕ) (e : EntityDofs) (k entity : ℕ) :
    on (keep indices e) k entity = (on e k entity).filterMap fun d => indices.idxOf? d := by
  simp only [on, keep, List.getD_eq_getElem?_getD, List.getElem?_map]
  cases he : e[k]? with
  | none => rfl
  | some entities =>
    simp only [Option.map_some, Option.getD_some, List.getElem?_map]
    cases entities[entity]? <;> rfl

theorem on_merge (offset : ℕ) {e f : EntityDofs} (h : counts e = counts f) (k entity : ℕ) :
    on (merge offset e f) k entity = on e k entity ++ (on f k entity).map (· + offset) := by
  have hlevel : e[k]?.map List.length = f[k]?.map List.length := by
    have hk := congrArg (·[k]?) h
    simpa [counts] using hk
  simp only [on, merge, List.getD_eq_getElem?_getD, List.getElem?_zipWith]
  cases he : e[k]? <;> cases hf : f[k]? <;> rw [he, hf] at hlevel
  · rfl
  · cases hlevel
  · cases hlevel
  · rename_i xs ys
    have hlength : xs.length = ys.length := Option.some.inj hlevel
    simp only [Option.getD_some, List.getElem?_zipWith]
    by_cases hi : entity < xs.length
    · simp [List.getElem?_eq_getElem hi, List.getElem?_eq_getElem (hlength ▸ hi)]
    · rw [not_lt] at hi
      simp [List.getElem?_eq_none hi, List.getElem?_eq_none (hlength ▸ hi)]

theorem mem_level_of_on {e : EntityDofs} {k entity d : ℕ} (h : d ∈ on e k entity) :
    d ∈ (e.getD k []).flatten := by
  by_cases hentity : entity < (e.getD k []).length
  · rw [on, List.getD_eq_getElem _ _ hentity] at h
    exact List.mem_flatten.mpr ⟨_, List.getElem_mem hentity, h⟩
  · rw [on, List.getD_eq_default _ _ (not_lt.mp hentity)] at h
    cases h

/-- A dof is on entities of one dimension only. -/
theorem Numbers.level_unique {e : EntityDofs} {n : ℕ} (h : e.Numbers n) {d k k' : ℕ}
    (hk : d ∈ (e.getD k []).flatten) (hk' : d ∈ (e.getD k' []).flatten) : k = k' := by
  have hnodup : e.flat.Nodup := h.nodup_iff.mpr List.nodup_range
  rw [flat_eq_range, List.nodup_flatMap] at hnodup
  have hlt {j : ℕ} (hj : d ∈ (e.getD j []).flatten) : j < e.length := by
    by_contra hge
    rw [List.getD_eq_default _ _ (not_lt.mp hge)] at hj
    cases hj
  have hdisjoint {i j : ℕ} (hi : d ∈ (e.getD i []).flatten) (hj : d ∈ (e.getD j []).flatten)
      (hij : i < j) : False := by
    have hpair := List.pairwise_iff_getElem.mp hnodup.2 i j (by simpa using hlt hi)
      (by simpa using hlt hj) hij
    simp only [List.getElem_range] at hpair
    exact hpair hi hj
  rcases lt_trichotomy k k' with hlt | heq | hgt
  · exact (hdisjoint hk hk' hlt).elim
  · exact heq
  · exact (hdisjoint hk' hk hgt).elim

end EntityDofs

namespace Layout

theorem on_mergeAll {counts : List ℕ} {ls : List Layout}
    (hls : ∀ l ∈ ls, EntityDofs.counts l.entityDofs = counts) {dofs : EntityDofs}
    (hdofs : EntityDofs.counts dofs = counts) (n k entity : ℕ) :
    EntityDofs.on (mergeAll n dofs ls) k entity = [] ↔
      EntityDofs.on dofs k entity = [] ∧ ∀ l ∈ ls, EntityDofs.on l.entityDofs k entity = [] := by
  induction ls generalizing dofs n with
  | nil => simp [mergeAll]
  | cons l ls ih =>
    rw [List.forall_mem_cons] at hls
    have hsame : EntityDofs.counts dofs = EntityDofs.counts l.entityDofs := hdofs.trans hls.1.symm
    rw [mergeAll, ih hls.2 ((EntityDofs.counts_merge n hsame).trans hdofs), EntityDofs.on_merge n hsame,
      List.append_eq_nil_iff, List.map_eq_nil_iff, List.forall_mem_cons, and_assoc]

/-- A sum has its dofs in a domain exactly when all its parts do. -/
theorem mixed_within_iff {l : Layout} {ls : List Layout}
    (hls : ∀ l' ∈ ls, l'.cell = l.cell ∧
      EntityDofs.counts l'.entityDofs = EntityDofs.counts l.entityDofs) (domain : Domain) :
    (mixed (l :: ls)).Within domain ↔ ∀ l' ∈ l :: ls, l'.Within domain := by
  have hmerge := on_mergeAll (fun l' hl' => (hls l' hl').2) rfl l.dimension
  rw [List.forall_mem_cons]
  constructor
  · intro h
    refine ⟨fun k hk entity => ?_, fun l' hl' k hk entity => ?_⟩
    · exact ((hmerge k entity).mp (h k hk entity)).1
    · rw [(hls l' hl').1] at hk
      exact ((hmerge k entity).mp (h k hk entity)).2 l' hl'
  · rintro ⟨hfirst, hrest⟩ k hk entity
    refine (hmerge k entity).mpr ⟨hfirst k hk entity, fun l' hl' => hrest l' hl' k ?_ entity⟩
    rwa [(hls l' hl').1]

theorem Within.mono {l : Layout} {inner outer : Domain} (h : l.Within inner)
    (hlevels : l.entityDofs.length = l.cell.dim + 1) (hinside : inner.Inside outer l.cell.dim) :
    l.Within outer := by
  intro k hk entity
  by_cases hdim : k ≤ l.cell.dim
  · exact h k (fun hallows => hk (hinside k hdim hallows)) entity
  · rw [EntityDofs.on, List.getD_eq_default l.entityDofs [] (by omega)]
    rfl

end Layout

namespace Element

variable {α : Type} [Scalar α]

/-- A restriction keeps only dofs that are on entities of its domain. -/
theorem mem_selectIndices {l : Layout} {domain : Domain} {indices : List ℕ}
    (h : selectIndices l domain = .ok indices) {d : ℕ} (hd : d ∈ indices) :
    ∃ k, domain.Allows l.cell.dim k ∧ d ∈ (l.entityDofs.getD k []).flatten := by
  obtain ⟨rfl, entities, hentities, hindices⟩ | ⟨c, rfl, rfl⟩ := selectIndices_ok h
  · refine ⟨l.cell.dim, le_refl _, ?_⟩
    rw [List.getD_eq_getElem?_getD, hentities]
    exact List.mem_flatten.mpr ⟨indices, List.mem_of_getElem? hindices, hd⟩
  · obtain ⟨entities, hentities, hd⟩ := List.mem_flatMap.mp hd
    obtain ⟨k, hk⟩ := List.mem_iff_getElem?.mp hentities
    rw [List.getElem?_take] at hk
    split_ifs at hk with hle
    refine ⟨k, Nat.lt_succ_iff.mp hle, ?_⟩
    rwa [List.getD_eq_getElem?_getD, hk]

theorem restricted_within {e : Element α} (he : e.layout.Partitioned) {domain : Domain}
    {indices : List ℕ} (h : selectIndices e.layout domain = .ok indices) :
    (restricted e indices domain).layout.Within domain := by
  intro k hk entity
  rw [layout] at hk ⊢
  change EntityDofs.on (EntityDofs.keep indices e.layout.entityDofs) k entity = []
  rw [EntityDofs.on_keep, List.filterMap_eq_nil_iff]
  intro d hd
  rw [List.idxOf?_eq_none_iff]
  intro hindices
  obtain ⟨k', hallows, hd'⟩ := mem_selectIndices h hindices
  obtain rfl := he.numbers.level_unique (EntityDofs.mem_level_of_on hd) hd'
  exact hk hallows

theorem restrictLeaf_within {leaf : Descriptor × Domain} {e : Element α}
    (h : restrictLeaf leaf = .ok e) : e.layout.Partitioned ∧ e.layout.Within leaf.2 := by
  unfold restrictLeaf at h
  split at h
  · refine ⟨closed_partitioned.restrictFamily h, ?_⟩
    obtain ⟨a, indices, ha, hindices, rfl⟩ := restrictFamily_ok h
    exact restricted_within (ofFamily_partitioned ha) hindices
  · cases h

/-- The parts of a restricted sum have their dofs where the innermost restrictions around them allow. If
these are inside the outer domain, all dofs of the sum are where the outer restriction allows. -/
theorem restrictedSum_within {ds : List Descriptor} {domain : Domain} {e : Element α}
    (h : ofDescriptor (.restricted (.mixed ds) domain) = .ok e) :
    List.Forall₂ (fun leaf part => restrictLeaf leaf = .ok part ∧ part.layout.Within leaf.2)
        (Descriptor.restrictedLeavesOfList domain ds) e.parts ∧
      ((∀ leaf ∈ Descriptor.restrictedLeavesOfList domain ds, leaf.2.Inside domain e.cell.dim) →
        e.layout.Within domain) := by
  rw [ofDescriptor_eq_direct, direct, Result.bind_eq_ok] at h
  obtain ⟨parts, hparts, h⟩ := h
  have hcell {part : Element α} (hpart : part ∈ parts) : part.layout.cell = e.cell := cell_of_mem_parts h hpart
  obtain ⟨first, rest, hcons, hsame⟩ := mix_compatible h
  obtain rfl := mix_ok h
  have hall := (Result.mapM_eq_ok.mp hparts).imp fun leaf part hpart =>
    (⟨hpart, restrictLeaf_within hpart⟩ : restrictLeaf leaf = .ok part ∧ _)
  refine ⟨hall.imp fun leaf part hpart => ⟨hpart.1, hpart.2.2⟩, fun hinside => ?_⟩
  have hwithin : ∀ part ∈ parts, part.layout.Within domain := by
    intro part hpart
    obtain ⟨leaf, hleaf, -, hpartitioned, hwithin⟩ := Result.exists_of_forall₂ hall.flip hpart
    refine hwithin.mono hpartitioned.levels ?_
    rw [hcell hpart]
    exact hinside leaf hleaf
  subst hcons
  rw [layout_mixed, Layout.mixed_within_iff (List.forall_mem_map.mpr hsame), ← List.map_cons, List.forall_mem_map]
  exact hwithin

/-- Values at a point of the interval, restricted to the interior. -/
def interiorValues : Descriptor :=
  .restricted (.simple "Quadrature" (.simple .interval) (some 1)) .interior

/-- Restricting a sum of it to the interior once more keeps the dof in the interior. -/
theorem interiorValues_within : ∃ e : Element Float,
    ofDescriptor (.restricted (.mixed [interiorValues]) .interior) = .ok e ∧ e.dimension = 1 ∧
      e.layout.Within .interior := by
  have hresolve : ∃ e : Element Float,
      ofDescriptor (.restricted (.mixed [interiorValues]) .interior) = .ok e ∧ e.dimension = 1 :=
    ⟨_, rfl, rfl⟩
  obtain ⟨e, he, hdimension⟩ := hresolve
  refine ⟨e, he, hdimension, (restrictedSum_within he).2 ?_⟩
  intro leaf hleaf k _ hallows
  obtain rfl := List.mem_singleton.mp hleaf
  exact hallows

/-- Restricting a sum of it to the vertices leaves the dof in the interior. -/
theorem interiorValues_notWithin : ∃ e : Element Float,
    ofDescriptor (.restricted (.mixed [interiorValues]) (.upTo (.simple .point))) = .ok e ∧
      e.cell.dim = 1 ∧ EntityDofs.on e.layout.entityDofs 1 0 = [0] ∧
      ¬ e.layout.Within (.upTo (.simple .point)) := by
  have hresolve : ∃ e : Element Float,
      ofDescriptor (.restricted (.mixed [interiorValues]) (.upTo (.simple .point))) = .ok e ∧
        e.cell.dim = 1 ∧ EntityDofs.on e.layout.entityDofs 1 0 = [0] := ⟨_, rfl, rfl, rfl⟩
  obtain ⟨e, he, hdim, hdof⟩ := hresolve
  refine ⟨e, he, hdim, hdof, fun hwithin => ?_⟩
  have hoff : ¬ (Domain.upTo (.simple .point)).Allows e.cell.dim 1 := by
    change ¬ 1 ≤ 0
    omega
  rw [hwithin 1 hoff 0] at hdof
  cases hdof

end Element
end Variational
