import Variational.Header.DofMapClass
import Variational.Proofs.DofPartition
import Variational.Proofs.IntegerCode

/-! The global numbers that the code of a dof map gives to the dofs of a cell. The numbers of the dofs on
the entities of one dimension make a block, in a block each entity of the mesh has its own numbers, and the
code fills in exactly these. -/
namespace Variational

namespace DofMap

variable {α : Type} [Scalar α]

@[simp] theorem entityDofs_ofElement (e : Element α) :
    (ofElement e).entityDofs = e.layout.entityDofs := by
  cases e <;> rfl

@[simp] theorem localDimension_ofElement (e : Element α) : (ofElement e).localDimension = e.dimension := by
  cases e <;> rfl

/-- What belongs to entity `e` of dimension `d`. -/
def entity? {β : Type} (xss : List (List β)) (d e : ℕ) : Option β := (xss[d]?).bind (·[e]?)

/-- The local dof at a position on an entity of the cell. -/
def dofAt? (m : DofMap) (d e k : ℕ) : Option ℕ := (entity? m.entityDofs d e).bind (·[k]?)

/-- Number of dofs of a mesh on entities of dimensions below `d`. -/
def offset (m : DofMap) (counts : List ℕ) (d : ℕ) : ℕ :=
  ∑ d' ∈ Finset.range d, m.numEntityDofs d' * counts.getD d' 0

/-- The number of the dof at position `k` on mesh entity `i` of dimension `d`. -/
def number (m : DofMap) (counts : List ℕ) (d i k : ℕ) : ℕ :=
  m.offset counts d + m.numEntityDofs d * i + k

/-- A cell of a mesh with the given numbers of entities has a mesh index for each of its own entities, and
different entities of one dimension have different indices. -/
structure Fits (m : DofMap) (counts : List ℕ) (indices : List (List ℕ)) : Prop where
  indexed : ∀ d e, (entity? m.entityDofs d e).isSome → (entity? indices d e).isSome
  below : ∀ d e i, entity? indices d e = some i → i < counts.getD d 0
  distinct : ∀ d e e' i, entity? indices d e = some i → entity? indices d e' = some i → e = e'

theorem entity?_isSome {β : Type} {xss : List (List β)} {d e : ℕ} :
    (entity? xss d e).isSome ↔ ∃ n, (xss.map List.length)[d]? = some n ∧ e < n := by
  rw [List.getElem?_map]
  unfold entity?
  cases xss[d]? <;> simp

/-- Indices in lists of the right lengths, without repetitions and below the numbers of entities. -/
theorem Fits.ofLists {m : DofMap} {counts : List ℕ} {indices : List (List ℕ)}
    (hlengths : indices.map List.length = EntityDofs.counts m.entityDofs)
    (hbelow : ∀ x ∈ indices.zipIdx, ∀ i ∈ x.1, i < counts.getD x.2 0)
    (hdistinct : ∀ xs ∈ indices, xs.Nodup) : m.Fits counts indices where
  indexed d e h := by
    rw [entity?_isSome] at h ⊢
    rwa [hlengths]
  below d e i h := by
    obtain ⟨xs, hxs, hi⟩ := Option.bind_eq_some_iff.mp h
    exact hbelow (xs, d) (List.mem_zipIdx_iff_getElem?.mpr hxs) i (List.mem_of_getElem? hi)
  distinct d e e' i h h' := by
    obtain ⟨xs, hxs, hi⟩ := Option.bind_eq_some_iff.mp h
    obtain ⟨_, hxs', hi'⟩ := Option.bind_eq_some_iff.mp h'
    rw [hxs, Option.some.injEq] at hxs'
    subst hxs'
    have hlt := (List.getElem?_eq_some_iff.mp hi).1
    exact (List.getElem?_inj hlt (hdistinct xs (List.mem_of_getElem? hxs))).mp (hi.trans hi'.symm)

section Blocks

variable {m : DofMap} {counts : List ℕ}

theorem offset_succ (d : ℕ) :
    m.offset counts (d + 1) = m.offset counts d + m.numEntityDofs d * counts.getD d 0 :=
  Finset.sum_range_succ _ _

theorem offset_mono {d d' : ℕ} (h : d ≤ d') : m.offset counts d ≤ m.offset counts d' :=
  Finset.sum_le_sum_of_subset (Finset.range_mono h)

/-- The blocks of all dimensions have the size of the global dimension. -/
theorem offset_length : m.offset counts m.entityDofs.length = m.globalDimension counts :=
  rfl

/-- No entity has more dofs than each entity of its dimension has numbers. -/
theorem length_le_numEntityDofs {d e : ℕ} {dofs : List ℕ} (h : entity? m.entityDofs d e = some dofs) :
    dofs.length ≤ m.numEntityDofs d := by
  obtain ⟨entities, hentities, hdofs⟩ := Option.bind_eq_some_iff.mp h
  unfold numEntityDofs
  rw [List.getD_eq_getElem?_getD, hentities]
  have hmem : dofs.length ∈ entities.map List.length := List.mem_map_of_mem (List.mem_of_getElem? hdofs)
  exact List.le_max_of_le' _ hmem le_rfl

/-- The numbers on entities of one dimension stay inside their block. -/
theorem number_lt_offset {d i k : ℕ} (hi : i < counts.getD d 0) (hk : k < m.numEntityDofs d) :
    m.number counts d i k < m.offset counts (d + 1) := by
  rw [offset_succ, number, Nat.add_assoc, Nat.add_lt_add_iff_left]
  calc m.numEntityDofs d * i + k < m.numEntityDofs d * (i + 1) := by
        rw [Nat.mul_succ]
        omega
    _ ≤ m.numEntityDofs d * counts.getD d 0 := Nat.mul_le_mul_left _ hi

theorem number_lt_of_dim_lt {d d' i k : ℕ} (h : d < d') (hi : i < counts.getD d 0)
    (hk : k < m.numEntityDofs d) {i' k' : ℕ} :
    m.number counts d i k < m.number counts d' i' k' :=
  calc m.number counts d i k < m.offset counts (d + 1) := number_lt_offset hi hk
    _ ≤ m.offset counts d' := offset_mono h
    _ ≤ m.number counts d' i' k' := by
        unfold number
        omega

/-- A number determines the dimension, the mesh entity and the position on it. -/
theorem number_inj {d d' i i' k k' : ℕ} (hi : i < counts.getD d 0) (hk : k < m.numEntityDofs d)
    (hi' : i' < counts.getD d' 0) (hk' : k' < m.numEntityDofs d') :
    m.number counts d i k = m.number counts d' i' k' ↔ d = d' ∧ i = i' ∧ k = k' := by
  constructor
  · intro h
    -- Blocks of different dimensions do not meet.
    obtain rfl : d = d' := by
      rcases Nat.lt_trichotomy d d' with hlow | heq | hhigh
      · exact absurd h (number_lt_of_dim_lt hlow hi hk).ne
      · exact heq
      · exact absurd h (number_lt_of_dim_lt hhigh hi' hk').ne'
    have hblock : m.numEntityDofs d * i + k = m.numEntityDofs d * i' + k' := by
      unfold number at h
      omega
    have hquotient := congrArg (· / m.numEntityDofs d) hblock
    simp only [Nat.mul_add_div (Nat.zero_lt_of_lt hk), Nat.div_eq_of_lt hk,
      Nat.div_eq_of_lt hk'] at hquotient
    obtain rfl : i = i' := by simpa using hquotient
    exact ⟨rfl, rfl, by omega⟩
  · rintro ⟨rfl, rfl, rfl⟩
    rfl

end Blocks

/-- The numbers of entities of the mesh and the mesh indices of the entities of the cell. -/
def memory (counts : List ℕ) (indices : List (List ℕ)) : Code.Place → Option ℕ
  | ("m.num_entities", [d]) => counts[d]?
  | ("c.entity_indices", [d, e]) => entity? indices d e
  | _ => none

/-- The dofs on entities of one dimension with their entities and positions. -/
def places (entities : List (List ℕ)) : List (ℕ × ℕ × ℕ) :=
  entities.zipIdx.flatMap fun (dofs, e) => dofs.zipIdx.map fun (dof, k) => (dof, e, k)

/-- The dofs on entities of one dimension with their numbers in a block of the mesh. -/
def numberedOn (size offset : ℕ) (index : ℕ → ℕ) (entities : List (List ℕ)) : List (ℕ × ℕ) :=
  (places entities).map fun (dof, e, k) => (dof, offset + size * index e + k)

/-- All local dofs with their numbers. -/
def numbered (m : DofMap) (counts : List ℕ) (indices : List (List ℕ)) : List (ℕ × ℕ) :=
  m.entityDofs.zipIdx.flatMap fun (entities, d) =>
    numberedOn (m.numEntityDofs d) (m.offset counts d) (fun e => (entity? indices d e).getD 0) entities

section Numbered

variable {m : DofMap} {counts : List ℕ} {indices : List (List ℕ)}

theorem flatMap_zipIdx {β γ : Type} (xs : List β) (f : β → List γ) :
    (xs.zipIdx.flatMap fun x => f x.1) = xs.flatMap f := by
  conv_rhs => rw [← List.zipIdx_map_fst 0 xs, List.flatMap_map]

theorem numberedOn_dofs (size offset : ℕ) (index : ℕ → ℕ) (entities : List (List ℕ)) :
    (numberedOn size offset index entities).map (·.1) = entities.flatten := by
  simp only [numberedOn, places, List.map_flatMap, List.map_map]
  change (entities.zipIdx.flatMap fun x => x.1.zipIdx.map Prod.fst) = _
  simp only [List.zipIdx_map_fst]
  rw [flatMap_zipIdx entities fun dofs => dofs, List.flatMap_id']

/-- The code numbers the dofs of all entities in their order. -/
theorem numbered_dofs : (m.numbered counts indices).map (·.1) = EntityDofs.flat m.entityDofs := by
  simp only [numbered, List.map_flatMap, numberedOn_dofs]
  rw [flatMap_zipIdx m.entityDofs List.flatten, EntityDofs.flat, List.flatMap_def, List.flatten_flatten]

/-- On a dimension without numbers there are no dofs. -/
theorem numberedOn_eq_nil {d : ℕ} {entities : List (List ℕ)} (h : m.entityDofs[d]? = some entities)
    (hsize : m.numEntityDofs d = 0) (size offset : ℕ) (index : ℕ → ℕ) :
    numberedOn size offset index entities = [] := by
  have hflat : entities.flatten = [] := by
    rw [List.flatten_eq_nil_iff]
    intro dofs hdofs
    obtain ⟨e, he⟩ := List.mem_iff_getElem?.mp hdofs
    have hentity : entity? m.entityDofs d e = some dofs := by simp [entity?, h, he]
    have hlength := length_le_numEntityDofs hentity
    rw [hsize] at hlength
    exact List.eq_nil_of_length_eq_zero (Nat.le_zero.mp hlength)
  rw [← numberedOn_dofs size offset index, List.map_eq_nil_iff] at hflat
  exact hflat

theorem mem_places {entities : List (List ℕ)} {dof e k : ℕ} :
    (dof, e, k) ∈ places entities ↔ ∃ dofs, entities[e]? = some dofs ∧ dofs[k]? = some dof := by
  simp only [places, List.mem_flatMap, List.mem_map, Prod.exists, Prod.mk.injEq,
    List.mem_zipIdx_iff_getElem?]
  constructor
  · rintro ⟨dofs, e, he, dof, k, hk, rfl, rfl, rfl⟩
    exact ⟨dofs, he, hk⟩
  · rintro ⟨dofs, he, hk⟩
    exact ⟨dofs, e, he, dof, k, hk, rfl, rfl, rfl⟩

theorem mem_numbered {dof g : ℕ} : (dof, g) ∈ m.numbered counts indices ↔ ∃ d e k,
    m.dofAt? d e k = some dof ∧ m.number counts d ((entity? indices d e).getD 0) k = g := by
  simp only [numbered, numberedOn, List.mem_flatMap, List.mem_map, Prod.exists, Prod.mk.injEq,
    List.mem_zipIdx_iff_getElem?, mem_places, dofAt?, entity?, Option.bind_eq_some_iff]
  constructor
  · rintro ⟨entities, d, hd, dof, e, k, ⟨dofs, he, hk⟩, rfl, rfl⟩
    exact ⟨d, e, k, ⟨dofs, ⟨entities, hd, he⟩, hk⟩, rfl⟩
  · rintro ⟨d, e, k, ⟨dofs, ⟨entities, hd, he⟩, hk⟩, rfl⟩
    exact ⟨entities, d, hd, dof, e, k, ⟨dofs, he, hk⟩, rfl, rfl⟩

end Numbered
end DofMap

namespace DofMapClass
open Code DofMap

variable {β : Type} {counts : List ℕ} {indices : List (List ℕ)}

/-- A state between two statements of the numbering: where the next block starts, and the dofs that have
their numbers. -/
structure Reached (counts : List ℕ) (indices : List (List ℕ)) (w : Writes) (offset : ℕ)
    (done : List (ℕ × ℕ)) : Prop where
  offset : w.read (memory counts indices) ("offset", []) = some offset
  dofs : w.under "dofs" = (done.map fun x => (("dofs", [x.1]), x.2)).reverse
  counts : w.under "m.num_entities" = []
  indices : w.under "c.entity_indices" = []

namespace Reached

variable {w : Writes} {o : ℕ} {done : List (ℕ × ℕ)}

theorem extent (h : Reached counts indices w o done) {l : Level} {n : ℕ} (hn : counts[l.dim]? = some n) :
    (l.extent : Expr β).count? (w.read (memory counts indices)) = some (l.size * n) := by
  refine Expr.count?_times rfl ?_ one_le_two rfl
  change w.read (memory counts indices) ("m.num_entities", [l.dim]) = some n
  rw [Writes.read_of_under_nil h.counts]
  exact hn

theorem global (h : Reached counts indices w o done) {l : Level} {e i : ℕ}
    (hi : entity? indices l.dim e = some i) (k : ℕ) :
    (l.global e k : Expr β).count? (w.read (memory counts indices)) = some (o + l.size * i + k) := by
  refine Expr.count?_plus (Expr.count?_plus h.offset ?_ le_rfl) rfl one_le_two
  refine Expr.count?_times rfl ?_ one_le_two rfl
  change w.read (memory counts indices) ("c.entity_indices", [l.dim, e]) = some i
  rw [Writes.read_of_under_nil h.indices]
  exact hi

/-- One more dof gets its number. -/
theorem assign (h : Reached counts indices w o done) {l : Level} {e i : ℕ}
    (hi : entity? indices l.dim e = some i) (dof k : ℕ) : ∃ w',
    (Statement.assign (.entry (.name "dofs") (.natural dof)) (l.global e k) : Statement β).trace
        (memory counts indices) w = some w' ∧
      Reached counts indices w' o (done ++ [(dof, o + l.size * i + k)]) := by
  refine ⟨_, Statement.trace_assign rfl (h.global hi k), ?_, ?_, h.counts, h.indices⟩
  · rw [Writes.read_cons_of_ne (by simp)]
    exact h.offset
  · rw [List.map_append, List.reverse_append, ← h.dofs]
    rfl

/-- The next block starts after all numbers of the level. -/
theorem advance (h : Reached counts indices w o done) {l : Level} {n : ℕ}
    (hn : counts[l.dim]? = some n) : ∃ w',
    (Statement.loop [] (.name "offset") true l.extent : Statement β).trace (memory counts indices) w =
      some w' ∧ Reached counts indices w' (o + l.size * n) done :=
  ⟨_, Statement.trace_increase rfl (h.extent hn) h.offset, Writes.read_cons_self, h.dofs, h.counts,
    h.indices⟩

theorem assignAll (h : Reached counts indices w o done) (l : Level) {ps : List (ℕ × ℕ × ℕ)}
    (hps : ∀ p ∈ ps, (entity? indices l.dim p.2.1).isSome) : ∃ w',
    traceAll (memory counts indices) (ps.map fun p => (Statement.assign
        (.entry (.name "dofs") (.natural p.1)) (l.global p.2.1 p.2.2) : Statement β)) w = some w' ∧
      Reached counts indices w' o (done ++ ps.map fun p =>
        (p.1, o + l.size * (entity? indices l.dim p.2.1).getD 0 + p.2.2)) := by
  induction ps generalizing w done with
  | nil => exact ⟨w, rfl, by simpa using h⟩
  | cons p ps ih =>
    rw [List.forall_mem_cons] at hps
    obtain ⟨i, hi⟩ := Option.isSome_iff_exists.mp hps.1
    obtain ⟨w₁, hrun, hw₁⟩ := h.assign (β := β) hi p.1 p.2.2
    obtain ⟨w₂, hrest, hw₂⟩ := ih hw₁ hps.2
    refine ⟨w₂, ?_, ?_⟩
    · rw [List.map_cons, traceAll_cons, hrun]
      exact hrest
    · rw [List.append_assoc, List.singleton_append] at hw₂
      rwa [List.map_cons, hi, Option.getD_some]

theorem level (h : Reached counts indices w o done) {l : Level} {n : ℕ}
    (hindices : ∀ e < l.entities.length, (entity? indices l.dim e).isSome)
    (hn : counts[l.dim]? = some n) : ∃ w',
    traceAll (memory counts indices) (l.statements : List (Statement β)) w = some w' ∧
      Reached counts indices w' (o + l.size * n) (done ++
        numberedOn l.size o (fun e => (entity? indices l.dim e).getD 0) l.entities) := by
  have hplaces : ∀ p ∈ places l.entities, (entity? indices l.dim p.2.1).isSome := by
    rintro ⟨dof, e, k⟩ hp
    obtain ⟨dofs, he, -⟩ := mem_places.mp hp
    exact hindices e (List.getElem?_eq_some_iff.mp he).1
  obtain ⟨w₁, hassign, hw₁⟩ := h.assignAll (β := β) l hplaces
  obtain ⟨w₂, hadvance, hw₂⟩ := hw₁.advance (β := β) hn
  refine ⟨w₂, ?_, hw₂⟩
  have hbody : (l.statements : List (Statement β)) = .blank ::
      ((places l.entities).map (fun p => (Statement.assign
        (.entry (.name "dofs") (.natural p.1)) (l.global p.2.1 p.2.2))) ++
      [.loop [] (.name "offset") true l.extent]) := by
    simp [Level.statements, places, List.map_flatMap, Function.comp_def]
  rw [hbody, traceAll_cons]
  change traceAll _ _ w = _
  rw [traceAll_append, hassign]
  change traceAll _ [_] w₁ = _
  rw [traceAll_cons, hadvance]
  rfl

/-- The levels from dimension `d` on, of which those without dofs are skipped. -/
theorem levels {m : DofMap} (hcounts : m.entityDofs.length ≤ counts.length) (hfits : m.Fits counts indices)
    {es : List (List (List ℕ))} {d : ℕ} (hes : m.entityDofs.drop d = es)
    (h : Reached counts indices w (m.offset counts d) done) : ∃ w',
    traceAll (memory counts indices) ((((es.zipIdx d).map fun x =>
        (⟨x.2, m.numEntityDofs x.2, x.1⟩ : Level)).filter fun l => 0 < l.size).flatMap
          (Level.statements (α := β))) w = some w' ∧
      Reached counts indices w' (m.offset counts (d + es.length)) (done ++
        (es.zipIdx d).flatMap fun x => numberedOn (m.numEntityDofs x.2) (m.offset counts x.2)
          (fun e => (entity? indices x.2 e).getD 0) x.1) := by
  induction es generalizing d w done with
  | nil => exact ⟨w, rfl, by simpa using h⟩
  | cons entities es ih =>
    have hentities : m.entityDofs[d]? = some entities := by
      rw [← Nat.add_zero d, ← List.getElem?_drop, hes]
      rfl
    have hrest : m.entityDofs.drop (d + 1) = es := by
      rw [← List.drop_drop, hes]
      rfl
    have hlt : d < counts.length := (List.getElem?_eq_some_iff.mp hentities).1.trans_le hcounts
    have hcount : counts[d]? = some (counts.getD d 0) := by
      rw [List.getD_eq_getElem _ _ hlt, List.getElem?_eq_getElem hlt]
    rw [List.zipIdx_cons, List.map_cons, List.flatMap_cons, ← List.append_assoc, List.length_cons,
      Nat.add_comm es.length 1, ← Nat.add_assoc]
    by_cases hsize : 0 < m.numEntityDofs d
    · have hindices (e : ℕ) (he : e < entities.length) : (entity? indices d e).isSome := by
        apply hfits.indexed
        simp [entity?, hentities, he]
      obtain ⟨w₁, hlevel, hw₁⟩ := h.level (β := β) (l := ⟨d, m.numEntityDofs d, entities⟩) hindices hcount
      rw [← offset_succ] at hw₁
      obtain ⟨w₂, hlevels, hw₂⟩ := ih hrest hw₁
      refine ⟨w₂, ?_, hw₂⟩
      rw [List.filter_cons_of_pos (by simpa using hsize), List.flatMap_cons, traceAll_append, hlevel]
      exact hlevels
    · have hzero : m.numEntityDofs d = 0 := Nat.eq_zero_of_not_pos hsize
      rw [numberedOn_eq_nil hentities hzero, List.append_nil, List.filter_cons_of_neg (by simpa using hzero)]
      refine ih hrest ?_
      rwa [offset_succ, hzero, Nat.zero_mul, Nat.add_zero]

end Reached

/-- A run of the code gives each dof its number, in the order of the entities. -/
theorem trace_numbering {m : DofMap} (hcounts : m.entityDofs.length ≤ counts.length)
    (hfits : m.Fits counts indices) : ∃ w,
    traceAll (memory counts indices) (numbering m : List (Statement β)) [] = some w ∧
      w.under "dofs" = ((m.numbered counts indices).map fun x => (("dofs", [x.1]), x.2)).reverse := by
  have hstart : Reached counts indices [(("offset", []), 0)] (m.offset counts 0) [] :=
    ⟨rfl, rfl, rfl, rfl⟩
  obtain ⟨w, hrun, hw⟩ := hstart.levels (β := β) hcounts hfits (List.drop_zero)
  exact ⟨w, hrun, hw.dofs⟩

section Total

theorem count?_foldl_plus {memory : Place → Option ℕ} {es : List (Expr β)} {xs : List ℕ}
    (hes : List.Forall₂ (fun e x => e.count? memory = some x ∧ 1 ≤ e.bond) es xs) {acc : Expr β} {n : ℕ}
    (hacc : acc.count? memory = some n) :
    (es.foldl Expr.plus acc).count? memory = some (n + xs.sum) := by
  induction hes generalizing acc n with
  | nil => exact hacc
  | cons he _ ih =>
    rw [List.foldl_cons, List.sum_cons, ← Nat.add_assoc]
    exact ih (Expr.count?_plus hacc he.1 he.2)

theorem sum_filter_levels (ls : List Level) (f : Level → ℕ) (h : ∀ l, l.size = 0 → f l = 0) :
    ((ls.filter fun l => 0 < l.size).map f).sum = (ls.map f).sum := by
  induction ls with
  | nil => rfl
  | cons l ls ih =>
    by_cases hsize : 0 < l.size
    · rw [List.filter_cons_of_pos (by simpa using hsize), List.map_cons, List.sum_cons, ih, List.map_cons,
        List.sum_cons]
    · rw [List.filter_cons_of_neg (by simpa using hsize), ih, List.map_cons, List.sum_cons,
        h l (Nat.eq_zero_of_not_pos hsize), Nat.zero_add]

/-- The levels with dofs have all numbers of the mesh. -/
theorem sum_levels (m : DofMap) (counts : List ℕ) :
    ((levels m).map fun l => l.size * counts.getD l.dim 0).sum = m.globalDimension counts := by
  rw [levels, sum_filter_levels _ _ fun l hl => by rw [hl, Nat.zero_mul]]
  rw [List.map_map]
  change (m.entityDofs.zipIdx.map ((fun d => m.numEntityDofs d * counts.getD d 0) ∘ Prod.snd)).sum = _
  rw [← List.map_map, List.zipIdx_map_snd, ← List.range_eq_range']
  rfl

theorem dim_lt_of_mem_levels {m : DofMap} {l : Level} (h : l ∈ levels m) : l.dim < m.entityDofs.length := by
  obtain ⟨hmem, -⟩ := List.mem_filter.mp h
  obtain ⟨⟨entities, d⟩, hd, rfl⟩ := List.mem_map.mp hmem
  exact (List.getElem?_eq_some_iff.mp (List.mem_zipIdx_iff_getElem?.mp hd)).1

/-- The code for the number of dofs of a mesh computes it. -/
theorem count?_globalDimension {m : DofMap} (hcounts : m.entityDofs.length ≤ counts.length)
    (indices : List (List ℕ)) :
    (globalDimension m : Expr β).count? (memory counts indices) = some (m.globalDimension counts) := by
  have hextent (l : Level) (hl : l ∈ levels m) :
      (l.extent : Expr β).count? (memory counts indices) = some (l.size * counts.getD l.dim 0) := by
    have hlt := (dim_lt_of_mem_levels hl).trans_le hcounts
    refine Expr.count?_times rfl ?_ one_le_two rfl
    change counts[l.dim]? = some _
    rw [List.getD_eq_getElem _ _ hlt, List.getElem?_eq_getElem hlt]
  rw [← sum_levels]
  unfold globalDimension
  cases hlevels : levels m with
  | nil => rfl
  | cons l ls =>
    rw [hlevels, List.forall_mem_cons] at hextent
    rw [List.map_cons, List.sum_cons]
    refine count?_foldl_plus ?_ hextent.1
    rw [List.forall₂_map_left_iff, List.forall₂_map_right_iff, List.forall₂_same]
    exact fun l' hl' => ⟨hextent.2 l' hl', le_rfl⟩

end Total

section Cells

/-- The number that a run of the code leaves for a local dof. -/
def globalNumber? (β : Type) (m : DofMap) (counts : List ℕ) (indices : List (List ℕ)) (dof : ℕ) :
    Option ℕ :=
  (traceAll (memory counts indices) (numbering m : List (Statement β)) []).bind fun w =>
    w.read (memory counts indices) ("dofs", [dof])

variable {m : DofMap} (hcounts : m.entityDofs.length ≤ counts.length) (hfits : m.Fits counts indices)
  (hnumbers : EntityDofs.Numbers m.entityDofs m.localDimension)

include hcounts hfits hnumbers in
theorem globalNumber?_at {d e k i dof : ℕ} (hdof : m.dofAt? d e k = some dof)
    (hi : entity? indices d e = some i) :
    globalNumber? β m counts indices dof = some (m.number counts d i k) := by
  obtain ⟨w, hrun, hw⟩ := trace_numbering (β := β) hcounts hfits
  have hmem : (dof, m.number counts d i k) ∈ m.numbered counts indices :=
    mem_numbered.mpr ⟨d, e, k, hdof, by rw [hi, Option.getD_some]⟩
  have hwritten : (("dofs", [dof]), m.number counts d i k) ∈ w := by
    refine (Writes.mem_under (s := "dofs").mp ?_).1
    rw [hw, List.mem_reverse]
    exact List.mem_map_of_mem hmem
  have hdistinct : ((w.under "dofs").map (·.1)).Nodup := by
    rw [hw, List.map_reverse, List.nodup_reverse, List.map_map]
    change ((m.numbered counts indices).map ((fun dof => ("dofs", [dof])) ∘ Prod.fst)).Nodup
    rw [← List.map_map, numbered_dofs]
    refine List.Nodup.map (fun a b h => ?_) (hnumbers.nodup_iff.mpr List.nodup_range)
    simpa using h
  rw [globalNumber?, hrun]
  exact Writes.read_of_mem hdistinct hwritten

include hnumbers in
theorem exists_dofAt? {dof : ℕ} (h : dof < m.localDimension) : ∃ d e k, m.dofAt? d e k = some dof := by
  have hmem : dof ∈ EntityDofs.flat m.entityDofs := hnumbers.mem_iff.mpr (List.mem_range.mpr h)
  obtain ⟨dofs, hdofs, hk⟩ := List.mem_flatten.mp hmem
  obtain ⟨entities, hd, he⟩ := List.mem_flatten.mp hdofs
  obtain ⟨d, hd⟩ := List.mem_iff_getElem?.mp hd
  obtain ⟨e, he⟩ := List.mem_iff_getElem?.mp he
  obtain ⟨k, hk⟩ := List.mem_iff_getElem?.mp hk
  exact ⟨d, e, k, by simp [dofAt?, entity?, hd, he, hk]⟩

include hfits in
theorem exists_index {d e k dof : ℕ} (hdof : m.dofAt? d e k = some dof) :
    ∃ i, entity? indices d e = some i ∧ i < counts.getD d 0 ∧ k < m.numEntityDofs d ∧
      d < m.entityDofs.length := by
  obtain ⟨dofs, hdofs, hk⟩ := Option.bind_eq_some_iff.mp hdof
  obtain ⟨entities, hd, -⟩ := Option.bind_eq_some_iff.mp hdofs
  obtain ⟨i, hi⟩ := Option.isSome_iff_exists.mp (hfits.indexed d e (by rw [hdofs]; rfl))
  exact ⟨i, hi, hfits.below d e i hi,
    (List.getElem?_eq_some_iff.mp hk).1.trans_le (length_le_numEntityDofs hdofs),
    (List.getElem?_eq_some_iff.mp hd).1⟩

include hcounts hfits hnumbers

/-- Every local dof is written once. -/
theorem writes_once : ∃ w,
    traceAll (memory counts indices) (numbering m : List (Statement β)) [] = some w ∧
      ((w.under "dofs").map (·.1)).Perm ((List.range m.localDimension).map fun dof => ("dofs", [dof])) := by
  obtain ⟨w, hrun, hw⟩ := trace_numbering (β := β) hcounts hfits
  refine ⟨w, hrun, ?_⟩
  rw [hw, List.map_reverse, List.map_map]
  refine (List.reverse_perm _).trans ?_
  change ((m.numbered counts indices).map ((fun dof => ("dofs", [dof])) ∘ Prod.fst)).Perm _
  rw [← List.map_map, numbered_dofs]
  exact hnumbers.map _

theorem globalNumber?_lt {dof : ℕ} (h : dof < m.localDimension) :
    ∃ g < m.globalDimension counts, globalNumber? β m counts indices dof = some g := by
  obtain ⟨d, e, k, hdof⟩ := exists_dofAt? hnumbers h
  obtain ⟨i, hi, hbelow, hk, hd⟩ := exists_index hfits hdof
  refine ⟨_, ?_, globalNumber?_at hcounts hfits hnumbers hdof hi⟩
  calc m.number counts d i k < m.offset counts (d + 1) := number_lt_offset hbelow hk
    _ ≤ m.offset counts m.entityDofs.length := offset_mono hd
    _ = m.globalDimension counts := offset_length

/-- Dofs of two cells share a number when they are the same dof of the same mesh entity. -/
theorem globalNumber?_eq_iff {indices' : List (List ℕ)} (hfits' : m.Fits counts indices')
    {d e k i dof d' e' k' i' dof' : ℕ} (hdof : m.dofAt? d e k = some dof) (hi : entity? indices d e = some i)
    (hdof' : m.dofAt? d' e' k' = some dof') (hi' : entity? indices' d' e' = some i') :
    globalNumber? β m counts indices dof = globalNumber? β m counts indices' dof' ↔
      d = d' ∧ i = i' ∧ k = k' := by
  obtain ⟨_, hindex, hbelow, hk, -⟩ := exists_index hfits hdof
  obtain ⟨_, hindex', hbelow', hk', -⟩ := exists_index hfits' hdof'
  rw [hi, Option.some.injEq] at hindex
  rw [hi', Option.some.injEq] at hindex'
  subst hindex hindex'
  rw [globalNumber?_at hcounts hfits hnumbers hdof hi, globalNumber?_at hcounts hfits' hnumbers hdof' hi',
    Option.some.injEq, number_inj hbelow hk hbelow' hk']

theorem globalNumber?_injective {dof dof' : ℕ} (h : dof < m.localDimension) (h' : dof' < m.localDimension)
    (heq : globalNumber? β m counts indices dof = globalNumber? β m counts indices dof') : dof = dof' := by
  obtain ⟨d, e, k, hdof⟩ := exists_dofAt? hnumbers h
  obtain ⟨d', e', k', hdof'⟩ := exists_dofAt? hnumbers h'
  obtain ⟨i, hi, -⟩ := exists_index hfits hdof
  obtain ⟨i', hi', -⟩ := exists_index hfits hdof'
  obtain ⟨rfl, rfl, rfl⟩ :=
    (globalNumber?_eq_iff hcounts hfits hnumbers hfits hdof hi hdof' hi').mp heq
  obtain rfl := hfits.distinct d e e' i hi hi'
  exact Option.some.inj (hdof.symm.trans hdof')

end Cells

section Resolved

variable {α : Type} [Scalar α]

/-- On every mesh and every cell of it the code of the dof map of a resolved element writes one number to
each local dof, different ones to different dofs and all below the global dimension, which the code
computes too. Dofs of two cells get the same number exactly when they have the same position on the same
mesh entity. -/
theorem numbering_agrees {desc : Descriptor} {el : Element α} (h : Element.ofDescriptor desc = .ok el)
    {counts : List ℕ} (hcounts : el.layout.entityDofs.length ≤ counts.length) :
    (∀ indices, (globalDimension (ofElement el) : Expr β).count? (memory counts indices) =
      some ((ofElement el).globalDimension counts)) ∧
    (∀ indices, (ofElement el).Fits counts indices →
      (∃ w, traceAll (memory counts indices) (numbering (ofElement el) : List (Statement β)) [] = some w ∧
        ((w.under "dofs").map (·.1)).Perm
          ((List.range (ofElement el).localDimension).map fun dof => ("dofs", [dof]))) ∧
      (∀ dof < (ofElement el).localDimension, ∃ g < (ofElement el).globalDimension counts,
        globalNumber? β (ofElement el) counts indices dof = some g) ∧
      (∀ dof < (ofElement el).localDimension, ∀ dof' < (ofElement el).localDimension, dof ≠ dof' →
        globalNumber? β (ofElement el) counts indices dof ≠
          globalNumber? β (ofElement el) counts indices dof')) ∧
    (∀ indices indices', (ofElement el).Fits counts indices → (ofElement el).Fits counts indices' →
      ∀ d e k i dof d' e' k' i' dof', (ofElement el).dofAt? d e k = some dof →
        entity? indices d e = some i → (ofElement el).dofAt? d' e' k' = some dof' →
        entity? indices' d' e' = some i' →
        (globalNumber? β (ofElement el) counts indices dof =
          globalNumber? β (ofElement el) counts indices' dof' ↔ d = d' ∧ i = i' ∧ k = k')) := by
  have hpartitioned := ((Element.closed_partitioned.resolve desc) _ (Cache.all_empty _)).2.2 el h
  have hnumbers : EntityDofs.Numbers (ofElement el).entityDofs (ofElement el).localDimension := by
    rw [entityDofs_ofElement, localDimension_ofElement]
    exact hpartitioned.numbers
  rw [← entityDofs_ofElement] at hcounts
  refine ⟨count?_globalDimension hcounts, fun indices hfits => ⟨?_, ?_, ?_⟩, ?_⟩
  · exact writes_once hcounts hfits hnumbers
  · exact fun dof hdof => globalNumber?_lt hcounts hfits hnumbers hdof
  · exact fun dof hdof dof' hdof' hne heq =>
      hne (globalNumber?_injective hcounts hfits hnumbers hdof hdof' heq)
  · intro indices indices' hfits hfits' d e k i dof d' e' k' i' dof' hdof hi hdof' hi'
    exact globalNumber?_eq_iff hcounts hfits hnumbers hfits' hdof hi hdof' hi'

/-- Two values in the middle of an interval. -/
def midpointPair : Descriptor :=
  let value : Descriptor := .simple "Quadrature" (.simple .interval) (some 1)
  .mixed [value, value]

/-- Two neighbouring intervals of a mesh with three vertices. -/
theorem numbering_midpointPair : ∃ el : Element Float, Element.ofDescriptor midpointPair = .ok el ∧
    (ofElement el).Fits [3, 2] [[0, 1], [0]] ∧ (ofElement el).Fits [3, 2] [[1, 2], [1]] ∧
    (∀ dof < 2, ∃ g < 4, globalNumber? Float (ofElement el) [3, 2] [[1, 2], [1]] dof = some g) ∧
    globalNumber? Float (ofElement el) [3, 2] [[0, 1], [0]] 0 ≠
      globalNumber? Float (ofElement el) [3, 2] [[1, 2], [1]] 0 := by
  have hel : ∃ el : Element Float, Element.ofDescriptor midpointPair = .ok el ∧
      el.layout.entityDofs = [[[], []], [[0, 1]]] ∧ el.dimension = 2 := ⟨_, rfl, rfl, rfl⟩
  obtain ⟨el, hresolved, hdofs, hdimension⟩ := hel
  have hfits {indices : List (List ℕ)} (h : indices = [[0, 1], [0]] ∨ indices = [[1, 2], [1]]) :
      (ofElement el).Fits [3, 2] indices := by
    apply Fits.ofLists
    · rw [entityDofs_ofElement, hdofs]
      rcases h with rfl | rfl <;> rfl
    · rcases h with rfl | rfl <;> decide
    · rcases h with rfl | rfl <;> decide
  have hcounts : el.layout.entityDofs.length ≤ [3, 2].length := by
    rw [hdofs]
    rfl
  obtain ⟨-, hcell, hcells⟩ := numbering_agrees (β := Float) hresolved hcounts
  have hfirst := hfits (.inl rfl)
  have hsecond := hfits (.inr rfl)
  refine ⟨el, hresolved, hfirst, hsecond, ?_, ?_⟩
  · have hbelow := (hcell _ hsecond).2.1
    have hglobal : (ofElement el).globalDimension [3, 2] = 4 := by
      rw [DofMap.globalDimension]
      simp only [numEntityDofs, entityDofs_ofElement, hdofs]
      decide
    rwa [localDimension_ofElement, hdimension, hglobal] at hbelow
  · intro heq
    have hdof : (ofElement el).dofAt? 1 0 0 = some 0 := by simp [dofAt?, entity?, hdofs]
    have hsame := (hcells _ _ hfirst hsecond 1 0 0 0 0 1 0 0 1 0 hdof rfl hdof rfl).mp heq
    exact absurd hsame.2.1 (by decide)

end Resolved
end DofMapClass
end Variational
