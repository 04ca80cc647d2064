import Variational.Proofs.DualBasis
import Variational.Proofs.LatticeShapes

/-! The nodes of the Lagrange elements. There are as many as the expansion set has members, they are distinct, and
those of an entity lie in its relative interior. -/
namespace Variational

namespace Lagrange

section Count

theorem length_boxSteps (d n : ℕ) : (boxSteps d n).length = (n - 1) ^ d := by
  induction d with
  | zero => rfl
  | succ d ih => simp [boxSteps, between, List.length_flatMap, ih, pow_succ, mul_comm, Function.comp_def]

/-- The interior points of a simplex are counted from the last index down. -/
theorem length_simplexSteps_succ (d n : ℕ) :
    (simplexSteps (d + 1) n).length =
      ((List.range (n - 1)).map fun k => (simplexSteps d (n - (k + 1))).length).sum := by
  simp [simplexSteps, between, List.length_flatMap, Function.comp_def]

theorem length_simplexSteps (d m : ℕ) : (simplexSteps d (m + 1)).length = m.choose d := by
  induction d generalizing m with
  | zero => simp [simplexSteps]
  | succ d ih =>
    induction m with
    | zero => rfl
    | succ m ihm =>
      have hshift : (fun k => (simplexSteps d (m + 1 + 1 - (k + 1))).length) ∘ Nat.succ =
          fun k => (simplexSteps d (m + 1 - (k + 1))).length := by
        funext k
        simp only [Function.comp_apply, Nat.succ_eq_add_one, Nat.add_sub_add_right]
      rw [length_simplexSteps_succ, Nat.add_sub_cancel] at ihm ⊢
      rw [List.range_succ_eq_map, List.map_cons, List.map_map, hshift, List.sum_cons, ihm, Nat.choose_succ_succ, ← ih m]
      rfl

theorem length_steps (cell : ReferenceCell) (d m : ℕ) :
    (steps cell d (m + 1)).length = if cell.isSimplex then m.choose d else m ^ d := by
  rw [steps, apply_ite List.length, length_simplexSteps, length_boxSteps, Nat.add_sub_cancel]

theorem count_triangle (n : ℕ) : Expansion.count .triangle n = (n + 2).choose 2 := by
  rw [Nat.choose_two_right]
  rfl

theorem count_tetrahedron (n : ℕ) : Expansion.count .tetrahedron n = (n + 3).choose 3 := by
  rw [Nat.choose_eq_descFactorial_div_factorial, Expansion.count]
  congr 1
  simp only [Nat.descFactorial, Nat.sub_zero, show n + 3 - 2 = n + 1 by omega, show n + 3 - 1 = n + 2 by omega]
  ring

/-- The interior points of all entities are as many as the members of the expansion set. -/
theorem total_steps (cell : ReferenceCell) {degree : ℕ} (hdegree : 1 ≤ degree) :
    EntityDofs.total (fun d => (steps cell d degree).length) 0 cell.entityCounts = Expansion.count cell degree := by
  obtain ⟨m, rfl⟩ := Nat.exists_eq_add_of_le' hdegree
  simp only [length_steps]
  cases cell with
  | point => exact congrArg (1 * · + 0) m.choose_zero_right
  | interval =>
    change 2 * m.choose 0 + (1 * m.choose 1 + 0) = m + 1 + 1
    simp only [Nat.choose_zero_right, Nat.choose_one_right]
    omega
  | triangle =>
    change 3 * m.choose 0 + (3 * m.choose 1 + (1 * m.choose 2 + 0)) = _
    rw [count_triangle]
    simp only [Nat.choose_succ_succ', Nat.choose_zero_right, Nat.choose_one_right, Nat.reduceAdd]
    omega
  | quadrilateral =>
    change 4 * m ^ 0 + (4 * m ^ 1 + (1 * m ^ 2 + 0)) = (m + 1 + 1) * (m + 1 + 1)
    ring
  | tetrahedron =>
    change 4 * m.choose 0 + (6 * m.choose 1 + (4 * m.choose 2 + (1 * m.choose 3 + 0))) = _
    rw [count_tetrahedron]
    simp only [Nat.choose_succ_succ', Nat.choose_zero_right, Nat.choose_one_right, Nat.reduceAdd]
    omega
  | hexahedron =>
    change 8 * m ^ 0 + (12 * m ^ 1 + (6 * m ^ 2 + (1 * m ^ 3 + 0))) = (m + 1 + 1) * (m + 1 + 1) * (m + 1 + 1)
    ring

theorem length_points_eq (cell : ReferenceCell) {degree : ℕ} (hdegree : 1 ≤ degree) :
    (points cell degree : List (List ℝ)).length = Expansion.count cell degree := by
  rw [points, length_latticePoints]
  exact total_steps cell hdegree

end Count

section Indices

theorem nodup_between (n : ℕ) : (between n).Nodup := List.nodup_range.map (add_left_injective 1)

/-- Indices that are extended by different numbers are different. -/
theorem nodup_extend {ks : List ℕ} (hks : ks.Nodup) {f : ℕ → List (List ℕ)} (hf : ∀ k ∈ ks, (f k).Nodup) :
    (ks.flatMap fun k => (f k).map (· ++ [k])).Nodup := by
  refine List.nodup_flatMap.mpr ⟨fun k hk => (hf k hk).map (List.append_left_injective [k]), hks.imp fun hne => ?_⟩
  simp only [Function.onFun, List.disjoint_left, List.mem_map]
  rintro _ ⟨x, -, rfl⟩ ⟨y, -, h⟩
  exact hne (List.singleton_inj.mp (List.append_inj' h rfl).2).symm

theorem nodup_simplexSteps (d n : ℕ) : (simplexSteps d n).Nodup := by
  induction d generalizing n with
  | zero => exact List.nodup_singleton []
  | succ d ih => exact nodup_extend (nodup_between n) fun k _ => ih (n - k)

theorem nodup_boxSteps (d n : ℕ) : (boxSteps d n).Nodup := by
  induction d with
  | zero => exact List.nodup_singleton []
  | succ d ih => exact nodup_extend (nodup_between n) fun _ _ => ih

theorem nodup_steps (cell : ReferenceCell) (d n : ℕ) : (steps cell d n).Nodup := by
  rw [steps]
  split_ifs
  · exact nodup_simplexSteps d n
  · exact nodup_boxSteps d n

theorem length_of_mem_steps {cell : ReferenceCell} {d n : ℕ} (hn : 1 ≤ n) {index : List ℕ}
    (h : index ∈ steps cell d n) : index.length = d := by
  rw [steps] at h
  split_ifs at h
  · exact (of_mem_simplexSteps hn h).1
  · exact (of_mem_boxSteps h).1

end Indices

section Entities

/-- Each axis of an entity has a coordinate that it alone changes, from zero on. -/
theorem free_coordinate (cell : ReferenceCell) : ∀ level ∈ cell.topology.zipIdx, ∀ entity ∈ level.1, ∀ i < level.2,
    ∃ j < cell.dim, ((corners cell entity).headD []).getD j 0 = 0 ∧
      ∀ i' < level.2, ((axes cell level.2 (corners cell entity)).getD i' []).getD j 0 = if i = i' then 1 else 0 := by
  cases cell <;> decide

/-- The coordinates whose sum is zero or one at every vertex. -/
def markers (cell : ReferenceCell) : List (List ℕ) :=
  (List.range cell.dim).map (fun j => [j]) ++ if cell.isSimplex then [List.range cell.dim] else []

def marker {R : Type} [AddCommMonoid R] (js : List ℕ) (x : List R) : R := (js.map fun j => x.getD j 0).sum

/-- Where the sums are zero or one on the whole of an entity. -/
def key (cell : ReferenceCell) (entity : List ℕ) : List (Bool × Bool) :=
  (markers cell).map fun js => ((corners cell entity).all fun v => marker js v == 0,
    (corners cell entity).all fun v => marker js v == 1)

def entities (cell : ReferenceCell) : List (List ℕ × ℕ) :=
  cell.topology.zipIdx.flatMap fun level => level.1.map fun entity => (entity, level.2)

theorem nodup_keys (cell : ReferenceCell) : ((entities cell).map fun e => key cell e.1).Nodup := by
  cases cell <;> decide

theorem marker_corner (cell : ReferenceCell) : ∀ e ∈ entities cell, ∀ js ∈ markers cell, ∀ v ∈ corners cell e.1,
    marker js v = 0 ∨ marker js v = 1 := by
  cases cell <;> decide

theorem getD_map_cast (v : List ℤ) (j : ℕ) : (v.map (Int.cast : ℤ → ℝ)).getD j 0 = ((v.getD j 0 : ℤ) : ℝ) := by
  rw [← Int.cast_zero, List.getD_map]

theorem marker_cast (js : List ℕ) (v : List ℤ) : marker js (v.map (Int.cast : ℤ → ℝ)) = ((marker js v : ℤ) : ℝ) := by
  simp only [marker, getD_map_cast, Int.cast_list_sum, List.map_map, Function.comp_def]

theorem marker_of_mixed {terms : List (ℝ × List ℝ)} {p : List ℝ} (hp : ∀ j, p.getD j 0 = mixed terms j) (js : List ℕ) :
    marker js p = (terms.map fun t => t.1 * marker js t.2).sum := by
  simp only [marker, hp, mixed, ← List.sum_map_mul_left]
  exact sum_map_sum_comm js terms _

section Means

variable {ι : Type} {ts : List ι} {w x : ι → ℝ} (hw : ∀ t ∈ ts, 0 < w t)
include hw

theorem mean_eq_zero_iff (hx : ∀ t ∈ ts, 0 ≤ x t) : (ts.map fun t => w t * x t).sum = 0 ↔ ∀ t ∈ ts, x t = 0 := by
  induction ts with
  | nil => simp
  | cons t ts ih =>
    rw [List.forall_mem_cons] at hw hx
    have hrest : 0 ≤ (ts.map fun t => w t * x t).sum :=
      List.sum_nonneg (List.forall_mem_map.mpr fun t ht => mul_nonneg (hw.2 t ht).le (hx.2 t ht))
    rw [List.map_cons, List.sum_cons, add_eq_zero_iff_of_nonneg (mul_nonneg hw.1.le hx.1) hrest, ih hw.2 hx.2,
      mul_eq_zero_iff_left hw.1.ne', List.forall_mem_cons]

/-- A mean of numbers up to one is one only if all of them are. -/
theorem mean_eq_one_iff (htotal : (ts.map w).sum = 1) (hx : ∀ t ∈ ts, x t ≤ 1) :
    (ts.map fun t => w t * x t).sum = 1 ↔ ∀ t ∈ ts, x t = 1 := by
  have hcomplement : (ts.map fun t => w t * (1 - x t)).sum + (ts.map fun t => w t * x t).sum = 1 := by
    rw [← List.sum_map_add]
    refine (congrArg List.sum (List.map_congr_left fun t _ => ?_)).trans htotal
    ring
  have hiff := mean_eq_zero_iff hw (x := fun t => 1 - x t) fun t ht => sub_nonneg.mpr (hx t ht)
  constructor
  · intro h t ht
    have hzero := hiff.mp (by linarith) t ht
    linarith
  · intro h
    have hzero := hiff.mpr fun t ht => by rw [h t ht, sub_self]
    linarith

end Means

theorem Inside.marker_iff {cell : ReferenceCell} {e : List ℕ × ℕ} (he : e ∈ entities cell) {p : List ℝ}
    (hp : Inside (vertices cell e.1) p) {js : List ℕ} (hjs : js ∈ markers cell) :
    (marker js p = 0 ↔ ∀ v ∈ corners cell e.1, marker js v = 0) ∧
      (marker js p = 1 ↔ ∀ v ∈ corners cell e.1, marker js v = 1) := by
  obtain ⟨terms, hterms, hmixture, hp⟩ := hp
  rw [vertices_eq] at hterms
  have hall (P : ℝ → Prop) :
      (∀ t ∈ terms, P (marker js t.2)) ↔ ∀ v ∈ corners cell e.1, P ((marker js v : ℤ) : ℝ) := by
    have hmap : (∀ x ∈ terms.map Prod.snd, P (marker js x)) ↔
        ∀ x ∈ (corners cell e.1).map (·.map Int.cast), P (marker js x) := by rw [hterms]
    simpa only [List.forall_mem_map, marker_cast] using hmap
  have hvalues := marker_corner cell e he js hjs
  have hnonneg : ∀ t ∈ terms, 0 ≤ marker js t.2 := (hall (0 ≤ ·)).mpr fun v hv => by
    rcases hvalues v hv with h | h <;> simp [h]
  have hle : ∀ t ∈ terms, marker js t.2 ≤ 1 := (hall (· ≤ 1)).mpr fun v hv => by
    rcases hvalues v hv with h | h <;> simp [h]
  rw [marker_of_mixed hp, mean_eq_zero_iff hmixture.positive hnonneg,
    mean_eq_one_iff hmixture.positive hmixture.total hle, hall (· = 0), hall (· = 1)]
  simp only [Int.cast_eq_zero, Int.cast_eq_one, and_self]

/-- Entities with a common lattice point have the same key. -/
theorem key_eq {cell : ReferenceCell} {e e' : List ℕ × ℕ} (he : e ∈ entities cell) (he' : e' ∈ entities cell)
    {p : List ℝ} (hp : Inside (vertices cell e.1) p) (hp' : Inside (vertices cell e'.1) p) :
    key cell e.1 = key cell e'.1 := by
  refine List.map_congr_left fun js hjs => ?_
  obtain ⟨hzero, hone⟩ := Inside.marker_iff he hp hjs
  obtain ⟨hzero', hone'⟩ := Inside.marker_iff he' hp' hjs
  refine Prod.ext (Bool.eq_iff_iff.mpr ?_) (Bool.eq_iff_iff.mpr ?_)
  · simpa only [List.all_eq_true, beq_iff_eq] using hzero.symm.trans hzero'
  · simpa only [List.all_eq_true, beq_iff_eq] using hone.symm.trans hone'

theorem mem_entities {cell : ReferenceCell} {e : List ℕ × ℕ} (he : e ∈ entities cell) :
    ∃ level ∈ cell.topology.zipIdx, e.1 ∈ level.1 ∧ e.2 = level.2 := by
  simp only [entities, List.mem_flatMap, List.mem_map] at he
  obtain ⟨level, hlevel, entity, hentity, rfl⟩ := he
  exact ⟨level, hlevel, hentity, rfl⟩

theorem points_eq (cell : ReferenceCell) (degree : ℕ) :
    points cell degree = (entities cell).flatMap fun e => lattice cell degree e.2 (vertices cell e.1) := by
  rw [entities, List.flatMap_assoc]
  simp only [List.flatMap_map]
  rfl

theorem sum_zip_eq (xs : List ℝ) (as : List (List ℝ)) (j : ℕ) :
    ((List.zip xs as).map fun s => s.1 * s.2.getD j 0).sum =
      ∑ q ∈ Finset.range xs.length, xs.getD q 0 * (as.getD q []).getD j 0 := by
  induction xs generalizing as with
  | nil => simp
  | cons x xs ih =>
    cases as with
    | nil => simp
    | cons a as =>
      rw [List.zip_cons_cons, List.map_cons, List.sum_cons, ih, List.length_cons, Finset.sum_range_succ', add_comm]
      rfl

theorem axes_vertices (cell : ReferenceCell) (dim : ℕ) (entity : List ℕ) :
    axes cell dim (vertices cell entity) = (axes cell dim (corners cell entity)).map (·.map Int.cast) := by
  rw [vertices_eq]
  exact axes_map (Int.castRingHom ℝ) cell dim (corners cell entity)

/-- The index of a lattice point can be read off the coordinates that belong to the axes. -/
theorem getD_latticePoint_free {cell : ReferenceCell} {e : List ℕ × ℕ} (he : e ∈ entities cell) {i : ℕ} (hi : i < e.2) :
    ∃ j, ∀ (degree : ℕ) (index : List ℕ), index.length = e.2 →
      (latticePoint degree ((vertices cell e.1).headD []) (axes cell e.2 (vertices cell e.1)) index).getD j 0 =
        (fractions degree index).getD i 0 := by
  obtain ⟨level, hlevel, hentity, hdim⟩ := mem_entities he
  rw [hdim] at hi ⊢
  obtain ⟨j, -, horigin, haxis⟩ := free_coordinate cell level hlevel e.1 hentity i hi
  refine ⟨j, fun degree index hindex => ?_⟩
  have hzero : ((vertices cell e.1).headD []).getD j 0 = 0 := by
    rw [vertices_eq, headD_map_map, getD_map_cast, horigin, Int.cast_zero]
  have hunit (q : ℕ) (hq : q < level.2) :
      ((axes cell level.2 (vertices cell e.1)).getD q []).getD j 0 = if i = q then 1 else 0 := by
    have hrow : (axes cell level.2 (vertices cell e.1)).getD q [] =
        ((axes cell level.2 (corners cell e.1)).getD q []).map Int.cast := by
      rw [axes_vertices]
      exact List.getD_map _ [] (List.map Int.cast)
    rw [hrow, getD_map_cast, haxis q hq, apply_ite Int.cast, Int.cast_one, Int.cast_zero]
  rw [getD_latticePoint (length_headD_vertices hlevel hentity) (length_of_mem_axes hlevel hentity), hzero, zero_add,
    sum_zip_eq, length_fractions, hindex]
  rw [Finset.sum_eq_single_of_mem i (Finset.mem_range.mpr hi) fun q hq hne => ?_, hunit i hi, if_pos rfl, mul_one]
  rw [hunit q (Finset.mem_range.mp hq), if_neg hne.symm, mul_zero]

theorem latticePoint_injective {cell : ReferenceCell} {e : List ℕ × ℕ} (he : e ∈ entities cell) {degree : ℕ}
    (hdegree : 1 ≤ degree) {index index' : List ℕ} (hindex : index.length = e.2) (hindex' : index'.length = e.2)
    (h : latticePoint degree ((vertices cell e.1).headD []) (axes cell e.2 (vertices cell e.1)) index =
      latticePoint degree ((vertices cell e.1).headD []) (axes cell e.2 (vertices cell e.1)) index') :
    index = index' := by
  refine List.ext_getElem (hindex.trans hindex'.symm) fun i hi hi' => ?_
  obtain ⟨j, hj⟩ := getD_latticePoint_free he (hindex ▸ hi)
  have hfractions := (hj degree index hindex).symm.trans ((congrArg (·.getD j 0) h).trans (hj degree index' hindex'))
  have hpos : (degree : ℝ) ≠ 0 := Nat.cast_ne_zero.mpr (Nat.one_le_iff_ne_zero.mp hdegree)
  rw [List.getD_eq_getElem _ _ (by simpa), List.getD_eq_getElem _ _ (by simpa)] at hfractions
  simp only [fractions, List.getElem_map] at hfractions
  exact Nat.cast_injective ((div_left_inj' hpos).mp hfractions)

theorem nodup_lattice {cell : ReferenceCell} {e : List ℕ × ℕ} (he : e ∈ entities cell) {degree : ℕ}
    (hdegree : 1 ≤ degree) : (lattice cell degree e.2 (vertices cell e.1)).Nodup := by
  rw [lattice_eq]
  refine (nodup_steps cell e.2 degree).map_on fun index hindex index' hindex' h => ?_
  exact latticePoint_injective he hdegree (length_of_mem_steps hdegree hindex) (length_of_mem_steps hdegree hindex') h

theorem nodup_points (cell : ReferenceCell) {degree : ℕ} (hdegree : 1 ≤ degree) :
    (points cell degree : List (List ℝ)).Nodup := by
  rw [points_eq]
  refine List.nodup_flatMap.mpr ⟨fun e he => nodup_lattice he hdegree, ?_⟩
  refine (List.pairwise_map.mp (nodup_keys cell)).imp_of_mem fun {e e'} he he' hne => ?_
  have hinside {e : List ℕ × ℕ} (he : e ∈ entities cell) {p : List ℝ}
      (hp : p ∈ lattice cell degree e.2 (vertices cell e.1)) : Inside (vertices cell e.1) p := by
    obtain ⟨level, hlevel, hentity, hdim⟩ := mem_entities he
    rw [hdim] at hp
    exact inside_entity hlevel hentity hdegree hp
  exact List.disjoint_left.mpr fun p hp hp' => hne (key_eq he he' (hinside he hp) (hinside he' hp'))

end Entities
end Lagrange

section Creation

/-- There is an element, or its dual matrix is singular. -/
def PolynomialElement.MadeUnlessSingular (family : String) (degree : ℕ) (r : Result (PolynomialElement ℝ)) : Prop :=
  (∃ e, r = .ok e) ∨ r = .error (.singularMatrix (.dual family degree))

namespace PolynomialElement

variable (family : String) {cell : ReferenceCell} {degree : ℕ} {points : List (List ℝ)} (entityDofs : EntityDofs)
  (hcount : points.length = Expansion.count cell degree) (hpoints : ∀ p ∈ points, cell.dim ≤ p.length)
include hcount hpoints

/-- As many points as the expansion set has members pass all checks, so that only the inverse is left to be found. -/
theorem ofPoints_eq :
    ofPoints family cell degree points entityDofs =
      match LinearSystem.inverse (pairings cell degree (fullSpan cell degree) (points.map Functional.at)) with
      | none => .error (.singularMatrix (.dual family degree))
      | some inverse => .ok
        { family, cell, degree, embeddedDegree := degree, map := .identity, valueShape := [], entityDofs
          coefficients := inverse.map fun weights => [combine (Expansion.count cell degree) weights
            ((fullSpan cell degree).map fun member => member.getD 0 [])] } := by
  have hlength : (points.map Functional.at).length = (fullSpan cell degree : List (List (List ℝ))).length := by
    rw [List.length_map, hcount, length_fullSpan]
  have hweights : (points.map Functional.at).find? (·.weights.length != 1) = none :=
    List.find?_eq_none.mpr (List.forall_mem_map.mpr fun p _ => by simp [Functional.at])
  have hvalues : Expansion.values cell degree ((points.map Functional.at).map (·.point)) =
      .ok (((points.map Functional.at).map (·.point)).map (Expansion.valuesAt cell degree)) :=
    Expansion.values_eq_ok_iff.mpr ⟨List.forall_mem_map.mpr (List.forall_mem_map.mpr hpoints), rfl⟩
  have hcovers : (fullSpan cell degree : List (List (List ℝ))).all (covers 1 (Expansion.count cell degree)) = true :=
    List.all_eq_true.mpr fun member hmember =>
      covers_of_length (full_fullSpan cell degree member hmember).1 (full_fullSpan cell degree member hmember).2
  simp only [ofPoints, create, List.foldr_nil, dualBasis, hlength, ne_eq, not_true, if_false, hweights, hvalues,
    hcovers, map_applyFunctional, Result.ok_bind, Bool.not_true, Bool.false_eq_true]
  cases LinearSystem.inverse (pairings cell degree (fullSpan cell degree) (points.map Functional.at)) <;> rfl

theorem ofPoints_unlessSingular :
    MadeUnlessSingular family degree (ofPoints family cell degree points entityDofs) := by
  rw [ofPoints_eq family entityDofs hcount hpoints]
  split
  · exact .inr rfl
  · exact .inl ⟨_, rfl⟩

end PolynomialElement

namespace Lagrange

variable (cell : ReferenceCell) {degree : ℕ} (hdegree : 1 ≤ degree)
include hdegree

theorem continuous_unlessSingular :
    PolynomialElement.MadeUnlessSingular "Lagrange" degree (continuous cell degree) := by
  rw [continuous, if_neg (Nat.one_le_iff_ne_zero.mp hdegree)]
  exact PolynomialElement.ofPoints_unlessSingular _ _ (length_points_eq cell hdegree)
    fun p hp => (length_points cell degree p hp).ge

theorem discontinuous_unlessSingular :
    PolynomialElement.MadeUnlessSingular "Discontinuous Lagrange" degree (discontinuous cell degree) := by
  simp only [discontinuous, if_neg (Nat.one_le_iff_ne_zero.mp hdegree)]
  exact PolynomialElement.ofPoints_unlessSingular _ _ (length_points_eq cell hdegree)
    fun p hp => (length_points cell degree p hp).ge

/-- The nodes of the Lagrange elements. The loops over the entities, which tell the shape of an entity from its
vertices, give the lattice points and meet no negative difference. There is a node for each member of the expansion
set, so that an element is missing only when its dual matrix is singular. The nodes are distinct. Those of an entity
lie in its relative interior, and their number depends on the dimension alone. -/
theorem points_complete :
    checkedPoints cell degree = .ok (points cell degree : List (List ℝ)) ∧
    (points cell degree : List (List ℝ)).length = Expansion.count cell degree ∧
    (points cell degree : List (List ℝ)).Nodup ∧
    (∀ level ∈ cell.topology.zipIdx, ∀ entity ∈ level.1,
      checkedEntity cell degree entity = .ok (lattice cell degree level.2 (vertices cell entity)) ∧
      (lattice cell degree level.2 (vertices cell entity)).length = (steps cell level.2 degree).length ∧
      ∀ p ∈ lattice cell degree level.2 (vertices cell entity), p.length = cell.dim ∧
        Expansion.coordinates cell.dim p ∈ relativeInterior cell.dim (vertices cell entity)) ∧
    PolynomialElement.MadeUnlessSingular "Lagrange" degree (continuous cell degree) ∧
    PolynomialElement.MadeUnlessSingular "Discontinuous Lagrange" degree (discontinuous cell degree) := by
  refine ⟨checkedPoints_eq cell degree, length_points_eq cell hdegree, nodup_points cell hdegree, ?_,
    continuous_unlessSingular cell hdegree, discontinuous_unlessSingular cell hdegree⟩
  intro level hlevel entity hentity
  refine ⟨checkedEntity_eq hlevel hentity degree, List.length_map _, fun p hp => ⟨?_, ?_⟩⟩
  · exact length_lattice (length_getD_vertices hlevel hentity) p hp
  · exact (inside_entity hlevel hentity hdegree hp).mem_relativeInterior cell.dim

omit hdegree

/-- Of the thirty-five nodes of degree four on the tetrahedron one is inside. -/
theorem points_complete_tetrahedron : 1 ≤ 4 ∧
    checkedPoints .tetrahedron 4 = .ok (points .tetrahedron 4 : List (List ℝ)) ∧
    (points .tetrahedron 4 : List (List ℝ)).length = 35 ∧ (points .tetrahedron 4 : List (List ℝ)).Nodup ∧
    (lattice .tetrahedron 4 3 (vertices .tetrahedron [0, 1, 2, 3])).length = 1 ∧
    ∀ p ∈ lattice .tetrahedron 4 3 (vertices .tetrahedron [0, 1, 2, 3]),
      Expansion.coordinates 3 p ∈ relativeInterior 3 (vertices .tetrahedron [0, 1, 2, 3]) := by
  have hdegree : 1 ≤ 4 := by decide
  obtain ⟨hchecked, hlength, hnodup, hentities, -⟩ := points_complete .tetrahedron hdegree
  obtain ⟨-, hinterior, hplace⟩ := hentities ([[0, 1, 2, 3]], 3) (by decide) [0, 1, 2, 3] (by decide)
  exact ⟨hdegree, hchecked, hlength, hnodup, hinterior, fun p hp => (hplace p hp).2⟩

end Lagrange
end Creation
end Variational
