import Variational.Proofs.ExpansionDerivatives
import Variational.Proofs.SafeResolution

/-! The place of the lattice points of an entity. A lattice point is a mixture of all vertices of its entity, each with
a positive weight, so it lies in the relative interior of their convex hull. -/
namespace Variational

open Set

/-- A combination with positive weights lies in the relative interior of the convex hull. -/
theorem sum_smul_mem_intrinsicInterior {ι E : Type} [Fintype ι] [NormedAddCommGroup E] [NormedSpace ℝ E]
    (v : ι → E) {w : ι → ℝ} (hw : ∀ i, 0 < w i) (htotal : ∑ i, w i = 1) :
    ∑ i, w i • v i ∈ intrinsicInterior ℝ (convexHull ℝ (range v)) := by
  have hhull {u : ι → ℝ} (hu : ∀ i, 0 < u i) (hone : ∑ i, u i = 1) : ∑ i, u i • v i ∈ convexHull ℝ (range v) :=
    (convex_convexHull ℝ _).sum_mem (fun i _ => (hu i).le) hone fun i _ => subset_convexHull ℝ _ (mem_range_self i)
  set p := ∑ i, w i • v i with hp
  -- The combinations of the edges from the point fill a neighbourhood of zero.
  let T : (ι → ℝ) →ₗ[ℝ] E := ∑ i, (LinearMap.proj i).smulRight (v i - p)
  have hT (z : ι → ℝ) : T z = ∑ i, z i • v i - (∑ i, z i) • p := by
    simp [T, smul_sub, Finset.sum_smul]
  let U : Set (ι → ℝ) := {z | ∀ i, 0 < w i * (1 - ∑ j, z j) + z i}
  have hU : IsOpen U := by
    simp only [U, ofPred_forall]
    refine isOpen_iInter_of_finite fun i => isOpen_lt continuous_const ?_
    fun_prop
  have himage : IsOpen (T.rangeRestrict '' U) :=
    T.rangeRestrict.isOpenMap_of_finiteDimensional T.surjective_rangeRestrict U hU
  have hmem {q : E} (hq : q ∈ affineSpan ℝ (convexHull ℝ (range v))) : q - p ∈ LinearMap.range T := by
    rw [affineSpan_convexHull] at hq
    obtain ⟨u, hu, rfl⟩ := eq_affineCombination_of_mem_affineSpan_of_fintype hq
    refine ⟨u, ?_⟩
    rw [hT, hu, one_smul, Finset.affineCombination_eq_linear_combination _ _ _ hu]
  refine mem_intrinsicInterior.mpr ⟨⟨p, subset_affineSpan ℝ _ (hhull hw htotal)⟩, ?_, rfl⟩
  refine mem_interior.mpr ⟨preimage (fun q => ⟨q - p, hmem q.2⟩) (T.rangeRestrict '' U), ?_, ?_, ?_⟩
  · rintro ⟨q, hq⟩ ⟨z, hz, hzq⟩
    have hexpand : ∑ i, (w i * (1 - ∑ j, z j) + z i) • v i = (1 - ∑ j, z j) • p + ∑ i, z i • v i := by
      rw [hp, Finset.smul_sum, ← Finset.sum_add_distrib]
      refine Finset.sum_congr rfl fun i _ => ?_
      rw [add_smul, mul_comm, mul_smul]
    have hone : ∑ i, (w i * (1 - ∑ j, z j) + z i) = 1 := by
      rw [Finset.sum_add_distrib, ← Finset.sum_mul, htotal]
      ring
    have hdifference : T z = q - p := congrArg Subtype.val hzq
    have hcombination : q = ∑ i, (w i * (1 - ∑ j, z j) + z i) • v i := by
      rw [hexpand, sub_smul, one_smul, ← sub_add_cancel q p, ← hdifference, hT]
      abel
    change q ∈ convexHull ℝ (range v)
    rw [hcombination]
    exact hhull hz hone
  · exact himage.preimage (by fun_prop)
  · refine ⟨0, fun i => by simpa using hw i, ?_⟩
    ext
    simp

section Mixtures

/-- Points with positive weights that add up to one. -/
structure Mixture (terms : List (ℝ × List ℝ)) : Prop where
  positive : ∀ t ∈ terms, 0 < t.1
  total : (terms.map Prod.fst).sum = 1

/-- A coordinate of the weighted sum of points. -/
def mixed (terms : List (ℝ × List ℝ)) (j : ℕ) : ℝ := (terms.map fun t => t.1 * t.2.getD j 0).sum

/-- The point is a mixture of all the vertices. -/
def Inside (vs : List (List ℝ)) (p : List ℝ) : Prop :=
  ∃ terms, terms.map Prod.snd = vs ∧ Mixture terms ∧ ∀ j, p.getD j 0 = mixed terms j

/-- The relative interior of the convex hull of points. -/
def relativeInterior (n : ℕ) (vs : List (List ℝ)) : Set (Fin n → ℝ) :=
  intrinsicInterior ℝ (convexHull ℝ (Expansion.coordinates n '' {v | v ∈ vs}))

theorem Inside.mem_relativeInterior {vs : List (List ℝ)} {p : List ℝ} (h : Inside vs p) (n : ℕ) :
    Expansion.coordinates n p ∈ relativeInterior n vs := by
  obtain ⟨terms, rfl, hmixture, hp⟩ := h
  let v (i : Fin terms.length) : Fin n → ℝ := Expansion.coordinates n (terms.get i).2
  let w (i : Fin terms.length) : ℝ := (terms.get i).1
  have hrange : range v = Expansion.coordinates n '' {x | x ∈ terms.map Prod.snd} := by
    ext y
    simp only [v, mem_range, mem_image, mem_ofPred_eq, List.mem_map]
    constructor
    · rintro ⟨i, rfl⟩
      exact ⟨_, ⟨_, List.get_mem terms i, rfl⟩, rfl⟩
    · rintro ⟨_, ⟨t, ht, rfl⟩, rfl⟩
      obtain ⟨i, rfl⟩ := List.mem_iff_get.mp ht
      exact ⟨i, rfl⟩
  have htotal : ∑ i, w i = 1 := (Fin.sum_univ_fun_getElem terms Prod.fst).trans hmixture.total
  have hpoint : Expansion.coordinates n p = ∑ i, w i • v i := by
    funext j
    rw [Finset.sum_apply]
    refine (hp j).trans ?_
    exact (Fin.sum_univ_fun_getElem terms fun t => t.1 * t.2.getD j 0).symm
  rw [relativeInterior, ← hrange, hpoint]
  exact sum_smul_mem_intrinsicInterior v (fun i => hmixture.positive _ (List.get_mem terms i)) htotal

end Mixtures

section Shapes

variable {R : Type} [Ring R]

/-- The vertices of a box from one of them and its axes, the first axis fastest. -/
def boxVertices (origin : List R) : List (List R) → List (List R)
  | [] => [origin]
  | axis :: axes => (boxVertices origin axes).flatMap fun v => [v, List.zipWith (· + ·) v axis]

/-- The vertices of a box, each with its share of the point that has the given coordinates along the axes. -/
def boxTerms (origin : List R) : List (R × List R) → List (R × List R)
  | [] => [(1, origin)]
  | s :: steps => (boxTerms origin steps).flatMap fun t =>
    [((1 - s.1) * t.1, t.2), (s.1 * t.1, List.zipWith (· + ·) t.2 s.2)]

theorem map_snd_boxTerms (origin : List R) (steps : List (R × List R)) :
    (boxTerms origin steps).map Prod.snd = boxVertices origin (steps.map Prod.snd) := by
  induction steps with
  | nil => rfl
  | cons s steps ih =>
    rw [boxTerms, List.map_cons, boxVertices, ← ih, List.map_flatMap, List.flatMap_map]
    rfl

theorem length_boxTerms {n : ℕ} {origin : List R} {steps : List (R × List R)} (horigin : origin.length = n)
    (hsteps : ∀ s ∈ steps, s.2.length = n) : ∀ t ∈ boxTerms origin steps, t.2.length = n := by
  induction steps with
  | nil => exact List.forall_mem_singleton.mpr horigin
  | cons s steps ih =>
    rw [List.forall_mem_cons] at hsteps
    refine List.forall_mem_flatMap.mpr fun t ht => List.forall_mem_cons.mpr ⟨ih hsteps.2 t ht, ?_⟩
    refine List.forall_mem_singleton.mpr ?_
    rw [List.length_zipWith, ih hsteps.2 t ht, hsteps.1, Nat.min_self]

theorem mixture_boxTerms (origin : List ℝ) {steps : List (ℝ × List ℝ)} (hsteps : ∀ s ∈ steps, 0 < s.1 ∧ s.1 < 1) :
    Mixture (boxTerms origin steps) := by
  induction steps with
  | nil => exact ⟨List.forall_mem_singleton.mpr one_pos, by simp [boxTerms]⟩
  | cons s steps ih =>
    rw [List.forall_mem_cons] at hsteps
    obtain ⟨hpositive, htotal⟩ := ih hsteps.2
    refine ⟨List.forall_mem_flatMap.mpr fun t ht => List.forall_mem_cons.mpr ⟨?_, List.forall_mem_singleton.mpr ?_⟩, ?_⟩
    · exact mul_pos (sub_pos.mpr hsteps.1.2) (hpositive t ht)
    · exact mul_pos hsteps.1.1 (hpositive t ht)
    · have hpair (t : ℝ × List ℝ) : (1 - s.1) * t.1 + (s.1 * t.1 + 0) = t.1 := by ring
      rw [boxTerms, sum_flatMap]
      simpa only [List.map_cons, List.map_nil, List.sum_cons, List.sum_nil, hpair] using htotal

theorem mixed_boxTerms {n : ℕ} {origin : List ℝ} {steps : List (ℝ × List ℝ)} (horigin : origin.length = n)
    (hsteps : ∀ s ∈ steps, (0 < s.1 ∧ s.1 < 1) ∧ s.2.length = n) (j : ℕ) :
    mixed (boxTerms origin steps) j = origin.getD j 0 + (steps.map fun s => s.1 * s.2.getD j 0).sum := by
  induction steps with
  | nil => simp [boxTerms, mixed]
  | cons s steps ih =>
    rw [List.forall_mem_cons] at hsteps
    have htotal := (mixture_boxTerms origin fun s hs => (hsteps.2 s hs).1).total
    have hlength := length_boxTerms horigin fun s hs => (hsteps.2 s hs).2
    have hrest := ih hsteps.2
    have hpair (t : ℝ × List ℝ) (ht : t ∈ boxTerms origin steps) :
        (1 - s.1) * t.1 * t.2.getD j 0 + (s.1 * t.1 * (List.zipWith (· + ·) t.2 s.2).getD j 0 + 0) =
          t.1 * t.2.getD j 0 + t.1 * (s.1 * s.2.getD j 0) := by
      rw [getD_zipWith (add_zero 0) ((hlength t ht).trans hsteps.1.2.symm)]
      ring
    rw [mixed] at hrest ⊢
    rw [boxTerms, sum_flatMap]
    simp only [List.map_cons, List.map_nil, List.sum_cons, List.sum_nil]
    rw [List.map_congr_left hpair, List.sum_map_add, List.sum_map_mul_right, htotal, hrest]
    ring

/-- The vertices of a simplex, each with its share of the point that has the given coordinates along the axes. -/
def simplexTerms (origin : List ℝ) (steps : List (ℝ × List ℝ)) : List (ℝ × List ℝ) :=
  (1 - (steps.map Prod.fst).sum, origin) :: steps

theorem mixture_simplexTerms (origin : List ℝ) {steps : List (ℝ × List ℝ)} (hsteps : ∀ s ∈ steps, 0 < s.1)
    (hsum : (steps.map Prod.fst).sum < 1) : Mixture (simplexTerms origin steps) := by
  refine ⟨List.forall_mem_cons.mpr ⟨sub_pos.mpr hsum, hsteps⟩, ?_⟩
  rw [simplexTerms, List.map_cons, List.sum_cons, sub_add_cancel]

theorem mixed_simplexTerms (origin : List ℝ) (steps : List (ℝ × List ℝ)) (j : ℕ) :
    mixed (simplexTerms origin steps) j =
      origin.getD j 0 + (steps.map fun s => s.1 * (s.2.getD j 0 - origin.getD j 0)).sum := by
  have hsplit : (steps.map fun s => s.1 * (s.2.getD j 0 - origin.getD j 0)).sum +
      (steps.map Prod.fst).sum * origin.getD j 0 = (steps.map fun s => s.1 * s.2.getD j 0).sum := by
    rw [← List.sum_map_mul_right, ← List.sum_map_add]
    refine congrArg List.sum (List.map_congr_left fun s _ => ?_)
    ring
  rw [mixed, simplexTerms, List.map_cons, List.sum_cons, ← hsplit]
  ring

end Shapes

namespace Lagrange

section Steps

theorem mem_between {n k : ℕ} : k ∈ between n ↔ 1 ≤ k ∧ k < n := by
  simp only [between, List.mem_map, List.mem_range]
  constructor
  · rintro ⟨i, hi, rfl⟩
    omega
  · rintro ⟨hk, hkn⟩
    exact ⟨k - 1, by omega, by omega⟩

/-- The indices of an interior point of a simplex are positive, and their sum is below the degree. -/
theorem of_mem_simplexSteps {d n : ℕ} (hn : 1 ≤ n) {index : List ℕ} (h : index ∈ simplexSteps d n) :
    index.length = d ∧ (∀ x ∈ index, 1 ≤ x) ∧ index.sum < n := by
  induction d generalizing n index with
  | zero =>
    obtain rfl := List.mem_singleton.mp h
    exact ⟨rfl, nofun, hn⟩
  | succ d ih =>
    simp only [simplexSteps, List.mem_flatMap, List.mem_map, mem_between] at h
    obtain ⟨k, hk, inner, hinner, rfl⟩ := h
    obtain ⟨hlength, hpositive, hsum⟩ := ih (by omega) hinner
    refine ⟨by simp [hlength], List.forall_mem_append.mpr ⟨hpositive, List.forall_mem_singleton.mpr hk.1⟩, ?_⟩
    rw [List.sum_append, List.sum_singleton]
    omega

/-- The indices of an interior point of a box lie strictly between zero and the degree. -/
theorem of_mem_boxSteps {d n : ℕ} {index : List ℕ} (h : index ∈ boxSteps d n) :
    index.length = d ∧ ∀ x ∈ index, 1 ≤ x ∧ x < n := by
  induction d generalizing index with
  | zero =>
    obtain rfl := List.mem_singleton.mp h
    exact ⟨rfl, nofun⟩
  | succ d ih =>
    simp only [boxSteps, List.mem_flatMap, List.mem_map, mem_between] at h
    obtain ⟨k, hk, inner, hinner, rfl⟩ := h
    obtain ⟨hlength, hbounds⟩ := ih hinner
    exact ⟨by simp [hlength], List.forall_mem_append.mpr ⟨hbounds, List.forall_mem_singleton.mpr hk⟩⟩

end Steps

section Points

variable {cell : ReferenceCell} {degree dim n : ℕ}

/-- The axes of an entity with the given vertices. -/
def axes {R : Type} [Sub R] (cell : ReferenceCell) (dim : ℕ) (vertices : List (List R)) : List (List R) :=
  (axisVertices cell dim).map fun v => List.zipWith (· - ·) (vertices.getD v []) (vertices.headD [])

/-- The coordinates of a lattice point along the axes. -/
noncomputable def fractions (degree : ℕ) (index : List ℕ) : List ℝ := index.map fun i : ℕ => (i : ℝ) / degree

@[simp] theorem length_fractions (degree : ℕ) (index : List ℕ) : (fractions degree index).length = index.length :=
  List.length_map _

theorem fractions_pos {index : List ℕ} (hdegree : 1 ≤ degree) (h : ∀ i ∈ index, 1 ≤ i) :
    ∀ t ∈ fractions degree index, 0 < t :=
  List.forall_mem_map.mpr fun i hi => div_pos (Nat.cast_pos.mpr (h i hi)) (Nat.cast_pos.mpr hdegree)

theorem fractions_lt_one {index : List ℕ} (h : ∀ i ∈ index, i < degree) : ∀ t ∈ fractions degree index, t < 1 := by
  refine List.forall_mem_map.mpr fun i hi => ?_
  have hlt : (i : ℝ) < degree := Nat.cast_lt.mpr (h i hi)
  exact (div_lt_one (i.cast_nonneg.trans_lt hlt)).mpr hlt

theorem sum_fractions (degree : ℕ) (index : List ℕ) : (fractions degree index).sum = (index.sum : ℝ) / degree := by
  induction index with
  | nil => simp [fractions]
  | cons i index ih =>
    rw [fractions, List.map_cons, List.sum_cons, List.sum_cons, Nat.cast_add, add_div, ← ih]
    rfl

/-- The lattice point with the given index. -/
noncomputable def latticePoint (degree : ℕ) (origin : List ℝ) (axes : List (List ℝ)) (index : List ℕ) : List ℝ :=
  (List.zip index axes).foldl
    (fun p (n, axis) => List.zipWith (fun x y => x + (n : ℝ) / (degree : ℝ) * y) p axis) origin

theorem lattice_eq (vertices : List (List ℝ)) : lattice cell degree dim vertices =
    (steps cell dim degree).map (latticePoint degree (vertices.headD []) (axes cell dim vertices)) := rfl

theorem getD_latticePoint {origin : List ℝ} {axes : List (List ℝ)} (horigin : origin.length = n)
    (haxes : ∀ a ∈ axes, a.length = n) (degree : ℕ) (index : List ℕ) (j : ℕ) :
    (latticePoint degree origin axes index).getD j 0 = origin.getD j 0 +
      ((List.zip (fractions degree index) axes).map fun s => s.1 * s.2.getD j 0).sum := by
  induction index generalizing origin axes with
  | nil => simp [latticePoint, fractions]
  | cons i index ih =>
    cases axes with
    | nil => simp [latticePoint]
    | cons a axes =>
      rw [List.forall_mem_cons] at haxes
      have hlength : origin.length = a.length := horigin.trans haxes.1.symm
      have hnext : (List.zipWith (fun x y => x + (i : ℝ) / (degree : ℝ) * y) origin a).length = n := by
        rw [List.length_zipWith, hlength, haxes.1, Nat.min_self]
      refine (ih hnext haxes.2).trans ?_
      rw [getD_zipWith (by simp) hlength]
      simp only [fractions, List.map_cons, List.zip_cons_cons, List.sum_cons]
      ring

theorem inside_simplex (hcell : cell.isSimplex = true) (hdegree : 1 ≤ degree) {vertices : List (List ℝ)}
    (hlength : vertices.length = dim + 1) (hvertices : ∀ v ∈ vertices, v.length = n) {p : List ℝ}
    (hp : p ∈ lattice cell degree dim vertices) : Inside vertices p := by
  rw [lattice_eq, steps, if_pos hcell] at hp
  obtain ⟨index, hindex, rfl⟩ := List.mem_map.mp hp
  obtain ⟨hdim, hpositive, hsum⟩ := of_mem_simplexSteps hdegree hindex
  obtain ⟨origin, rest, rfl⟩ := List.exists_cons_of_length_eq_add_one hlength
  rw [List.length_cons, Nat.add_right_cancel_iff] at hlength
  rw [List.forall_mem_cons] at hvertices
  have haxes : axes cell dim (origin :: rest) = rest.map fun v => List.zipWith (· - ·) v origin := by
    simp only [axes, axisVertices, hcell, if_true, List.map_map, List.headD_cons]
    refine List.ext_getElem (by simp [hlength]) fun k _ hk => ?_
    rw [List.length_map] at hk
    simp [hk]
  have hfractions : (fractions degree index).length = rest.length := by rw [length_fractions, hdim, hlength]
  refine ⟨simplexTerms origin (List.zip (fractions degree index) rest), ?_, mixture_simplexTerms origin ?_ ?_,
    fun j => ?_⟩
  · rw [simplexTerms, List.map_cons, List.map_snd_zip hfractions.ge]
  · exact fun s hs => fractions_pos hdegree hpositive s.1 (List.of_mem_zip hs).1
  · rw [List.map_fst_zip hfractions.le, sum_fractions, div_lt_one (Nat.cast_pos.mpr hdegree)]
    exact Nat.cast_lt.mpr hsum
  · have hlengths : ∀ a ∈ axes cell dim (origin :: rest), a.length = n := by
      rw [haxes]
      refine List.forall_mem_map.mpr fun v hv => ?_
      rw [List.length_zipWith, hvertices.2 v hv, hvertices.1, Nat.min_self]
    rw [List.headD_cons, getD_latticePoint hvertices.1 hlengths, mixed_simplexTerms, haxes, List.zip_map_right,
      List.map_map]
    refine congrArg (_ + List.sum ·) (List.map_congr_left fun s hs => ?_)
    rw [Function.comp_apply, Prod.map_fst, Prod.map_snd, getD_zipWith (sub_zero 0), id]
    exact (hvertices.2 _ (List.of_mem_zip hs).2).trans hvertices.1.symm

theorem inside_box (hcell : cell.isSimplex = false) (hdegree : 1 ≤ degree) {vertices : List (List ℝ)}
    (hbox : vertices = boxVertices (vertices.headD []) (axes cell dim vertices))
    (horigin : (vertices.headD []).length = n) (haxes : ∀ a ∈ axes cell dim vertices, a.length = n) {p : List ℝ}
    (hp : p ∈ lattice cell degree dim vertices) : Inside vertices p := by
  rw [lattice_eq, steps, if_neg (by rw [hcell]; nofun)] at hp
  obtain ⟨index, hindex, rfl⟩ := List.mem_map.mp hp
  obtain ⟨hdim, hbounds⟩ := of_mem_boxSteps hindex
  have hsteps : ∀ s ∈ List.zip (fractions degree index) (axes cell dim vertices),
      (0 < s.1 ∧ s.1 < 1) ∧ s.2.length = n := by
    intro s hs
    obtain ⟨hfraction, haxis⟩ := List.of_mem_zip hs
    exact ⟨⟨fractions_pos hdegree (fun i hi => (hbounds i hi).1) _ hfraction,
      fractions_lt_one (fun i hi => (hbounds i hi).2) _ hfraction⟩, haxes _ haxis⟩
  have hcount : (axes cell dim vertices).length ≤ (fractions degree index).length := by
    simp [axes, axisVertices, hdim]
  refine ⟨boxTerms (vertices.headD []) (List.zip (fractions degree index) (axes cell dim vertices)), ?_,
    mixture_boxTerms _ fun s hs => (hsteps s hs).1, fun j => ?_⟩
  · rw [map_snd_boxTerms, List.map_snd_zip hcount, ← hbox]
  · rw [getD_latticePoint horigin haxes, mixed_boxTerms horigin hsteps]

end Points

section Entities

/-- The vertices of an entity in integers. -/
def corners (cell : ReferenceCell) (entity : List ℕ) : List (List ℤ) :=
  entity.map fun v => (cell.corners.getD v []).map Nat.cast

/-- The vertices of an entity. -/
noncomputable def vertices (cell : ReferenceCell) (entity : List ℕ) : List (List ℝ) :=
  entity.map fun v => (cell.vertices : List (List ℝ)).getD v []

theorem vertices_eq (cell : ReferenceCell) (entity : List ℕ) :
    vertices cell entity = (corners cell entity).map (·.map Int.cast) := by
  rw [vertices, corners, List.map_map]
  refine List.map_congr_left fun v _ => ?_
  refine (List.getD_map _ [] (List.map Nat.cast)).trans ?_
  rw [Function.comp_apply, List.map_map]
  exact List.map_congr_left fun n _ => (Int.cast_natCast n).symm

theorem getD_vertices (cell : ReferenceCell) (entity : List ℕ) (v : ℕ) :
    (vertices cell entity).getD v [] = ((corners cell entity).getD v []).map Int.cast := by
  rw [vertices_eq]
  exact List.getD_map _ [] (List.map Int.cast)

theorem headD_map_map {R S : Type} (f : R → S) (vs : List (List R)) :
    (vs.map (·.map f)).headD [] = (vs.headD []).map f := by
  cases vs <;> rfl

theorem axes_map {R S : Type} [Ring R] [Ring S] (f : R →+* S) (cell : ReferenceCell) (dim : ℕ) (vs : List (List R)) :
    axes cell dim (vs.map (·.map f)) = (axes cell dim vs).map (·.map f) := by
  rw [axes, axes, List.map_map]
  refine List.map_congr_left fun v _ => ?_
  have hrow : (vs.map (·.map f)).getD v [] = (vs.getD v []).map f := List.getD_map _ [] (List.map f)
  rw [hrow, headD_map_map, Function.comp_apply, List.map_zipWith, List.zipWith_map]
  simp only [map_sub]

theorem boxVertices_map {R S : Type} [Ring R] [Ring S] (f : R →+* S) (origin : List R) (as : List (List R)) :
    boxVertices (origin.map f) (as.map (·.map f)) = (boxVertices origin as).map (·.map f) := by
  induction as with
  | nil => rfl
  | cons a as ih =>
    rw [List.map_cons, boxVertices, ih, boxVertices, List.map_flatMap, List.flatMap_map]
    refine List.flatMap_congr fun v _ => ?_
    simp only [List.map_cons, List.map_nil, List.zipWith_map, List.map_zipWith, map_add]

theorem corners_box (cell : ReferenceCell) (hcell : cell.isSimplex = false) :
    ∀ level ∈ cell.topology.zipIdx, ∀ entity ∈ level.1,
      corners cell entity = boxVertices ((corners cell entity).headD []) (axes cell level.2 (corners cell entity)) := by
  revert hcell
  cases cell <;> decide

/-- An entity has as many vertices as a simplex or a box of its dimension. -/
theorem length_entity (cell : ReferenceCell) : ∀ level ∈ cell.topology.zipIdx, ∀ entity ∈ level.1,
    entity.length = if cell.isSimplex then level.2 + 1 else 2 ^ level.2 := by
  cases cell <;> decide

variable {cell : ReferenceCell} {level : List (List ℕ) × ℕ} (hlevel : level ∈ cell.topology.zipIdx) {entity : List ℕ}
  (hentity : entity ∈ level.1)
include hlevel hentity

theorem length_getD_vertices :
    ∀ v ∈ 0 :: axisVertices cell level.2, ((vertices cell entity).getD v []).length = cell.dim := by
  intro v hv
  obtain ⟨hvertices, haxes⟩ := cell.entity_vertices level hlevel entity hentity
  have hlt : v < entity.length := haxes v hv
  rw [vertices, List.getD_eq_getElem _ _ (by rwa [List.length_map]), List.getElem_map]
  exact cell.length_vertex (hvertices _ (List.getElem_mem hlt))

theorem length_headD_vertices : ((vertices cell entity).headD []).length = cell.dim := by
  have hfirst := length_getD_vertices hlevel hentity 0 List.mem_cons_self
  cases hvertices : vertices cell entity <;> simpa [hvertices] using hfirst

theorem length_of_mem_axes : ∀ a ∈ axes cell level.2 (vertices cell entity), a.length = cell.dim := by
  refine List.forall_mem_map.mpr fun v hv => ?_
  rw [List.length_zipWith, length_headD_vertices hlevel hentity,
    length_getD_vertices hlevel hentity v (List.mem_cons_of_mem _ hv), Nat.min_self]

/-- A lattice point is a mixture of the vertices of its entity. -/
theorem inside_entity {degree : ℕ} (hdegree : 1 ≤ degree) {p : List ℝ}
    (hp : p ∈ lattice cell degree level.2 (vertices cell entity)) : Inside (vertices cell entity) p := by
  cases hcell : cell.isSimplex with
  | true =>
    have hlength : (vertices cell entity).length = level.2 + 1 :=
      (List.length_map _).trans ((length_entity cell level hlevel entity hentity).trans (if_pos hcell))
    have hvertices : ∀ v ∈ vertices cell entity, v.length = cell.dim := List.forall_mem_map.mpr fun v hv =>
      cell.length_vertex ((cell.entity_vertices level hlevel entity hentity).1 v hv)
    exact inside_simplex hcell hdegree hlength hvertices hp
  | false =>
    refine inside_box hcell hdegree ?_ (length_headD_vertices hlevel hentity) (length_of_mem_axes hlevel hentity) hp
    have hcorners := congrArg (List.map (List.map (Int.castRingHom ℝ)))
      (corners_box cell hcell level hlevel entity hentity)
    rw [← boxVertices_map, ← axes_map, ← headD_map_map] at hcorners
    rw [vertices_eq]
    exact hcorners

end Entities
end Lagrange
end Variational
