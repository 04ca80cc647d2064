import Variational.Form.Region
import Variational.Proofs.Results

/-! The rules of regions of integration. The points of a rule have as many coordinates as the cell has
dimensions, and a facet map sends the points of a rule to equally many points with one coordinate more. -/
namespace Variational

open Result

variable {α : Type} [Scalar α]

/-- The rule has nodes in a space of the given dimension; where there is nothing to integrate over it has a
single one. -/
structure Rule.OfDim (r : Rule α) (dim : ℕ) : Prop where
  nonempty : r.nodes ≠ []
  single : dim = 0 → r.nodes.length = 1
  coordinates : ∀ p ∈ r.points, p.length = dim

namespace Rule

theorem OfDim.product {r s : Rule α} {m n : ℕ} (hr : r.OfDim m) (hs : s.OfDim n) :
    (r.product s).OfDim (m + n) := by
  obtain ⟨p, hp⟩ := List.exists_mem_of_ne_nil _ hr.nonempty
  obtain ⟨q, hq⟩ := List.exists_mem_of_ne_nil _ hs.nonempty
  refine ⟨?_, fun hzero => ?_, fun x hx => ?_⟩
  · exact List.ne_nil_of_mem (List.mem_flatMap.mpr ⟨p, hp, List.mem_map_of_mem hq⟩)
  · simp [Rule.product, List.length_flatMap, hr.single (by omega), hs.single (by omega)]
  · obtain ⟨node, hnode, rfl⟩ := List.mem_map.mp hx
    obtain ⟨p, hp, hnode⟩ := List.mem_flatMap.mp hnode
    obtain ⟨q, hq, rfl⟩ := List.mem_map.mp hnode
    rw [List.length_append, hr.coordinates _ (List.mem_map_of_mem hp),
      hs.coordinates _ (List.mem_map_of_mem hq)]

theorem interval_ofDim {m : ℕ} (hm : m ≠ 0) : (interval m : Rule α).OfDim 1 := by
  refine ⟨?_, by simp, fun p hp => ?_⟩
  · rw [← List.length_pos_iff]
    simpa [interval] using Nat.pos_of_ne_zero hm
  · simp only [points, interval, List.map_map, List.mem_map] at hp
    obtain ⟨x, -, rfl⟩ := hp
    rfl

theorem triangle_ofDim {m : ℕ} (hm : m ≠ 0) : (triangle m : Rule α).OfDim 2 := by
  refine ⟨?_, by simp, fun p hp => ?_⟩
  · rw [← List.length_pos_iff]
    simpa [triangle, List.length_flatMap] using hm
  · simp only [points, triangle, List.map_flatMap, List.map_map, List.mem_flatMap, List.mem_map] at hp
    obtain ⟨x, -, y, -, rfl⟩ := hp
    rfl

theorem tetrahedron_ofDim {m : ℕ} (hm : m ≠ 0) : (tetrahedron m : Rule α).OfDim 3 := by
  refine ⟨?_, by simp, fun p hp => ?_⟩
  · rw [← List.length_pos_iff]
    simpa [tetrahedron, List.length_flatMap, Nat.pos_iff_ne_zero] using hm
  · simp only [points, tetrahedron, List.map_flatMap, List.map_map, List.mem_flatMap, List.mem_map] at hp
    obtain ⟨x, -, y, -, z, -, rfl⟩ := hp
    rfl

theorem onReference_safe (cell : ReferenceCell) (m : ℕ) :
    Safe (OfDim · cell.dim) (onReference cell m : Result (Rule α)) := by
  unfold onReference
  split
  · exact Error.noConfusion
  rename_i hzero
  by_cases hpoint : cell = .point
  · subst hpoint
    exact ⟨by simp [degenerate], fun _ => rfl, by simp [points, degenerate]; rfl⟩
  · have hm : m ≠ 0 := fun h => hzero ⟨h, hpoint⟩
    cases cell with
    | point => exact absurd rfl hpoint
    | interval => exact interval_ofDim hm
    | triangle => exact triangle_ofDim hm
    | quadrilateral => exact (interval_ofDim hm).product (interval_ofDim hm)
    | tetrahedron => exact tetrahedron_ofDim hm
    | hexahedron => exact ((interval_ofDim hm).product (interval_ofDim hm)).product (interval_ofDim hm)

theorem onCell_safe (cell : Cell) (m : ℕ) :
    Safe (OfDim · cell.dim) (onCell cell m : Result (Rule α)) := by
  induction cell with
  | simple c =>
    rw [onCell]
    exact onReference_safe c m
  | product a b ha hb =>
    rw [onCell]
    exact ha.bind fun r hr => hb.bind fun s hs => .pure (hr.product hs)

end Rule

namespace FacetMap

omit [Scalar α] in
/-- The points of an edge or a triangle lie on a simplex with one dimension more. -/
theorem simplexAbove_safe {points : List (List α)} {dim : ℕ} (hne : points ≠ [])
    (h : ∀ p ∈ points, p.length = dim) :
    Safe (fun cell => cell.dim = dim + 1 ∧ (cell = .interval ↔ dim = 0)) (simplexAbove points) := by
  obtain ⟨p, ps, rfl⟩ := List.exists_cons_of_ne_nil hne
  unfold simplexAbove
  rw [List.head?_cons, Option.elim_some, h p List.mem_cons_self]
  match dim with
  | 0 => exact ⟨rfl, by simp⟩
  | 1 => exact ⟨rfl, by simp⟩
  | 2 => exact ⟨rfl, by simp⟩
  | _ + 3 => exact Error.noConfusion

/-- On a facet of the simplex above the points have one coordinate more. There are as many of them as
before, except that a vertex of the interval is a single point. -/
theorem onSimplex_safe {points : List (List α)} {dim : ℕ} (hne : points ≠ [])
    (h : ∀ p ∈ points, p.length = dim) (facet : ℕ) :
    Safe (fun images => (∀ q ∈ images, q.length = dim + 1) ∧
        images.length = if dim = 0 then 1 else points.length)
      (onSimplex points facet) := by
  unfold onSimplex
  refine (simplexAbove_safe hne h).bind fun cell hcell => ?_
  by_cases hinterval : cell = .interval
  · obtain rfl := hcell.2.mp hinterval
    subst hinterval
    match facet with
    | 0 => exact ⟨List.forall_mem_singleton.mpr rfl, rfl⟩
    | 1 => exact ⟨List.forall_mem_singleton.mpr rfl, rfl⟩
    | _ + 2 => exact Error.noConfusion
  · cases cell.facets[facet]? with
    | none => exact Error.noConfusion
    | some vs =>
      simp only [if_neg hinterval, if_neg (hinterval ∘ hcell.2.mpr)]
      refine ⟨List.forall_mem_map.mpr fun p _ => ?_, List.length_map _⟩
      rw [combine, List.length_map, List.length_range, hcell.1]

/-- A facet map sends points of a facet to equally many points of its cell. On a facet without dimension
there is one point, and a side of a product cell has at least the direction of the second factor. -/
theorem apply_safe {points : List (List α)} {dim : ℕ} (hne : points ≠ [])
    (h : ∀ p ∈ points, p.length = dim) (hsingle : dim = 0 → points.length = 1) (facet : ℕ)
    {kind : FacetKind} (hkind : kind = .vertical → 0 < dim) :
    Safe (fun images => (∀ q ∈ images, q.length = dim + 1) ∧ images.length = points.length)
      (apply points facet kind) := by
  cases kind with
  | plain =>
    refine (onSimplex_safe hne h facet).mono fun images himages => ⟨himages.1, himages.2.trans ?_⟩
    split_ifs with hdim
    · exact (hsingle hdim).symm
    · rfl
  | horizontal =>
    rw [apply]
    split_ifs
    · refine ⟨List.forall_mem_map.mpr fun p hp => ?_, List.length_map _⟩
      rw [List.length_append, h p hp, List.length_singleton]
    · exact Error.noConfusion
  | vertical =>
    obtain ⟨n, rfl⟩ := Nat.exists_eq_succ_of_ne_zero (Nat.pos_iff_ne_zero.mp (hkind rfl))
    have hlast (p : List α) (hp : p ∈ points) : p.getLast?.toList.length = 1 := by
      have hp' : p ≠ [] := by
        rintro rfl
        cases h [] hp
      rw [List.getLast?_eq_getLast_of_ne_nil hp']
      rfl
    have hdrop : ∀ p ∈ points.map (·.dropLast), p.length = n :=
      List.forall_mem_map.mpr fun p hp => by rw [List.length_dropLast, h p hp, Nat.succ_sub_one]
    rw [apply]
    refine (onSimplex_safe (by simpa using hne) hdrop facet).bind fun mapped hmapped => ?_
    rw [List.length_map] at hmapped
    split
    · -- One point of the first factor goes with all points of the second.
      refine ⟨List.forall_mem_map.mpr fun p hp => ?_, List.length_map _⟩
      rw [List.length_append, hlast p hp, hmapped.1 _ (List.mem_singleton_self _)]
    · rename_i hmany
      have hlength : mapped.length = points.length := by
        rw [hmapped.2]
        refine if_neg fun hn => ?_
        rw [if_pos hn] at hmapped
        obtain ⟨m, rfl⟩ := List.length_eq_one_iff.mp hmapped.2
        exact hmany m rfl
      refine ⟨fun q hq => ?_, by rw [List.length_zipWith, hlength, Nat.min_self]⟩
      obtain ⟨m, hm, p, hp, rfl⟩ := of_mem_zipWith hq
      rw [List.length_append, hlast p hp, hmapped.1 m hm]

end FacetMap

namespace Region

theorem simplexFacet_safe (cell : ReferenceCell) :
    Safe (fun facet => cell.dim = facet.dim + 1) (simplexFacet cell) := by
  cases cell with
  | interval => exact rfl
  | triangle => exact rfl
  | tetrahedron => exact rfl
  | _ => exact Error.noConfusion

/-- The mapped rule has a weight for every point. -/
theorem onFacet_safe {rule : Rule α} {n : ℕ} (h : rule.OfDim n) (dim facet : ℕ) {kind : FacetKind}
    (hkind : kind = .vertical → 0 < n) : Safe (Rule.OfDim · (n + 1)) (onFacet rule dim facet kind) := by
  have hne : rule.points ≠ [] := by simpa [Rule.points] using h.nonempty
  have hsingle (hn : n = 0) : rule.points.length = 1 := by rw [Rule.points, List.length_map, h.single hn]
  unfold onFacet
  refine (FacetMap.apply_safe hne h.coordinates hsingle facet hkind).bind fun images himages => ?_
  have hlength : images.length = rule.nodes.length := by rw [himages.2, Rule.points, List.length_map]
  rw [if_neg (not_not.mpr hlength)]
  refine .pure ⟨?_, by simp, ?_⟩
  · rw [← List.length_pos_iff, List.length_zipWith, Rule.weights, List.length_map, hlength, Nat.min_self]
    exact List.length_pos_iff.mpr h.nonempty
  · intro p hp
    obtain ⟨node, hnode, rfl⟩ := List.mem_map.mp hp
    obtain ⟨q, hq, w, -, rfl⟩ := of_mem_zipWith hnode
    exact himages.1 q hq

theorem interior_safe (cell : Cell) (m : ℕ) :
    Safe (∀ r ∈ ·, Rule.OfDim r cell.dim) (interior cell m : Result (List (Rule α))) :=
  (Rule.onCell_safe cell m).bind fun _ hrule => .pure (List.forall_mem_singleton.mpr hrule)

theorem boundary_safe (cell : Cell) (m : ℕ) :
    Safe (∀ r ∈ ·, Rule.OfDim r cell.dim) (boundary cell m : Result (List (Rule α))) := by
  unfold boundary
  split
  · rename_i c
    refine (simplexFacet_safe c).bind fun facet hfacet => ?_
    refine (Rule.onCell_safe facet m).bind fun rule hrule => ?_
    rw [Cell.dim_simple, hfacet]
    refine .mapM_all fun x hx => onFacet_safe hrule _ _ fun hkind => ?_
    have hplain : x.1 = .plain := by
      simp only [Cell.boundary, List.flatMap_singleton, List.mem_map] at hx
      obtain ⟨f, -, rfl⟩ := hx
      rfl
    rw [hplain] at hkind
    cases hkind
  · rename_i a b
    split
    · exact Error.noConfusion
    rename_i hb
    rw [not_not] at hb
    refine (simplexFacet_safe a).bind fun base hbase => ?_
    refine (Rule.onCell_safe (.product base b) m).bind fun vertical hvertical => ?_
    refine (Rule.onCell_safe a m).bind fun horizontal hhorizontal => ?_
    -- The base of a side has one dimension less than the first factor, which the second makes up for.
    rw [Cell.dim_product, Cell.dim_simple, hb, ← hbase] at hvertical
    rw [Cell.dim_product, hb]
    have hpositive : 0 < (Cell.simple a).dim := by
      rw [Cell.dim_simple, hbase]
      exact Nat.succ_pos _
    refine .mapM_all fun x _ => onFacet_safe ?_ _ _ fun _ => hpositive
    split_ifs
    · exact hhorizontal
    · exact hvertical
  · exact Error.noConfusion

end Region
end Variational
