import Variational.Proofs.CellFacets
import Variational.Proofs.ExactRegions

/-! The regions of a boundary integral. The reference facet is mapped onto a facet of the simplex with as many
dimensions as the points say, whatever the cell is. The vertices at its origin and its unit points have coordinates zero
and one, so they are given by natural numbers, and the map is the affine one that they determine. -/
namespace Variational

open Result

namespace Cell

/-- The corner with a number. -/
def corner (cell : Cell) (v : ℕ) : List ℕ := cell.corners.getD v []

theorem corner_mem {cell : Cell} {v : ℕ} (hv : v < cell.corners.length) : cell.corner v ∈ cell.corners := by
  rw [corner, List.getD_eq_getElem _ _ hv]
  exact List.getElem_mem hv

/-- Regions of a boundary integral are facets of a reference cell, sides of a product whose first factor is a reference
cell, or the bottom and the top of a product. -/
theorem boundary_cases {cell : Cell} {kind : FacetKind} {f : ℕ} (h : (kind, f) ∈ cell.boundary) :
    (∃ c, cell = simple c ∧ kind = .plain ∧ f < c.facets.length) ∨
    (∃ a b, cell = product (simple a) b ∧ kind = .vertical ∧ f < a.facets.length) ∨
    (∃ a b, cell = product a b ∧ kind = .horizontal ∧ b.dim = 1 ∧ f < 2) := by
  obtain ⟨k, hk, hf⟩ := List.mem_flatMap.mp h
  obtain ⟨g, hg, heq⟩ := List.mem_map.mp hf
  obtain ⟨rfl, rfl⟩ := Prod.mk.inj heq
  rw [List.mem_range] at hg
  cases cell with
  | simple c =>
    obtain rfl := List.mem_singleton.mp hk
    exact .inl ⟨c, rfl, rfl, hg⟩
  | product a b =>
    rcases List.mem_pair.mp hk with rfl | rfl
    · cases a with
      | simple c => exact .inr (.inl ⟨c, b, rfl, rfl, hg⟩)
      | product a₁ a₂ => exact absurd hg (Nat.not_lt_zero g)
    · rw [numFacets] at hg
      split_ifs at hg with hb
      · exact .inr (.inr ⟨a, b, rfl, rfl, hb, hg⟩)
      · exact absurd hg (Nat.not_lt_zero g)

theorem dim_pos_of_boundary {cell : Cell} {kind : FacetKind} {f : ℕ} (h : (kind, f) ∈ cell.boundary) :
    0 < cell.dim := by
  rcases boundary_cases h with ⟨c, rfl, -, hf⟩ | ⟨a, b, rfl, -, hf⟩ | ⟨a, b, rfl, -, hb, -⟩
  · cases c <;> first | exact absurd hf (Nat.not_lt_zero f) | exact Nat.succ_pos _
  · cases a <;> first | exact absurd hf (Nat.not_lt_zero f) | simp [ReferenceCell.dim]
  · rw [dim_product, hb]
    omega

end Cell

namespace FacetMap

section Images

/-- The simplex of a dimension that has facets. -/
def simplex? : ℕ → Option ReferenceCell
  | 1 => some .interval
  | 2 => some .triangle
  | 3 => some .tetrahedron
  | _ => none

/-- The corners of a facet of a reference cell. -/
def side (c : ReferenceCell) (f : ℕ) : List (List ℕ) := (c.facets.getD f []).map fun v => c.corners.getD v []

/-- The corners of a facet of the simplex of a dimension. -/
def side? (dim f : ℕ) : Option (List (List ℕ)) :=
  (simplex? dim).bind fun c => if f < c.facets.length then some (side c f) else none

/-- The corners that span the side over a facet: those below, and the one above the first. -/
def extruded (xs : List (List ℕ)) : List (List ℕ) := xs.map (· ++ [0]) ++ [xs.headD [] ++ [1]]

/-- Where the origin and the unit points of a reference facet of a dimension lie. -/
def images? (dim f : ℕ) : FacetKind → Option (List (List ℕ))
  | .plain => side? (dim + 1) f
  | .vertical => if dim = 0 then side? 1 f else (side? dim f).map extruded
  | .horizontal => if f < 2 then some ((Cell.frame dim).map (· ++ [f])) else none

end Images

section Maps

/-- Coordinate of a corner in a list. -/
def coordinate (xs : List (List ℕ)) (k j : ℕ) : ℝ := ((xs.getD k []).getD j 0 : ℕ)

/-- The affine map that sends the origin and the unit points to given corners. -/
noncomputable def spanned (dim : ℕ) (xs : List (List ℕ)) (p : List ℝ) : List ℝ :=
  (List.range dim).map fun j => coordinate xs 0 j +
    ∑ k ∈ Finset.range p.length, p.getD k 0 * (coordinate xs (k + 1) j - coordinate xs 0 j)

/-- Barycentric coordinates, with the first vertex as origin. -/
theorem sum_weights {β : Type} (g : β → ℝ) (c : ℝ) (d : β) (p : List ℝ) (vs : List β) (h : vs.length = p.length) :
    (1 - p.sum) * c + (List.zipWith (fun w v => w * g v) p vs).sum =
      c + ∑ k ∈ Finset.range p.length, p.getD k 0 * (g (vs.getD k d) - c) := by
  induction p generalizing vs with
  | nil => simp
  | cons w p ih =>
    obtain ⟨v, vs, rfl⟩ := List.exists_cons_of_length_eq_add_one h
    have hrest := ih vs (by simpa using h)
    simp only [List.sum_cons, List.zipWith_cons_cons, List.length_cons, Finset.sum_range_succ', List.getD_cons_succ,
      List.getD_cons_zero]
    linear_combination hrest

theorem combine_eq_spanned {xs : List (List ℕ)} {p : List ℝ} (h : xs.length = p.length + 1) (dim : ℕ) :
    combine dim (xs.map (·.map Nat.cast)) p = spanned dim xs p := by
  obtain ⟨x, xs, rfl⟩ := List.exists_cons_of_length_eq_add_one h
  refine List.map_congr_left fun j _ => ?_
  have hcast (y : List ℕ) : (y.map (Nat.cast : ℕ → ℝ)).getD j 0 = (y.getD j 0 : ℕ) := by
    rw [← Nat.cast_zero, List.getD_map]
  have hsum := sum_weights (fun y : List ℕ => ((y.getD j 0 : ℕ) : ℝ)) (x.getD j 0 : ℕ) [] p xs (by simpa using h)
  simp only [List.map_cons, List.zipWith_cons_cons, List.zipWith_map_right, Scalar.sum_eq, List.sum_cons,
    Scalar.numeral_zero, Scalar.numeral_one, hcast]
  exact hsum

section Extrusion

theorem getD_snoc_last {x : List ℕ} {n : ℕ} (hn : x.length = n) (z : ℕ) : (x ++ [z]).getD n 0 = z := by
  rw [List.getD_append_right _ _ _ _ hn.le, hn, Nat.sub_self, List.getD_cons_zero]

variable {xs : List (List ℕ)} {n d : ℕ}

theorem getD_extruded (hxs : xs.length = d + 1) {k : ℕ} (hk : k ≤ d) :
    (extruded xs).getD k [] = xs.getD k [] ++ [0] := by
  rw [extruded, List.getD_append _ _ _ _ (by rw [List.length_map]; omega)]
  simp [List.getD_eq_getElem?_getD, List.getElem?_eq_getElem (show k < xs.length by omega)]

theorem getD_extruded_last (hxs : xs.length = d + 1) : (extruded xs).getD (d + 1) [] = xs.getD 0 [] ++ [1] := by
  rw [extruded, List.getD_append_right _ _ _ _ (by rw [List.length_map]; omega), List.length_map, hxs, Nat.sub_self]
  obtain ⟨x, xs, rfl⟩ := List.exists_cons_of_length_eq_add_one hxs
  rfl

/-- The map onto the side over a facet is the map onto the facet, with one more coordinate. -/
theorem spanned_extruded (hxs : xs.length = d + 1) (hlength : ∀ x ∈ xs, x.length = n) {p : List ℝ}
    (hp : p.length = d + 1) : spanned (n + 1) (extruded xs) p = spanned n xs (p.take d) ++ p.drop d := by
  obtain ⟨q, t, rfl⟩ : ∃ q t, p = q ++ [t] := by
    rcases List.eq_nil_or_concat p with rfl | ⟨q, t, rfl⟩
    · cases hp
    · exact ⟨q, t, List.concat_eq_append⟩
  have hq : q.length = d := by simpa using hp
  have hget {k : ℕ} (hk : k ≤ d) : (xs.getD k []).length = n := by
    rw [List.getD_eq_getElem _ _ (by omega)]
    exact hlength _ (List.getElem_mem _)
  have hlow {k j : ℕ} (hk : k ≤ d) (hj : j < n) : coordinate (extruded xs) k j = coordinate xs k j := by
    rw [coordinate, getD_extruded hxs hk, List.getD_append _ _ _ _ (by rwa [hget hk])]
    rfl
  have hhigh {j : ℕ} (hj : j < n) : coordinate (extruded xs) (d + 1) j = coordinate xs 0 j := by
    rw [coordinate, getD_extruded_last hxs, List.getD_append _ _ _ _ (by rwa [hget (Nat.zero_le d)])]
    rfl
  have hbottom {k : ℕ} (hk : k ≤ d) : coordinate (extruded xs) k n = 0 := by
    rw [coordinate, getD_extruded hxs hk, getD_snoc_last (hget hk), Nat.cast_zero]
  have htop : coordinate (extruded xs) (d + 1) n = 1 := by
    rw [coordinate, getD_extruded_last hxs, getD_snoc_last (hget (Nat.zero_le d)), Nat.cast_one]
  have hweight {k : ℕ} (hk : k < d) : (q ++ [t]).getD k 0 = q.getD k 0 := List.getD_append _ _ _ _ (by rwa [hq])
  have hlast : (q ++ [t]).getD d 0 = t := by
    rw [List.getD_append_right _ _ _ _ hq.le, hq, Nat.sub_self, List.getD_cons_zero]
  rw [List.take_left' hq, List.drop_left' hq, spanned, hp, List.range_succ, List.map_append,
    List.map_singleton, spanned, hq]
  congr 1
  · refine List.map_congr_left fun j hj => ?_
    have hj := List.mem_range.mp hj
    rw [Finset.sum_range_succ, hhigh hj, hlow (Nat.zero_le d) hj, sub_self, mul_zero, add_zero]
    refine congrArg _ (Finset.sum_congr rfl fun k hk => ?_)
    have hk := Finset.mem_range.mp hk
    rw [hweight hk, hlow hk hj]
  · have hzero : ∑ k ∈ Finset.range d, (q ++ [t]).getD k 0 *
        (coordinate (extruded xs) (k + 1) n - coordinate (extruded xs) 0 n) = 0 := by
      refine Finset.sum_eq_zero fun k hk => ?_
      rw [hbottom (Finset.mem_range.mp hk), hbottom (Nat.zero_le d), sub_self, mul_zero]
    rw [Finset.sum_range_succ, hzero, hbottom (Nat.zero_le d), htop, hlast, sub_zero, zero_add, zero_add, mul_one]

/-- The map onto the bottom or the top adds one coordinate. -/
theorem spanned_frame (f : ℕ) (p : List ℝ) :
    spanned (p.length + 1) ((Cell.frame p.length).map (· ++ [f])) p = p ++ [(f : ℝ)] := by
  let m := p.length
  have horigin : ((Cell.frame m).map (· ++ [f])).getD 0 [] = List.replicate m 0 ++ [f] := rfl
  have hunit {k : ℕ} (hk : k < m) : ((Cell.frame m).map (· ++ [f])).getD (k + 1) [] = Cell.unitPoint m k ++ [f] := by
    simp [Cell.frame, hk]
  have hlength (k : ℕ) : (Cell.unitPoint m k).length = m := by simp [Cell.unitPoint]
  have hzero {j : ℕ} (hj : j < m) : coordinate ((Cell.frame m).map (· ++ [f])) 0 j = 0 := by
    rw [coordinate, horigin, List.getD_append _ _ _ _ (by simpa using hj)]
    simp
  have hone {j k : ℕ} (hj : j < m) (hk : k < m) :
      coordinate ((Cell.frame m).map (· ++ [f])) (k + 1) j = if j = k then 1 else 0 := by
    rw [coordinate, hunit hk, List.getD_append _ _ _ _ (by rwa [hlength])]
    simp [Cell.unitPoint, hj]
  have hlast : coordinate ((Cell.frame m).map (· ++ [f])) 0 m = f := by
    rw [coordinate, horigin, getD_snoc_last (by simp)]
  have hlast' {k : ℕ} (hk : k < m) : coordinate ((Cell.frame m).map (· ++ [f])) (k + 1) m = f := by
    rw [coordinate, hunit hk, getD_snoc_last (hlength k)]
  rw [spanned, List.range_succ, List.map_append, List.map_singleton]
  congr 1
  · refine List.ext_getElem (by simp) fun j hj hj' => ?_
    rw [List.getElem_map, List.getElem_range, hzero hj', zero_add]
    have hterm : ∀ k ∈ Finset.range m, p.getD k 0 *
        (coordinate ((Cell.frame m).map (· ++ [f])) (k + 1) j - 0) = if j = k then p.getD k 0 else 0 := by
      intro k hk
      rw [hone hj' (Finset.mem_range.mp hk), sub_zero, mul_ite, mul_one, mul_zero]
    rw [Finset.sum_congr rfl hterm, Finset.sum_ite_eq, if_pos (Finset.mem_range.mpr hj'), List.getD_eq_getElem _ _ hj']
  · have hterm : ∀ k ∈ Finset.range m, p.getD k 0 * (coordinate ((Cell.frame m).map (· ++ [f])) (k + 1) m -
        coordinate ((Cell.frame m).map (· ++ [f])) 0 m) = 0 := by
      intro k hk
      rw [hlast' (Finset.mem_range.mp hk), hlast, sub_self, mul_zero]
    rw [Finset.sum_eq_zero hterm, hlast, add_zero]

end Extrusion

theorem spanned_origin (n m : ℕ) (xs : List (List ℕ)) :
    spanned n xs (List.replicate m 0) = (List.range n).map (coordinate xs 0) := by
  refine List.map_congr_left fun j _ => ?_
  rw [Finset.sum_eq_zero, add_zero]
  intro k _
  simp

theorem spanned_unit (n : ℕ) {m k : ℕ} (hk : k < m) (xs : List (List ℕ)) :
    spanned n xs ((List.range m).map fun i => if i = k then 1 else 0) =
      (List.range n).map (coordinate xs (k + 1)) := by
  refine List.map_congr_left fun j _ => ?_
  rw [List.length_map, List.length_range, Finset.sum_eq_single k]
  · simp [hk]
  · intro l hl hne
    simp [Finset.mem_range.mp hl, hne]
  · intro h
    exact absurd (Finset.mem_range.mpr hk) h

/-- The map sends the origin and the unit points where it should. -/
theorem map_spanned_frame {n m : ℕ} {xs : List (List ℕ)} (hxs : xs.length = m + 1)
    (hlength : ∀ x ∈ xs, x.length = n) : (frame m : List (List ℝ)).map (spanned n xs) = xs.map (·.map Nat.cast) := by
  refine List.ext_getElem (by simp [frame, hxs]) fun k hk hk' => ?_
  rw [List.length_map] at hk'
  have hcoordinate : (List.range n).map (coordinate xs k) = (xs[k]).map Nat.cast := by
    have hx := hlength _ (List.getElem_mem hk')
    refine List.ext_getElem (by simp [hx]) fun j hj hj' => ?_
    rw [List.length_map] at hj'
    simp [coordinate, hk', hj']
  rw [List.getElem_map, List.getElem_map, ← hcoordinate]
  simp only [frame, Scalar.numeral_zero, Scalar.numeral_one]
  cases k with
  | zero => exact spanned_origin n m xs
  | succ k =>
    rw [List.getElem_cons_succ, List.getElem_map, List.getElem_range]
    exact spanned_unit n (by omega) xs

section Sides

theorem side?_eq_some_iff {dim f : ℕ} {xs : List (List ℕ)} :
    side? dim f = some xs ↔ ∃ c, simplex? dim = some c ∧ f < c.facets.length ∧ xs = side c f := by
  simp only [side?, Option.bind_eq_some_iff, Option.ite_none_right_eq_some, Option.some.injEq, eq_comm (a := xs)]

variable {dim f : ℕ} {c : ReferenceCell} (hc : simplex? dim = some c)
include hc

theorem simplexFacet_of_simplex? : c.dim = dim ∧ ∃ base, Region.simplexFacet c = .ok base ∧ base.dim + 1 = dim := by
  revert hc
  rcases dim with _ | _ | _ | _ | dim <;> rintro ⟨⟩ <;> exact ⟨rfl, _, rfl, rfl⟩

theorem length_side (hf : f < c.facets.length) :
    (side c f).length = dim ∧ ∀ x ∈ side c f, x.length = dim := by
  obtain ⟨hdim, base, hbase, -⟩ := simplexFacet_of_simplex? hc
  subst hdim
  revert f
  cases c <;> cases hbase <;> decide

theorem facetChart_eq (hf : f < c.facets.length) {p : List ℝ} (hp : p.length + 1 = dim) :
    Region.facetChart c f p = spanned dim (side c f) p := by
  have hvertex (v : ℕ) : (c.vertices : List (List ℝ)).getD v [] = (c.corners.getD v []).map Nat.cast := by
    rw [ReferenceCell.vertices, ← List.map_nil (f := Nat.cast), List.getD_map]
  have hside : (c.facets.getD f []).map (fun v => (c.vertices : List (List ℝ)).getD v []) =
      (side c f).map (·.map Nat.cast) := by
    simp only [hvertex, side, List.map_map, Function.comp_def]
  rw [Region.facetChart, hside, (simplexFacet_of_simplex? hc).1]
  exact combine_eq_spanned ((length_side hc hf).1.trans hp.symm) dim

end Sides

section Apply

variable {m f : ℕ} {points : List (List ℝ)} (hne : points ≠ []) (hlength : ∀ p ∈ points, p.length = m)
include hne hlength

theorem apply_plain {xs : List (List ℕ)} (hxs : side? (m + 1) f = some xs) (hsingle : m = 0 → points.length = 1) :
    apply points f .plain = .ok (points.map (spanned (m + 1) xs)) := by
  obtain ⟨c, hc, hf, rfl⟩ := side?_eq_some_iff.mp hxs
  obtain ⟨-, base, hbase, hdim⟩ := simplexFacet_of_simplex? hc
  obtain rfl : base.dim = m := Nat.succ.inj hdim
  rw [Region.apply_plain_eq hbase hne hlength hsingle hf]
  refine congrArg Except.ok (List.map_congr_left fun p hp => ?_)
  exact facetChart_eq hc hf (by rw [hlength p hp])

/-- The side over an end point of an interval, without a second factor. -/
theorem apply_vertical_zero {xs : List (List ℕ)} (hm : m = 0) (hxs : side? 1 f = some xs) :
    apply points f .vertical = .ok (points.map (spanned 1 xs)) := by
  subst hm
  obtain ⟨c, hc, hf, rfl⟩ := side?_eq_some_iff.mp hxs
  obtain rfl : c = .interval := (Option.some.inj hc).symm
  have hbase : ∀ p ∈ points.map (·.dropLast), p.length = ReferenceCell.point.dim :=
    List.forall_mem_map.mpr fun p hp => by rw [List.length_dropLast, hlength p hp]; rfl
  rw [apply, Region.onSimplex_eq rfl (by simpa using hne) hbase hf, ok_bind]
  refine congrArg Except.ok (List.map_congr_left fun p hp => ?_)
  obtain rfl := List.length_eq_zero_iff.mp (hlength p hp)
  rw [facetChart_eq hc hf rfl]
  exact List.append_nil _

theorem apply_vertical {xs : List (List ℕ)} (hxs : side? m f = some xs) :
    apply points f .vertical = .ok (points.map (spanned (m + 1) (extruded xs))) := by
  obtain ⟨c, hc, hf, rfl⟩ := side?_eq_some_iff.mp hxs
  obtain ⟨-, base, hbase, hdim⟩ := simplexFacet_of_simplex? hc
  obtain ⟨hcount, hside⟩ := length_side hc hf
  rw [Region.apply_vertical_eq hbase hne (fun p hp => (hlength p hp).trans hdim.symm) hf]
  refine congrArg Except.ok (List.map_congr_left fun p hp => ?_)
  have hp := hlength p hp
  rw [spanned_extruded (hcount.trans hdim.symm) hside (hp.trans hdim.symm), facetChart_eq hc hf]
  rw [List.length_take, hp]
  omega

/-- Points of a reference facet are mapped by the affine map that the images of the origin and of the unit points
determine. -/
theorem apply_eq {kind : FacetKind} {xs : List (List ℕ)} (hxs : images? m f kind = some xs)
    (hsingle : m = 0 → points.length = 1) : apply points f kind = .ok (points.map (spanned (m + 1) xs)) := by
  cases kind with
  | plain => exact apply_plain hne hlength hxs hsingle
  | horizontal =>
    obtain ⟨hf, hxs⟩ := Option.ite_none_right_eq_some.mp hxs
    obtain rfl := Option.some.inj hxs
    rw [apply, if_pos hf]
    refine congrArg Except.ok (List.map_congr_left fun p hp => ?_)
    rw [← hlength p hp, spanned_frame]
  | vertical =>
    rw [images?] at hxs
    split_ifs at hxs with hm
    · obtain rfl := hm
      exact apply_vertical_zero hne hlength rfl hxs
    · obtain ⟨ys, hys, rfl⟩ := Option.map_eq_some_iff.mp hxs
      exact apply_vertical hne hlength hys

theorem onSimplex_error (hnone : side? (m + 1) f = none) : ∃ e, onSimplex points f = .error e := by
  rcases hc : simplex? (m + 1) with _ | c
  · obtain ⟨p, ps, rfl⟩ := List.exists_cons_of_ne_nil hne
    have hp := hlength p List.mem_cons_self
    rw [onSimplex, simplexAbove, List.head?_cons, Option.elim_some, hp]
    rcases m with _ | _ | _ | m
    · cases hc
    · cases hc
    · cases hc
    · exact ⟨_, rfl⟩
  · obtain ⟨-, base, hbase, hdim⟩ := simplexFacet_of_simplex? hc
    have hpoints : ∀ p ∈ points, p.length = base.dim := fun p hp => (hlength p hp).trans (Nat.succ.inj hdim).symm
    have hfacet : c.facets[f]? = none := by
      rw [List.getElem?_eq_none_iff]
      simpa [side?, hc] using hnone
    refine ⟨.invalidFacet f .plain, ?_⟩
    rw [onSimplex, Region.simplexAbove_eq hbase hne hpoints, ok_bind]
    simp only [hfacet]

/-- Without images there is no map. -/
theorem apply_error {kind : FacetKind} (hnone : images? m f kind = none) : ∃ e, apply points f kind = .error e := by
  cases kind with
  | plain => exact onSimplex_error hne hlength hnone
  | horizontal =>
    have hf : ¬ f < 2 := fun hf => by simp [images?, hf] at hnone
    exact ⟨_, if_neg hf⟩
  | vertical =>
    have hbase : ∀ p ∈ points.map (·.dropLast), p.length = m - 1 :=
      List.forall_mem_map.mpr fun p hp => by rw [List.length_dropLast, hlength p hp]
    have hside : side? (m - 1 + 1) f = none := by
      rcases m with _ | m
      · exact hnone
      · simpa [images?] using hnone
    obtain ⟨e, he⟩ := onSimplex_error (by simpa using hne) hbase hside
    exact ⟨e, by rw [apply, he]; rfl⟩

end Apply

end Maps

section Lookup

theorem length_images {m f : ℕ} {kind : FacetKind} {xs : List (List ℕ)} (hxs : images? m f kind = some xs) :
    xs.length = m + 1 ∧ ∀ x ∈ xs, x.length = m + 1 := by
  cases kind with
  | plain =>
    obtain ⟨c, hc, hf, rfl⟩ := side?_eq_some_iff.mp hxs
    exact length_side hc hf
  | horizontal =>
    obtain ⟨-, hxs⟩ := Option.ite_none_right_eq_some.mp hxs
    obtain rfl := Option.some.inj hxs
    refine ⟨by simp [Cell.frame], List.forall_mem_map.mpr fun x hx => ?_⟩
    rcases Cell.mem_frame.mp hx with rfl | ⟨k, -, rfl⟩ <;> simp [Cell.unitPoint]
  | vertical =>
    rw [images?] at hxs
    split_ifs at hxs with hm
    · obtain ⟨c, hc, hf, rfl⟩ := side?_eq_some_iff.mp hxs
      rw [hm]
      exact length_side hc hf
    · obtain ⟨ys, hys, rfl⟩ := Option.map_eq_some_iff.mp hxs
      obtain ⟨c, hc, hf, rfl⟩ := side?_eq_some_iff.mp hys
      obtain ⟨hcount, hlength⟩ := length_side hc hf
      obtain ⟨x, rest, hside⟩ := List.exists_cons_of_length_pos (hcount ▸ Nat.pos_of_ne_zero hm)
      have hx := hlength x (hside ▸ List.mem_cons_self)
      refine ⟨by simp [extruded, hcount], fun y hy => ?_⟩
      rcases List.mem_append.mp hy with hy | hy
      · obtain ⟨z, hz, rfl⟩ := List.mem_map.mp hy
        simp [hlength z hz]
      · obtain rfl := List.mem_singleton.mp hy
        simp [hside, hx]

/-- Different natural numbers are not equal up to rounding. -/
theorem below_tenth (a b : ℕ) : Scalar.below (Scalar.abs ((a : ℝ) - b)) (Scalar.tenth 12) = true ↔ a = b := by
  have htenth : (Scalar.tenth 12 : ℝ) = 1 / 10 ^ 12 := by
    rw [Scalar.tenth, Scalar.numeral_one]
    norm_num
  change decide (|(a : ℝ) - b| < Scalar.tenth 12) = true ↔ a = b
  rw [decide_eq_true_eq, htenth]
  constructor
  · intro h
    by_contra hne
    have hint : (a : ℤ) - b ≠ 0 := by omega
    have hone : (1 : ℝ) ≤ |(a : ℝ) - b| := by exact_mod_cast Int.one_le_abs hint
    norm_num at h
    linarith
  · rintro rfl
    norm_num

theorem near_cast {x y : List ℕ} : near (x.map Nat.cast : List ℝ) (y.map Nat.cast) = true ↔ x = y := by
  induction x generalizing y with
  | nil => cases y <;> simp [near]
  | cons a x ih =>
    cases y with
    | nil => simp [near]
    | cons b y =>
      rw [List.cons.injEq, ← below_tenth a b, ← ih]
      simp only [near, List.map_cons, List.length_cons, List.zipWith_cons_cons, List.all_cons, id, Bool.and_eq_true,
        beq_iff_eq, Nat.add_right_cancel_iff]
      exact and_left_comm

/-- The vertices of a facet are found where the origin and the unit points of its reference facet lie. -/
theorem vertices_eq_ok_iff {cell : Cell} {kind : FacetKind} {f : ℕ} {vs : List ℕ} :
    vertices ℝ cell kind f = .ok vs ↔ ∃ xs, images? (cell.dim - 1) f kind = some xs ∧
      List.Forall₂ (fun x v => cell.corners.findIdx? (· == x) = some v) xs vs := by
  have hframe : ∀ p ∈ (frame (cell.dim - 1) : List (List ℝ)), p.length = cell.dim - 1 := by
    simp [frame]
  have hne : (frame (cell.dim - 1) : List (List ℝ)) ≠ [] := List.cons_ne_nil _ _
  rcases hxs : images? (cell.dim - 1) f kind with _ | xs
  · obtain ⟨e, he⟩ := apply_error hne hframe hxs
    simp only [vertices, he, reduceCtorEq, false_and, exists_false, iff_false]
    rintro ⟨⟩
  · obtain ⟨hcount, hlength⟩ := length_images hxs
    have hfind (x : List ℕ) : (cell.vertices : List (List ℝ)).findIdx? (near · (x.map Nat.cast)) =
        cell.corners.findIdx? (· == x) := by
      have hnear (y : List ℕ) : near (y.map Nat.cast : List ℝ) (x.map Nat.cast) = (y == x) := by
        rw [Bool.eq_iff_iff, near_cast, beq_iff_eq]
      simp only [Cell.vertices, List.findIdx?_map, Function.comp_def, hnear]
    rw [vertices, apply_eq hne hframe hxs (fun hm => by simp [frame, hm]), map_spanned_frame hcount hlength, ok_bind,
      mapM_eq_ok, List.forall₂_map_left_iff]
    simp only [hfind, Option.some.injEq, exists_eq_left']
    constructor <;> intro h <;> refine h.imp fun x v hv => ?_
    · cases hlook : cell.corners.findIdx? (· == x) with
      | none => simp [hlook] at hv
      | some w => simpa [hlook] using hv
    · simp [hv]

/-- The vertices are corners of the cell, in the order of the images. -/
theorem corners_of_vertices {cell : Cell} {kind : FacetKind} {f : ℕ} {vs : List ℕ}
    (h : vertices ℝ cell kind f = .ok vs) :
    images? (cell.dim - 1) f kind = some (vs.map cell.corner) ∧ ∀ v ∈ vs, v < cell.corners.length := by
  obtain ⟨xs, hxs, hlook⟩ := vertices_eq_ok_iff.mp h
  have hcorner : vs.map cell.corner = xs ∧ ∀ v ∈ vs, v < cell.corners.length := by
    clear hxs h
    induction hlook with
    | nil => simp
    | cons hv _ ih =>
      obtain ⟨hlt, heq, -⟩ := List.findIdx?_eq_some_iff_getElem.mp hv
      rw [List.map_cons, ih.1, List.forall_mem_cons, Cell.corner, List.getD_eq_getElem _ _ hlt, beq_iff_eq.mp heq]
      exact ⟨rfl, hlt, ih.2⟩
  rw [hcorner.1]
  exact ⟨hxs, hcorner.2⟩

end Lookup

end FacetMap
end Variational
