import Variational.Proofs.FacetRegions

/-! Facets that the regions of a boundary integral describe. The vertices of a region are on one facet of the cell,
except where the map onto the first facet of a simplex is used on a cell that has no such facet. Vertices of two regions
are never on a common facet. -/
namespace Variational.Cell

open FacetMap

/-- The map onto the first facet of a simplex leads to a facet of the cell. -/
def FirstFits : Cell → FacetKind → Prop
  | simple c, .plain => c.isSimplex = true
  | product (simple a) b, .vertical => (a.isSimplex = true ∧ b.dim = 1) ∨ a.dim + b.dim ≤ 2
  | _, _ => True

section Sides

theorem cofacial_side {c : ReferenceCell} {f : ℕ} (hf : f < c.facets.length) : (simple c).Cofacial (side c f) := by
  refine ⟨_, List.mem_map_of_mem (List.getElem_mem hf), fun x hx => ?_⟩
  rwa [side, List.getD_eq_getElem _ _ hf] at hx

theorem dim_pos_of_facet {c : ReferenceCell} {f : ℕ} (hf : f < c.facets.length) : 0 < c.dim := by
  cases c <;> first | exact absurd hf (Nat.not_lt_zero f) | exact Nat.succ_pos _

theorem simplex?_dim {c : ReferenceCell} (hc : c.isSimplex = true) (hdim : 0 < c.dim) : simplex? c.dim = some c := by
  cases c
  case point => exact absurd hdim (lt_irrefl 0)
  all_goals first | rfl | cases hc

section Simplices

variable {dim : ℕ} {c : ReferenceCell} (hc : simplex? dim = some c)
include hc

/-- All facets of a simplex but the first one are across an axis. -/
theorem side_subset (hdim : 2 ≤ dim) : ∀ f < c.facets.length, f ≠ 0 →
    f - 1 < dim ∧ side c f ⊆ frameWithout dim (f - 1) := by
  rcases dim with _ | _ | _ | _ | dim <;> cases hc
  · exact absurd hdim (by decide)
  · decide
  · decide

theorem extruded_subset (hdim : 2 ≤ dim) : ∀ f < c.facets.length, f ≠ 0 →
    f - 1 < dim + 1 ∧ extruded (side c f) ⊆ frameWithout (dim + 1) (f - 1) := by
  rcases dim with _ | _ | _ | _ | dim <;> cases hc
  · exact absurd hdim (by decide)
  · decide
  · decide

/-- Two facets of a simplex hold the origin and all unit points. -/
theorem frame_subset_sides : ∀ f < c.facets.length, ∀ g < c.facets.length, f ≠ g →
    frame dim ⊆ side c f ++ side c g := by
  rcases dim with _ | _ | _ | _ | dim <;> cases hc <;> decide

theorem frame_subset_extruded : ∀ f < c.facets.length, ∀ g < c.facets.length, f ≠ g →
    frame (dim + 1) ⊆ extruded (side c f) ++ extruded (side c g) := by
  rcases dim with _ | _ | _ | _ | dim <;> cases hc <;> decide

/-- Dropping coordinates from the side over the first facet of a simplex leaves a whole frame. -/
theorem frame_subset_drop : ∀ k < dim + 2, 0 < k →
    frame (dim + 1 - k) ⊆ (extruded (side c 0)).map (·.drop k) := by
  rcases dim with _ | _ | _ | _ | dim <;> cases hc <;> decide

/-- The same holds for the first coordinates where two more are left out. -/
theorem frame_subset_take : ∀ k < dim, 0 < k → frame k ⊆ (extruded (side c 0)).map (·.take k) := by
  rcases dim with _ | _ | _ | _ | dim <;> cases hc <;> decide

end Simplices

theorem extruded_take {xs : List (List ℕ)} {n : ℕ} (hlength : ∀ x ∈ xs, x.length = n) (hne : xs ≠ []) :
    (extruded xs).map (·.take n) ⊆ xs := by
  obtain ⟨x, rest, rfl⟩ := List.exists_cons_of_ne_nil hne
  rw [extruded, List.map_append, List.map_map]
  refine List.append_subset.mpr ⟨List.forall_mem_map.mpr fun y hy => ?_, ?_⟩
  · simpa [List.take_left' (hlength y hy)] using hy
  · simp [List.take_left' (hlength x List.mem_cons_self)]

end Sides

section Regions

variable {cell : Cell} {kind : FacetKind} {f : ℕ} {xs : List (List ℕ)}

/-- The images of a region of a boundary integral, as corners of the cell. -/
structure Spans (cell : Cell) (kind : FacetKind) (f : ℕ) (xs : List (List ℕ)) : Prop where
  region : (kind, f) ∈ cell.boundary
  images : images? (cell.dim - 1) f kind = some xs
  corners : ∀ x ∈ xs, x ∈ cell.corners

theorem Spans.images_succ (h : Spans cell kind f xs) {m : ℕ} (hm : cell.dim = m + 1) : images? m f kind = some xs := by
  have himages := h.images
  rwa [hm] at himages

theorem Spans.plain {c : ReferenceCell} (h : Spans (simple c) .plain f xs) :
    ∃ d, simplex? c.dim = some d ∧ f < d.facets.length ∧ xs = side d f := by
  have hdim : (simple c).dim = c.dim - 1 + 1 := (Nat.succ_pred_eq_of_pos (dim_pos_of_boundary h.region)).symm
  have himages := side?_eq_some_iff.mp (h.images_succ hdim)
  rwa [← hdim] at himages

/-- The side over a facet of a reference cell is one over a facet of a simplex. -/
theorem Spans.vertical {a : ReferenceCell} {b : Cell} (h : Spans (.product (.simple a) b) .vertical f xs)
    {m : ℕ} (hm : a.dim + b.dim = m + 2) :
    ∃ c, simplex? (m + 1) = some c ∧ f < c.facets.length ∧ xs = extruded (side c f) := by
  have himages := h.images_succ hm
  rw [images?, if_neg (Nat.succ_ne_zero m)] at himages
  obtain ⟨ys, hys, rfl⟩ := Option.map_eq_some_iff.mp himages
  obtain ⟨c, hc, hf, rfl⟩ := side?_eq_some_iff.mp hys
  exact ⟨c, hc, hf, rfl⟩

theorem Spans.vertical_facet {a : ReferenceCell} {b : Cell} (h : Spans (.product (.simple a) b) .vertical f xs) :
    f < a.facets.length := by
  rcases boundary_cases h.region with ⟨c, hcell, -⟩ | ⟨a', b', hcell, -, hf⟩ | ⟨a', b', -, hkind, -⟩
  · cases hcell
  · cases hcell
    exact hf
  · cases hkind

theorem Spans.horizontal {a b : Cell} (h : Spans (.product a b) .horizontal f xs) :
    b.dim = 1 ∧ f < 2 ∧ xs = (frame a.dim).map (· ++ [f]) := by
  rcases boundary_cases h.region with ⟨c, hcell, -⟩ | ⟨a', b', -, hkind, -⟩ | ⟨a', b', hcell, -, hb, hf⟩
  · cases hcell
  · cases hkind
  · cases hcell
    have himages := h.images_succ (m := a.dim) (by rw [dim_product, hb])
    rw [images?, if_pos hf] at himages
    exact ⟨hb, hf, (Option.some.inj himages).symm⟩

end Regions

section OnFacets

variable {f : ℕ} {xs : List (List ℕ)}

theorem cofacial_plain {c : ReferenceCell} (h : Spans (simple c) .plain f xs)
    (hfits : f = 0 → FirstFits (simple c) .plain) : (simple c).Cofacial xs := by
  obtain ⟨d, hd, hf, rfl⟩ := h.plain
  have hpos := dim_pos_of_boundary h.region
  by_cases hc : c.isSimplex = true
  · obtain rfl : c = d := Option.some.inj ((simplex?_dim hc hpos).symm.trans hd)
    exact cofacial_side hf
  · -- the other facets of a simplex are across axes, and so are facets of a box
    have hne : f ≠ 0 := fun hzero => hc (hfits hzero)
    have hdim : 2 ≤ c.dim := by cases c <;> first | exact absurd rfl hc | decide
    obtain ⟨haxis, hside⟩ := side_subset hd hdim f hf hne
    exact (cofacial_frameWithout (simple c) haxis).mono hside

/-- On a cell of dimension one the side is one corner. -/
theorem cofacial_vertical_line {a : ReferenceCell} {b : Cell} (h : Spans (.product (.simple a) b) .vertical f xs)
    (hdim : a.dim + b.dim = 1) : (product (.simple a) b).Cofacial xs := by
  have himages : side? 1 f = some xs := h.images_succ (m := 0) hdim
  obtain ⟨c, hc, hf, rfl⟩ := side?_eq_some_iff.mp himages
  obtain ⟨x, hx⟩ := List.length_eq_one_iff.mp (length_side hc hf).1
  have hcorner := h.corners x (hx ▸ List.mem_singleton_self x)
  rw [hx]
  exact cofacial_corner (dim_pos_of_boundary h.region) hcorner

/-- The side of a cell over a plane one and a point. -/
theorem cofacial_vertical_flat {a : ReferenceCell} {b : Cell} (h : Spans (.product (.simple a) b) .vertical f xs)
    (ha : a.dim = 2) (hb : b.dim = 0) : (product (.simple a) b).Cofacial xs := by
  obtain ⟨c, hc, hf, hxs⟩ := h.vertical (m := 0) (by rw [ha, hb])
  obtain rfl : c = .interval := (Option.some.inj hc).symm
  have hpart : ∀ x ∈ xs.map (·.take 2), x ∈ a.corners := List.forall_mem_map.mpr fun x hx => by
    have hx := (mem_corners_product.mp (h.corners x hx)).1
    rwa [dim_simple, ha] at hx
  have hcofacial : ∀ a : ReferenceCell, a.dim = 2 → ∀ f < ReferenceCell.interval.facets.length,
      (∀ x ∈ (extruded (side .interval f)).map (·.take 2), x ∈ a.corners) →
      (simple a).Cofacial ((extruded (side .interval f)).map (·.take 2)) := by
    intro a
    cases a <;> decide
  rw [cofacial_product_iff h.corners, dim_simple, ha]
  subst hxs
  exact .inl (hcofacial a ha f hf hpart)

/-- The side over a facet of a simplex. -/
theorem cofacial_vertical_simplex {a : ReferenceCell} {b : Cell} (h : Spans (.product (.simple a) b) .vertical f xs)
    (ha : a.isSimplex = true) (hb : b.dim = 1) : (product (.simple a) b).Cofacial xs := by
  have hf := h.vertical_facet
  have hpos := dim_pos_of_facet hf
  obtain ⟨m, hm⟩ := Nat.exists_eq_succ_of_ne_zero hpos.ne'
  obtain ⟨c, hc, -, rfl⟩ := h.vertical (m := m) (by omega)
  rw [← Nat.succ_eq_add_one, ← hm] at hc
  obtain rfl : a = c := Option.some.inj ((simplex?_dim ha hpos).symm.trans hc)
  obtain ⟨hcount, hlength⟩ := length_side hc hf
  rw [cofacial_product_iff h.corners]
  refine .inl ((cofacial_side hf).mono (extruded_take hlength fun hnil => ?_))
  rw [hnil] at hcount
  exact hpos.ne hcount

theorem cofacial_vertical {a : ReferenceCell} {b : Cell} (h : Spans (.product (.simple a) b) .vertical f xs)
    (hfits : f = 0 → FirstFits (.product (.simple a) b) .vertical) : (product (.simple a) b).Cofacial xs := by
  have hpos := dim_pos_of_facet h.vertical_facet
  by_cases hsmall : a.dim + b.dim ≤ 2
  · obtain hline | ⟨ha, hb⟩ | ⟨ha, hb⟩ : a.dim + b.dim = 1 ∨ (a.dim = 2 ∧ b.dim = 0) ∨ (a.dim = 1 ∧ b.dim = 1) := by
      omega
    · exact cofacial_vertical_line h hline
    · exact cofacial_vertical_flat h ha hb
    · exact cofacial_vertical_simplex h (by cases a <;> first | rfl | cases ha) hb
  · by_cases hne : f = 0
    · obtain ⟨ha, hb⟩ := (hfits hne).resolve_right hsmall
      exact cofacial_vertical_simplex h ha hb
    · obtain ⟨m, hm⟩ := Nat.exists_eq_add_of_le (not_le.mp hsmall)
      obtain ⟨c, hc, hf, rfl⟩ := h.vertical (m := m + 1) (by omega)
      obtain ⟨haxis, hside⟩ := extruded_subset hc (by omega) f hf hne
      have hdim : (product (.simple a) b).dim = m + 1 + 1 + 1 := by
        rw [dim_product, dim_simple]
        omega
      rw [← hdim] at haxis hside
      exact (cofacial_frameWithout _ haxis).mono hside

/-- The bottom and the top of a product. -/
theorem cofacial_horizontal {a b : Cell} (h : Spans (.product a b) .horizontal f xs) :
    (product a b).Cofacial xs := by
  obtain ⟨hb, -, rfl⟩ := h.horizontal
  have hlength (x : List ℕ) (hx : x ∈ frame a.dim) : x.length = a.dim :=
    length_of_mem_corners (frame_subset_corners a hx)
  have hdrop : ((frame a.dim).map (· ++ [f])).map (·.drop a.dim) ⊆ [[f]] := by
    rw [List.map_map]
    refine List.forall_mem_map.mpr fun x hx => ?_
    simp [List.drop_left' (hlength x hx)]
  have horigin : List.replicate a.dim 0 ++ [f] ∈ (frame a.dim).map (· ++ [f]) :=
    List.mem_map_of_mem List.mem_cons_self
  have hcorner : [f] ∈ b.corners := by
    simpa using (mem_corners_product.mp (h.corners _ horigin)).2
  rw [cofacial_product_iff h.corners]
  exact .inr ((cofacial_corner (hb ▸ Nat.one_pos) hcorner).mono hdrop)

end OnFacets

section OffFacets

variable {xs : List (List ℕ)}

theorem firstFits_of_cofacial_plain {c : ReferenceCell} (h : Spans (simple c) .plain 0 xs)
    (hcofacial : (simple c).Cofacial xs) : FirstFits (simple c) .plain := by
  obtain ⟨d, hd, -, rfl⟩ := h.plain
  change c.isSimplex = true
  revert hcofacial
  cases c <;> cases hd <;> decide

/-- The side over the first facet of a simplex fits on a cell with at least as many dimensions only if this is the
simplex. -/
theorem isSimplex_of_cofacial {dim : ℕ} {c : ReferenceCell} (hc : simplex? dim = some c) (hdim : 2 ≤ dim)
    (a : ReferenceCell) : dim ≤ a.dim → (simple a).Cofacial ((extruded (side c 0)).map (·.take a.dim)) →
      a.isSimplex = true ∧ a.dim = dim := by
  rcases dim with _ | _ | _ | _ | dim <;> cases hc
  · exact absurd hdim (by decide)
  · cases a <;> decide
  · cases a <;> decide

theorem firstFits_of_cofacial_vertical {a : ReferenceCell} {b : Cell}
    (h : Spans (.product (.simple a) b) .vertical 0 xs) (hcofacial : (product (.simple a) b).Cofacial xs) :
    FirstFits (.product (.simple a) b) .vertical := by
  refine or_iff_not_imp_right.mpr fun hlarge => ?_
  have hpos := dim_pos_of_facet h.vertical_facet
  obtain ⟨m, hm⟩ := Nat.exists_eq_add_of_le (not_le.mp hlarge)
  obtain ⟨c, hc, -, rfl⟩ := h.vertical (m := m + 1) (by omega)
  rcases (cofacial_product_iff h.corners).mp hcofacial with hfirst | hsecond
  · rcases lt_or_ge a.dim (m + 2) with hlt | hge
    · exact absurd (hfirst.mono (frame_subset_take hc a.dim hlt hpos)) (simple a).not_cofacial_frame
    · obtain ⟨hsimplex, hdim⟩ := isSimplex_of_cofacial hc (by omega) a hge hfirst
      exact ⟨hsimplex, by omega⟩
  · -- the parts in the second factor are always a whole frame
    refine absurd (hsecond.mono ?_) b.not_cofacial_frame
    have hframe := frame_subset_drop hc a.dim (by omega) hpos
    rwa [show m + 1 + 1 + 1 - a.dim = b.dim by omega] at hframe

/-- The vertices of a region are on one facet, unless it is the first one and does not fit. -/
theorem Spans.cofacial_iff {cell : Cell} {kind : FacetKind} {f : ℕ} (h : Spans cell kind f xs) :
    cell.Cofacial xs ↔ (f = 0 → FirstFits cell kind) := by
  rcases boundary_cases h.region with ⟨c, rfl, rfl, -⟩ | ⟨a, b, rfl, rfl, -⟩ | ⟨a, b, rfl, rfl, -⟩
  · exact ⟨fun hco hzero => firstFits_of_cofacial_plain (hzero ▸ h) hco, cofacial_plain h⟩
  · exact ⟨fun hco hzero => firstFits_of_cofacial_vertical (hzero ▸ h) hco, cofacial_vertical h⟩
  · exact iff_of_true (cofacial_horizontal h) fun _ => by cases a <;> trivial

end OffFacets

section Distinct

variable {f g : ℕ} {xs ys : List (List ℕ)}

theorem frame_subset_plain {c : ReferenceCell} (hx : Spans (simple c) .plain f xs) (hy : Spans (simple c) .plain g ys)
    (hne : f ≠ g) : frame c.dim ⊆ xs ++ ys := by
  obtain ⟨d, hd, hf, rfl⟩ := hx.plain
  obtain ⟨d', hd', hg, rfl⟩ := hy.plain
  obtain rfl := Option.some.inj (hd.symm.trans hd')
  exact frame_subset_sides hd f hf g hg hne

theorem frame_subset_vertical {a : ReferenceCell} {b : Cell} (hx : Spans (.product (.simple a) b) .vertical f xs)
    (hy : Spans (.product (.simple a) b) .vertical g ys) (hne : f ≠ g) : frame (a.dim + b.dim) ⊆ xs ++ ys := by
  have hpos := dim_pos_of_facet hx.vertical_facet
  rcases Nat.lt_or_ge 1 (a.dim + b.dim) with hlarge | hsmall
  · obtain ⟨m, hm⟩ := Nat.exists_eq_add_of_le hlarge
    have hm : a.dim + b.dim = m + 2 := by omega
    obtain ⟨d, hd, hf, rfl⟩ := hx.vertical hm
    obtain ⟨d', hd', hg, rfl⟩ := hy.vertical hm
    obtain rfl := Option.some.inj (hd.symm.trans hd')
    rw [hm]
    exact frame_subset_extruded hd f hf g hg hne
  · have hone : a.dim + b.dim = 1 := by omega
    have hxs : side? 1 f = some xs := hx.images_succ (m := 0) hone
    have hys : side? 1 g = some ys := hy.images_succ (m := 0) hone
    obtain ⟨d, hd, hf, rfl⟩ := side?_eq_some_iff.mp hxs
    obtain ⟨d', hd', hg, rfl⟩ := side?_eq_some_iff.mp hys
    obtain rfl := Option.some.inj (hd.symm.trans hd')
    rw [hone]
    exact frame_subset_sides hd f hf g hg hne

/-- Every region of a product but one end has a corner at the other end. -/
theorem exists_end {a b : Cell} {kind : FacetKind} (hx : Spans (.product a b) .horizontal f xs)
    (hy : Spans (.product a b) kind g ys) (hne : (kind, g) ≠ (.horizontal, f)) : [1 - f] ∈ ys.map (·.drop a.dim) := by
  obtain ⟨hb, hf, -⟩ := hx.horizontal
  rcases boundary_cases hy.region with ⟨c, hcell, -⟩ | ⟨a', b', hcell, rfl, -⟩ | ⟨a', b', -, rfl, -⟩
  · cases hcell
  · cases hcell
    have hpos := dim_pos_of_facet hy.vertical_facet
    obtain ⟨m, hm⟩ := Nat.exists_eq_succ_of_ne_zero hpos.ne'
    obtain ⟨c, hc, hg, rfl⟩ := hy.vertical (m := m) (by omega)
    obtain ⟨hcount, hlength⟩ := length_side hc hg
    obtain ⟨x, rest, hside⟩ := List.exists_cons_of_length_eq_add_one hcount
    have hlast : x.length = a'.dim := (hlength x (hside ▸ List.mem_cons_self)).trans hm.symm
    rw [hside]
    rcases (show f = 1 ∨ f = 0 by omega) with rfl | rfl
    · refine List.mem_map.mpr ⟨x ++ [0], by simp [extruded], ?_⟩
      rw [dim_simple, List.drop_left' hlast]
    · refine List.mem_map.mpr ⟨x ++ [1], by simp [extruded], ?_⟩
      rw [dim_simple, List.drop_left' hlast]
  · obtain ⟨-, hg, rfl⟩ := hy.horizontal
    have hother : g ≠ f := fun heq => hne (congrArg _ heq)
    have hend : 1 - f = g := by omega
    refine List.mem_map.mpr ⟨List.replicate a.dim 0 ++ [g], List.mem_map_of_mem List.mem_cons_self, ?_⟩
    rw [hend, List.drop_left' (by simp)]

/-- The bottom or the top and another region of a product are not on one facet. -/
theorem not_cofacial_horizontal {a b : Cell} {kind : FacetKind} (hx : Spans (.product a b) .horizontal f xs)
    (hy : Spans (.product a b) kind g ys) (hne : (kind, g) ≠ (.horizontal, f)) :
    ¬ (product a b).Cofacial (xs ++ ys) := by
  obtain ⟨hb, hf, rfl⟩ := hx.horizontal
  have hlength (x : List ℕ) (hx : x ∈ frame a.dim) : x.length = a.dim :=
    length_of_mem_corners (frame_subset_corners a hx)
  have hcorners : ∀ x ∈ (frame a.dim).map (· ++ [f]) ++ ys, x ∈ (product a b).corners :=
    List.forall_mem_append.mpr ⟨hx.corners, hy.corners⟩
  rw [cofacial_product_iff hcorners, List.map_append, List.map_append]
  rintro (hfirst | hsecond)
  · refine a.not_cofacial_frame (hfirst.mono fun x hx => List.mem_append_left _ ?_)
    refine List.mem_map.mpr ⟨x ++ [f], List.mem_map_of_mem hx, List.take_left' (hlength x hx)⟩
  · have hend : [f] ∈ ((frame a.dim).map (· ++ [f])).map (·.drop a.dim) := by
      refine List.mem_map.mpr ⟨List.replicate a.dim 0 ++ [f], List.mem_map_of_mem List.mem_cons_self, ?_⟩
      rw [List.drop_left' (by simp)]
    have hother := exists_end hx hy hne
    refine b.not_cofacial_frame (hsecond.mono ?_)
    rw [hb]
    have hends : ∀ x ∈ frame 1, x = [f] ∨ x = [1 - f] := by
      interval_cases f <;> decide
    intro x hx
    rcases hends x hx with rfl | rfl
    · exact List.mem_append_left _ hend
    · exact List.mem_append_right _ hother

/-- Two regions are not on one facet. -/
theorem Spans.not_cofacial {cell : Cell} {kind kind' : FacetKind} (hx : Spans cell kind f xs)
    (hy : Spans cell kind' g ys) (hne : (kind', g) ≠ (kind, f)) : ¬ cell.Cofacial (xs ++ ys) := by
  have hindex (hkind : kind' = kind) : f ≠ g := fun heq => hne (by rw [hkind, heq])
  rcases boundary_cases hx.region with ⟨c, rfl, rfl, -⟩ | ⟨a, b, rfl, rfl, -⟩ | ⟨a, b, rfl, rfl, -⟩
  · rcases boundary_cases hy.region with ⟨c', hcell, rfl, -⟩ | ⟨a, b, hcell, -⟩ | ⟨a, b, hcell, -⟩
    · exact fun h => (simple c).not_cofacial_frame (h.mono (frame_subset_plain hx hy (hindex rfl)))
    · cases hcell
    · cases hcell
  · rcases boundary_cases hy.region with ⟨c', hcell, -⟩ | ⟨a', b', hcell, rfl, -⟩ | ⟨a', b', hcell, rfl, -⟩
    · cases hcell
    · exact fun h => (product (.simple a) b).not_cofacial_frame (h.mono (frame_subset_vertical hx hy (hindex rfl)))
    · refine fun h => not_cofacial_horizontal hy hx hne.symm (h.mono ?_)
      exact List.append_subset.mpr ⟨List.subset_append_right _ _, List.subset_append_left _ _⟩
  · exact not_cofacial_horizontal hx hy hne

end Distinct

end Variational.Cell
