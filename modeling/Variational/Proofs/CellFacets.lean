import Variational.Proofs.CellMapCode

/-! Facets of cells. A facet of a product is a facet of one factor times the other. Each axis has a facet that holds
the origin and the unit points of the other axes, but no facet holds the origin and all unit points. -/
namespace Variational.Cell

/-- The corners on each facet. -/
def facets : Cell → List (List (List ℕ))
  | simple c => c.facets.map (·.map fun v => c.corners.getD v [])
  | product a b =>
    (a.facets.map fun F => F.flatMap fun v => b.corners.map (v ++ ·)) ++
      b.facets.map fun F => a.corners.flatMap fun v => F.map (v ++ ·)

/-- Some points are on a common facet. -/
def Cofacial (cell : Cell) (xs : List (List ℕ)) : Prop := ∃ F ∈ cell.facets, ∀ x ∈ xs, x ∈ F

instance (c : ReferenceCell) (xs : List (List ℕ)) : Decidable ((simple c).Cofacial xs) :=
  inferInstanceAs (Decidable (∃ F ∈ c.facets.map (·.map fun v => c.corners.getD v []), ∀ x ∈ xs, x ∈ F))

theorem Cofacial.mono {cell : Cell} {xs ys : List (List ℕ)} (h : cell.Cofacial ys) (hsub : xs ⊆ ys) :
    cell.Cofacial xs := by
  obtain ⟨F, hF, hys⟩ := h
  exact ⟨F, hF, fun x hx => hys x (hsub hx)⟩

theorem length_of_mem_corners {cell : Cell} {x : List ℕ} (hx : x ∈ cell.corners) : x.length = cell.dim := by
  induction cell generalizing x with
  | simple c =>
    revert x
    cases c <;> decide
  | product a b iha ihb =>
    obtain ⟨v, hv, hx⟩ := List.mem_flatMap.mp hx
    obtain ⟨w, hw, rfl⟩ := List.mem_map.mp hx
    rw [List.length_append, iha hv, ihb hw, dim_product]

theorem mem_corners_of_mem_facets {cell : Cell} {F : List (List ℕ)} (hF : F ∈ cell.facets) {x : List ℕ}
    (hx : x ∈ F) : x ∈ cell.corners := by
  induction cell generalizing F x with
  | simple c =>
    revert F x
    cases c <;> decide
  | product a b iha ihb =>
    rcases List.mem_append.mp hF with hF | hF
    · obtain ⟨G, hG, rfl⟩ := List.mem_map.mp hF
      obtain ⟨v, hv, hx⟩ := List.mem_flatMap.mp hx
      exact List.mem_flatMap.mpr ⟨v, iha hG hv, hx⟩
    · obtain ⟨H, hH, rfl⟩ := List.mem_map.mp hF
      obtain ⟨v, hv, hx⟩ := List.mem_flatMap.mp hx
      obtain ⟨w, hw, rfl⟩ := List.mem_map.mp hx
      exact List.mem_flatMap.mpr ⟨v, hv, List.mem_map_of_mem (ihb hH hw)⟩

section Products

variable {a b : Cell}

theorem mem_corners_product {x : List ℕ} :
    x ∈ (product a b).corners ↔ x.take a.dim ∈ a.corners ∧ x.drop a.dim ∈ b.corners := by
  constructor
  · intro hx
    obtain ⟨v, hv, hx⟩ := List.mem_flatMap.mp hx
    obtain ⟨w, hw, rfl⟩ := List.mem_map.mp hx
    rw [List.take_left' (length_of_mem_corners hv), List.drop_left' (length_of_mem_corners hv)]
    exact ⟨hv, hw⟩
  · rintro ⟨hv, hw⟩
    refine List.mem_flatMap.mpr ⟨_, hv, List.mem_map.mpr ⟨_, hw, List.take_append_drop _ _⟩⟩

/-- Corners of a product are on a common facet exactly when their parts in one of the factors are. -/
theorem cofacial_product_iff {xs : List (List ℕ)} (hxs : ∀ x ∈ xs, x ∈ (product a b).corners) :
    (product a b).Cofacial xs ↔ a.Cofacial (xs.map (·.take a.dim)) ∨ b.Cofacial (xs.map (·.drop a.dim)) := by
  have hsplit {x v w : List ℕ} (hv : v ∈ a.corners) (hx : v ++ w = x) : x.take a.dim = v ∧ x.drop a.dim = w := by
    subst hx
    exact ⟨List.take_left' (length_of_mem_corners hv), List.drop_left' (length_of_mem_corners hv)⟩
  simp only [Cofacial, List.forall_mem_map]
  constructor
  · rintro ⟨F, hF, hmem⟩
    rcases List.mem_append.mp hF with hF | hF
    · obtain ⟨G, hG, rfl⟩ := List.mem_map.mp hF
      refine .inl ⟨G, hG, fun x hx => ?_⟩
      obtain ⟨v, hv, hx⟩ := List.mem_flatMap.mp (hmem x hx)
      obtain ⟨w, -, hx⟩ := List.mem_map.mp hx
      rwa [(hsplit (mem_corners_of_mem_facets hG hv) hx).1]
    · obtain ⟨H, hH, rfl⟩ := List.mem_map.mp hF
      refine .inr ⟨H, hH, fun x hx => ?_⟩
      obtain ⟨v, hv, hx⟩ := List.mem_flatMap.mp (hmem x hx)
      obtain ⟨w, hw, hx⟩ := List.mem_map.mp hx
      rwa [(hsplit hv hx).2]
  · rintro (⟨G, hG, hmem⟩ | ⟨H, hH, hmem⟩)
    · refine ⟨_, List.mem_append_left _ (List.mem_map_of_mem hG), fun x hx => ?_⟩
      refine List.mem_flatMap.mpr ⟨_, hmem x hx, List.mem_map.mpr ⟨x.drop a.dim, ?_, List.take_append_drop _ _⟩⟩
      exact (mem_corners_product.mp (hxs x hx)).2
    · refine ⟨_, List.mem_append_right _ (List.mem_map_of_mem hH), fun x hx => ?_⟩
      refine List.mem_flatMap.mpr ⟨_, (mem_corners_product.mp (hxs x hx)).1, ?_⟩
      exact List.mem_map.mpr ⟨_, hmem x hx, List.take_append_drop _ _⟩

end Products

section Axes

/-- The origin and the unit points of a space. -/
def frame (dim : ℕ) : List (List ℕ) := List.replicate dim 0 :: (List.range dim).map (unitPoint dim)

theorem origin_mem_corners (cell : Cell) : List.replicate cell.dim 0 ∈ cell.corners :=
  List.mem_of_getElem? cell.corners_head

theorem frame_subset_corners (cell : Cell) : frame cell.dim ⊆ cell.corners := by
  refine List.cons_subset.mpr ⟨cell.origin_mem_corners, ?_⟩
  refine List.forall_mem_map.mpr fun k hk => cell.unitPoint_mem_corners (List.mem_range.mp hk)

theorem mem_frame {dim : ℕ} {x : List ℕ} :
    x ∈ frame dim ↔ x = List.replicate dim 0 ∨ ∃ k < dim, x = unitPoint dim k := by
  simp [frame, eq_comm]

/-- The parts of the axes of a product are the axes of its factors. -/
theorem frame_product (m n : ℕ) : frame m ⊆ (frame (m + n)).map (·.take m) ∧
    frame n ⊆ (frame (m + n)).map (·.drop m) := by
  have horigin : List.replicate (m + n) 0 = List.replicate m 0 ++ List.replicate n 0 :=
    (List.replicate_append_replicate ..).symm
  have hzero : List.replicate (m + n) 0 ∈ frame (m + n) := List.mem_cons_self
  constructor
  · intro x hx
    rcases mem_frame.mp hx with rfl | ⟨k, hk, rfl⟩
    · exact List.mem_map.mpr ⟨_, hzero, by simp⟩
    · refine List.mem_map.mpr ⟨unitPoint (m + n) k, mem_frame.mpr (.inr ⟨k, by omega, rfl⟩), ?_⟩
      rw [unitPoint_left n hk, List.take_left' (by simp [unitPoint])]
  · intro x hx
    rcases mem_frame.mp hx with rfl | ⟨k, hk, rfl⟩
    · exact List.mem_map.mpr ⟨_, hzero, by simp⟩
    · refine List.mem_map.mpr ⟨unitPoint (m + n) (m + k), mem_frame.mpr (.inr ⟨m + k, by omega, rfl⟩), ?_⟩
      rw [unitPoint_right, List.drop_left' (by simp)]

/-- No facet holds the origin and all unit points. -/
theorem not_cofacial_frame (cell : Cell) : ¬ cell.Cofacial (frame cell.dim) := by
  induction cell with
  | simple c => cases c <;> decide
  | product a b iha ihb =>
    rw [cofacial_product_iff fun x hx => frame_subset_corners _ hx, dim_product]
    obtain ⟨hfirst, hsecond⟩ := frame_product a.dim b.dim
    rintro (h | h)
    · exact iha (h.mono hfirst)
    · exact ihb (h.mono hsecond)

/-- The origin and the unit points of all axes but one. -/
def frameWithout (dim axis : ℕ) : List (List ℕ) :=
  List.replicate dim 0 :: ((List.range dim).filter (· ≠ axis)).map (unitPoint dim)

theorem mem_frameWithout {dim axis : ℕ} {x : List ℕ} :
    x ∈ frameWithout dim axis ↔ x = List.replicate dim 0 ∨ ∃ k < dim, k ≠ axis ∧ x = unitPoint dim k := by
  simp only [frameWithout, List.mem_cons, List.mem_map, List.mem_filter, List.mem_range, decide_eq_true_eq]
  refine or_congr Iff.rfl ⟨?_, ?_⟩
  · rintro ⟨k, ⟨hk, hne⟩, rfl⟩
    exact ⟨k, hk, hne, rfl⟩
  · rintro ⟨k, hk, hne, rfl⟩
    exact ⟨k, ⟨hk, hne⟩, rfl⟩

theorem frameWithout_subset_corners (cell : Cell) (axis : ℕ) : frameWithout cell.dim axis ⊆ cell.corners := by
  intro x hx
  rcases mem_frameWithout.mp hx with rfl | ⟨k, hk, -, rfl⟩
  · exact cell.origin_mem_corners
  · exact cell.unitPoint_mem_corners hk

theorem frameWithout_left {m axis : ℕ} (n : ℕ) :
    (frameWithout (m + n) axis).map (·.take m) ⊆ frameWithout m axis := by
  intro x hx
  obtain ⟨y, hy, rfl⟩ := List.mem_map.mp hx
  rw [mem_frameWithout]
  rcases mem_frameWithout.mp hy with rfl | ⟨k, hk, hne, rfl⟩
  · exact .inl (by simp)
  · by_cases hkm : k < m
    · refine .inr ⟨k, hkm, hne, ?_⟩
      rw [unitPoint_left n hkm, List.take_left' (by simp [unitPoint])]
    · obtain ⟨l, rfl⟩ := Nat.exists_eq_add_of_le (not_lt.mp hkm)
      exact .inl (by rw [unitPoint_right, List.take_left' (by simp)])

theorem frameWithout_right (m : ℕ) {n axis : ℕ} :
    (frameWithout (m + n) (m + axis)).map (·.drop m) ⊆ frameWithout n axis := by
  intro x hx
  obtain ⟨y, hy, rfl⟩ := List.mem_map.mp hx
  rw [mem_frameWithout]
  rcases mem_frameWithout.mp hy with rfl | ⟨k, hk, hne, rfl⟩
  · exact .inl (by simp)
  · by_cases hkm : k < m
    · exact .inl (by rw [unitPoint_left n hkm, List.drop_left' (by simp [unitPoint])])
    · obtain ⟨l, rfl⟩ := Nat.exists_eq_add_of_le (not_lt.mp hkm)
      refine .inr ⟨l, by omega, fun h => hne (h ▸ rfl), ?_⟩
      rw [unitPoint_right, List.drop_left' (by simp)]

/-- Each axis has a facet across it. -/
theorem cofacial_frameWithout (cell : Cell) {axis : ℕ} (haxis : axis < cell.dim) :
    cell.Cofacial (frameWithout cell.dim axis) := by
  induction cell generalizing axis with
  | simple c => cases c <;> simp only [dim_simple, ReferenceCell.dim] at haxis ⊢ <;> interval_cases axis <;> decide
  | product a b iha ihb =>
    rw [cofacial_product_iff fun x hx => frameWithout_subset_corners _ _ hx, dim_product]
    by_cases ha : axis < a.dim
    · exact .inl ((iha ha).mono (frameWithout_left b.dim))
    · obtain ⟨l, rfl⟩ := Nat.exists_eq_add_of_le (not_lt.mp ha)
      rw [dim_product] at haxis
      exact .inr ((ihb (by omega)).mono (frameWithout_right a.dim))

/-- Every corner is on a facet. -/
theorem cofacial_corner {cell : Cell} (hpos : 0 < cell.dim) {x : List ℕ} (hx : x ∈ cell.corners) :
    cell.Cofacial [x] := by
  induction cell generalizing x with
  | simple c =>
    revert x
    cases c <;> first | decide | exact absurd hpos (lt_irrefl 0)
  | product a b iha ihb =>
    rw [cofacial_product_iff (by simpa using hx)]
    obtain ⟨hv, hw⟩ := mem_corners_product.mp hx
    rw [dim_product] at hpos
    rcases Nat.eq_zero_or_pos a.dim with ha | ha
    · exact .inr (ihb (by omega) hw)
    · exact .inl (iha ha hv)

end Axes

end Variational.Cell
