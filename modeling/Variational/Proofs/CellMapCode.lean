import Variational.Proofs.FieldCode
import Variational.Proofs.TensorNames

/-! The code for the map of a cell. Every cell has a vertex at the origin, which comes first, and one at the unit point
of each axis. For the image of a cell under an affine map, over any field, the constants that are declared are
therefore the matrix of the map, its determinant and its inverse. -/
namespace Variational

open Code Result

namespace Cell

/-- The unit point of an axis. -/
def unitPoint (dim axis : ℕ) : List ℕ := (List.range dim).map fun k => if k = axis then 1 else 0

theorem unitPoint_left (m : ℕ) {n k : ℕ} (h : k < n) : unitPoint (n + m) k = unitPoint n k ++ List.replicate m 0 := by
  refine List.ext_getElem (by simp [unitPoint]) fun i _ _ => ?_
  by_cases hi : i < n
  · rw [List.getElem_append_left (by simpa [unitPoint] using hi)]
    simp [unitPoint]
  · rw [List.getElem_append_right (by simpa [unitPoint] using hi)]
    have hne : i ≠ k := by omega
    simp [unitPoint, hne]

theorem unitPoint_right (n m k : ℕ) : unitPoint (n + m) (n + k) = List.replicate n 0 ++ unitPoint m k := by
  refine List.ext_getElem (by simp [unitPoint]) fun i _ _ => ?_
  by_cases hi : i < n
  · rw [List.getElem_append_left (by simpa using hi)]
    have hne : i ≠ n + k := by omega
    simp [unitPoint, hne]
  · rw [List.getElem_append_right (by simpa using hi)]
    have hshift : i = n + k ↔ i - n = k := by omega
    simp [unitPoint, hshift]

/-- The first vertex is the origin. -/
theorem corners_eq_cons (cell : Cell) : ∃ rest, cell.corners = List.replicate cell.dim 0 :: rest := by
  induction cell with
  | simple c => cases c <;> exact ⟨_, rfl⟩
  | product a b iha ihb =>
    obtain ⟨as, ha⟩ := iha
    obtain ⟨bs, hb⟩ := ihb
    refine ⟨bs.map (List.replicate a.dim 0 ++ ·) ++ as.flatMap fun v => b.corners.map (v ++ ·), ?_⟩
    rw [corners, ha, List.flatMap_cons, hb, List.map_cons, List.replicate_append_replicate]
    rfl

theorem corners_head (cell : Cell) : cell.corners[0]? = some (List.replicate cell.dim 0) := by
  obtain ⟨rest, hrest⟩ := cell.corners_eq_cons
  rw [hrest, List.getElem?_cons_zero]

theorem unitPoint_mem_corners (cell : Cell) {k : ℕ} (hk : k < cell.dim) : unitPoint cell.dim k ∈ cell.corners := by
  induction cell generalizing k with
  | simple c => cases c <;> simp only [dim_simple, ReferenceCell.dim] at hk ⊢ <;> interval_cases k <;> decide
  | product a b iha ihb =>
    have horigin (c : Cell) : List.replicate c.dim 0 ∈ c.corners := List.mem_of_getElem? c.corners_head
    have hpair {v w : List ℕ} (hv : v ∈ a.corners) (hw : w ∈ b.corners) : v ++ w ∈ (product a b).corners :=
      List.mem_flatMap.mpr ⟨v, hv, List.mem_map_of_mem hw⟩
    rw [dim_product] at hk ⊢
    by_cases hak : k < a.dim
    · rw [unitPoint_left b.dim hak]
      exact hpair (iha hak) (horigin b)
    · obtain ⟨l, rfl⟩ := Nat.exists_eq_add_of_le (not_lt.mp hak)
      rw [unitPoint_right]
      exact hpair (horigin a) (ihb (by omega))

end Cell

namespace Geometry

/-- Every cell has a vertex at the unit point of each axis, and it is found. -/
theorem axisVertex_eq_ok (cell : Cell) {k : ℕ} (hk : k < cell.dim) :
    ∃ v, axisVertex cell k = .ok v ∧ cell.corners[v]? = some (Cell.unitPoint cell.dim k) := by
  have hsome : (cell.corners.findIdx? (· == Cell.unitPoint cell.dim k)).isSome = true := by
    rw [List.findIdx?_isSome, List.any_eq_true]
    exact ⟨_, cell.unitPoint_mem_corners hk, beq_self_eq_true _⟩
  obtain ⟨v, hv⟩ := Option.isSome_iff_exists.mp hsome
  refine ⟨v, ?_, ?_⟩
  · rw [Cell.unitPoint] at hv
    rw [axisVertex, hv]
  · obtain ⟨hlt, heq, -⟩ := List.findIdx?_eq_some_iff_getElem.mp hv
    rw [List.getElem?_eq_getElem hlt, beq_iff_eq.mp heq]

section Matrices

variable {α : Type} (symbol : ℕ → ℕ → Symbol) (n : ℕ)

theorem zipIdx_map_range {β : Type} (g : ℕ → β) :
    ((List.range n).map g).zipIdx = (List.finRange n).map fun i : Fin n => (g i, (i : ℕ)) := by
  refine List.ext_getElem (by simp) fun i _ _ => ?_
  simp

theorem declareMatrix_range (e : ℕ → ℕ → Expr α) :
    declareMatrix symbol ((List.range n).map fun i => (List.range n).map (e i)) =
      (List.finRange n ×ˢ List.finRange n).map fun p => .constant (symbol p.1 p.2).name (e p.1 p.2) := by
  simp only [declareMatrix, zipIdx_map_range, List.flatMap_map, List.map_map, SProd.sprod, List.product,
    List.map_flatMap, Function.comp_def]

theorem matrixNames_eq :
    matrixNames symbol n = (List.finRange n ×ˢ List.finRange n).map fun p => (symbol p.1 p.2).name := by
  simp only [matrixNames, ← List.map_coe_finRange_eq_range, List.flatMap_map, List.map_map, SProd.sprod,
    List.product, List.map_flatMap, Function.comp_def]

theorem one_le_grip_jacobian (i j : ℕ) : 1 ≤ (jacobian i j : Expr α).grip := Nat.le_add_left 1 2

end Matrices

/-- The cofactors by cyclic indices. -/
theorem adjugate_cyclic {K : Type} [Field K] (A : Matrix (Fin 3) (Fin 3) K) (i j : Fin 3) :
    A.adjugate i j = A (j + 1) (i + 1) * A (j + 2) (i + 2) - A (j + 1) (i + 2) * A (j + 2) (i + 1) := by
  rw [Matrix.adjugate_fin_three]
  fin_cases i <;> fin_cases j <;> simp <;> ring

variable {K : Type} [Field K] [DecidableEq K]

/-- The constants of a matrix hold its entries. -/
def Holds {n : ℕ} (symbol : ℕ → ℕ → Symbol) (A : Matrix (Fin n) (Fin n) K) (m : Store K) : Prop :=
  ∀ i j : Fin n, m ((symbol i j).name, []) = some (A i j)

theorem declareAll?_matrix (vertices : List (List K)) {m : Store K} {symbol : ℕ → ℕ → Symbol} {n : ℕ}
    (e : ℕ → ℕ → Expr K) {A : Matrix (Fin n) (Fin n) K} (hnodup : (matrixNames symbol n).Nodup)
    (hfree : ∀ s ∈ matrixNames symbol n, m (s, []) = none)
    (hvalue : ∀ i j : Fin n, (e i j).valueIn? m = some (A i j)) :
    ∃ m', declareAll? vertices (declareMatrix symbol ((List.range n).map fun i => (List.range n).map (e i))) m =
        some m' ∧
      Holds symbol A m' ∧ ∀ s ∉ matrixNames symbol n, m' (s, []) = m (s, []) := by
  rw [matrixNames_eq] at hnodup hfree ⊢
  rw [List.forall_mem_map] at hfree
  obtain ⟨m', hrun, hvalues, hframe⟩ := declareAll?_constants vertices hnodup hfree
    fun p _ => hvalue p.1 p.2
  refine ⟨m', ?_, fun i j => ?_, fun s hs => hframe _ fun p hp heq => hs ?_⟩
  · rw [declareMatrix_range]
    exact hrun
  · exact hvalues (i, j) (List.pair_mem_product.mpr ⟨List.mem_finRange i, List.mem_finRange j⟩)
  · rw [(Prod.mk.inj heq).1]
    exact List.mem_map_of_mem hp

section Inversion

variable {n : ℕ} {A : Matrix (Fin n) (Fin n) K} {m : Store K}

theorem valueIn?_jacobian (h : Holds .jacobian A m) (i j : Fin n) :
    (jacobian i j : Expr K).valueIn? m = some (A i j) := h i j

theorem valueIn?_cofactor {A : Matrix (Fin 3) (Fin 3) K} (h : Holds .jacobian A m) (i j : Fin 3) :
    (cofactor j i : Expr K).valueIn? m = some (A.adjugate i j) := by
  have hfirst := Expr.valueIn?_times (valueIn?_jacobian h (j + 1) (i + 1)) (valueIn?_jacobian h (j + 2) (i + 2))
    (one_le_grip_jacobian _ _) rfl
  have hsecond := Expr.valueIn?_times (valueIn?_jacobian h (j + 1) (i + 2)) (valueIn?_jacobian h (j + 2) (i + 1))
    (one_le_grip_jacobian _ _) rfl
  rw [adjugate_cyclic]
  exact Expr.valueIn?_minus hfirst hsecond le_rfl

theorem valueIn?_over_determinant {d x : K} (hd : d ≠ 0) (hdet : m ("detJ", []) = some d) {e : Expr K}
    (he : e.valueIn? m = some x) (hgrip : 1 ≤ e.grip) (spaced : Bool) :
    (Expr.binary .div spaced e determinant).valueIn? m = some (x / d) := by
  have hname : (determinant : Expr K).valueIn? m = some d := hdet
  exact Expr.valueIn?_quotient he hname spaced hgrip rfl hd

/-- The expression for the determinant gives the determinant, and those for the inverse the entries of the adjugate
divided by it. -/
def Inverts (A : Matrix (Fin n) (Fin n) K) (det : Expr K) (e : ℕ → ℕ → Expr K) : Prop :=
  ∀ m : Store K, Holds .jacobian A m → det.valueIn? m = some A.det ∧
    (m ("detJ", []) = some A.det → A.det ≠ 0 → ∀ i j : Fin n, (e i j).valueIn? m = some (A.adjugate i j / A.det))

theorem inverts_one (A : Matrix (Fin 1) (Fin 1) K) :
    Inverts A (jacobian 0 0) fun _ _ => .binary .div true .one determinant := by
  intro m h
  refine ⟨?_, fun hdet hne i j => ?_⟩
  · rw [Matrix.det_fin_one]
    exact valueIn?_jacobian h 0 0
  · obtain rfl := Subsingleton.elim i j
    rw [Matrix.adjugate_fin_one, Matrix.one_apply_eq]
    exact valueIn?_over_determinant hne hdet Expr.valueIn?_one (Nat.le_add_left 1 2) true

/-- The entries of the adjugate of a matrix of size two. -/
def adjugateTwo : ℕ → ℕ → Expr K
  | 0, 0 => jacobian 1 1
  | 0, _ => .neg (jacobian 0 1)
  | _, 0 => .neg (jacobian 1 0)
  | _, _ => jacobian 0 0

theorem inverts_two (A : Matrix (Fin 2) (Fin 2) K) :
    Inverts A (.minus (.times (jacobian 0 0) (jacobian 1 1)) (.times (jacobian 0 1) (jacobian 1 0)))
      fun i j => .binary .div true (adjugateTwo i j) determinant := by
  intro m h
  have hentry := valueIn?_jacobian h
  refine ⟨?_, fun hdet hne i j => ?_⟩
  · have hfirst := Expr.valueIn?_times (hentry 0 0) (hentry 1 1) (one_le_grip_jacobian 0 0) rfl
    have hsecond := Expr.valueIn?_times (hentry 0 1) (hentry 1 0) (one_le_grip_jacobian 0 1) rfl
    rw [Matrix.det_fin_two]
    exact Expr.valueIn?_minus hfirst hsecond le_rfl
  · have hneg (i j : Fin 2) : (Expr.neg (jacobian i j : Expr K)).valueIn? m = some (-A i j) := by
      rw [Expr.valueIn?, hentry, Option.map_some]
    rw [Matrix.adjugate_fin_two]
    fin_cases i <;> fin_cases j
    · exact valueIn?_over_determinant hne hdet (hentry 1 1) (one_le_grip_jacobian 1 1) true
    · exact valueIn?_over_determinant hne hdet (hneg 0 1) one_le_two true
    · exact valueIn?_over_determinant hne hdet (hneg 1 0) one_le_two true
    · exact valueIn?_over_determinant hne hdet (hentry 0 0) (one_le_grip_jacobian 0 0) true

theorem inverts_three (A : Matrix (Fin 3) (Fin 3) K) :
    Inverts A (.sum ((List.range 3).map fun b => .times (jacobian 0 b) (cofactor 0 b)))
      fun i j => .divide (cofactor j i) determinant := by
  intro m h
  refine ⟨?_, fun hdet hne i j => ?_⟩
  · have hterm (b : Fin 3) : (Expr.times (jacobian 0 b) (cofactor 0 b) : Expr K).valueIn? m =
        some (A 0 b * A.adjugate b 0) :=
      Expr.valueIn?_times (valueIn?_jacobian h 0 b) (valueIn?_cofactor h b 0) (one_le_grip_jacobian 0 b) rfl
    have hsum : A.det = A 0 0 * A.adjugate 0 0 + A 0 1 * A.adjugate 1 0 + A 0 2 * A.adjugate 2 0 := by
      have hexpand := congrFun₂ (Matrix.mul_adjugate A) 0 0
      simpa [Matrix.mul_apply, Fin.sum_univ_three] using hexpand.symm
    rw [hsum]
    exact Expr.valueIn?_plus (Expr.valueIn?_plus (hterm 0) (hterm 1) le_rfl) (hterm 2) le_rfl
  · exact valueIn?_over_determinant hne hdet (valueIn?_cofactor h i j) (Nat.le_add_left 1 2) false

/-- There is code for the inverse of a matrix of size one to three. -/
theorem inversion_eq (hpos : 1 ≤ n) (hn : n ≤ 3) (A : Matrix (Fin n) (Fin n) K) : ∃ det e,
    inversion n = .ok (det, (List.range n).map fun i => (List.range n).map (e i)) ∧ Inverts A det e := by
  interval_cases n
  · exact ⟨_, _, rfl, inverts_one A⟩
  · exact ⟨_, _, rfl, inverts_two A⟩
  · exact ⟨_, _, rfl, inverts_three A⟩

end Inversion

section AffineImages

variable {n : ℕ} (A : Matrix (Fin n) (Fin n) K) (b : Fin n → K)

/-- The image of a corner of a reference cell under an affine map. -/
def affineImage (corner : List ℕ) : List K := List.ofFn (A.mulVec (fun j => (corner.getD j 0 : K)) + b)

omit [DecidableEq K] in
theorem affineImage_origin : affineImage A b (List.replicate n 0) = List.ofFn b := by
  have hzero : (fun j : Fin n => (((List.replicate n 0).getD j 0 : ℕ) : K)) = 0 := by
    funext j
    simp
  rw [affineImage, hzero, Matrix.mulVec_zero, zero_add]

omit [DecidableEq K] in
theorem affineImage_unitPoint (j : Fin n) :
    affineImage A b (Cell.unitPoint n j) = List.ofFn fun i => A i j + b i := by
  have hunit : (fun k : Fin n => (((Cell.unitPoint n j).getD k 0 : ℕ) : K)) = Pi.single j 1 := by
    funext k
    simp [Cell.unitPoint, Pi.single_apply, Fin.ext_iff]
  rw [affineImage, hunit, Matrix.mulVec_single_one]
  rfl

/-- The constants of the Jacobian of an affine image of a cell, which come from differences of vertices. -/
theorem valueIn?_edge {cell : Cell} (A : Matrix (Fin cell.dim) (Fin cell.dim) K) (b : Fin cell.dim → K)
    {j : Fin cell.dim} {v : ℕ} (hv : cell.corners[v]? = some (Cell.unitPoint cell.dim j)) (i : Fin cell.dim)
    (m : Store K) :
    (edge i 0 v : Expr K).valueIn? (m.withVertices (cell.corners.map (affineImage A b))) = some (A i j) := by
  have hentry {w : ℕ} {corner : List ℕ} {f : Fin cell.dim → K} (hw : cell.corners[w]? = some corner)
      (hf : affineImage A b corner = List.ofFn f) :
      (Expr.entry2 "x" w i : Expr K).valueIn? (m.withVertices (cell.corners.map (affineImage A b))) = some (f i) := by
    rw [Expr.valueIn?_entry2, Store.withVertices, List.getElem?_map, hw]
    simp [hf]
  have hedge := Expr.valueIn?_minus (hentry hv (affineImage_unitPoint A b j))
    (hentry cell.corners_head (affineImage_origin A b)) (Nat.le_add_left 1 2)
  rw [add_sub_cancel_right] at hedge
  exact hedge

end AffineImages

theorem inv_apply_eq {K : Type} [Field K] {n : ℕ} (A : Matrix (Fin n) (Fin n) K) (i j : Fin n) :
    A⁻¹ i j = A.adjugate i j / A.det := by
  rw [Matrix.inv_def, Ring.inverse_eq_inv', Matrix.smul_apply, smul_eq_mul, div_eq_inv_mul]

/-- The names of the two matrices and of the determinant are all different. -/
theorem names_distinct {n : ℕ} (hn : n ≤ 3) :
    (matrixNames .jacobian n).Nodup ∧ (matrixNames .inverseJacobian n).Nodup ∧ "detJ" ∉ matrixNames .jacobian n ∧
      "detJ" ∉ matrixNames .inverseJacobian n ∧
      ∀ s ∈ matrixNames .inverseJacobian n, s ∉ matrixNames .jacobian n := by
  have hnames := (List.nodup_append.mp (nodup_cellNames hn)).1
  rw [cellNames, List.nodup_append] at hnames
  obtain ⟨hfirst, hinverse, hapart⟩ := hnames
  obtain ⟨hjacobian, -, hdet⟩ := List.nodup_append.mp hfirst
  refine ⟨hjacobian, hinverse, fun h => ?_, fun h => ?_, fun s hs h => ?_⟩
  · exact hdet _ h _ (List.mem_singleton_self _) rfl
  · exact hapart _ (List.mem_append_right _ (List.mem_singleton_self _)) _ h rfl
  · exact hapart _ (List.mem_append_left _ h) _ hs rfl

section Run

variable {α : Type}

/-- The declarations of the Jacobian, from the vertices on the axes. -/
def jacobianCode (n : ℕ) (v : ℕ → ℕ) : List (Statement α) :=
  .comment "Extract vertex coordinates" :: .verbatim "const double * const * x = c.coordinates;" :: .blank ::
    .comment "Compute Jacobian of affine map from reference cell" ::
    declareMatrix .jacobian ((List.range n).map fun i => (List.range n).map fun j => edge i 0 (v j))

/-- The declarations of the determinant and of the inverse. -/
def inverseCode (det : Expr α) (inverse : List (List (Expr α))) : List (Statement α) :=
  .blank :: .comment "Compute determinant of Jacobian" :: .constant "detJ" det :: .blank ::
    .comment "Compute inverse of Jacobian" :: declareMatrix .inverseJacobian inverse

theorem cellMap_eq {cell : Cell} (hpos : 1 ≤ cell.dim) {v : ℕ → ℕ} (hv : ∀ k < cell.dim, axisVertex cell k = .ok (v k))
    {det : Expr α} {inverse : List (List (Expr α))} (hinverse : inversion cell.dim = .ok (det, inverse)) :
    cellMap cell = .ok (jacobianCode cell.dim v ++ inverseCode det inverse ++ [.blank]) := by
  have hvertices : (List.range cell.dim).mapM (axisVertex cell) = .ok ((List.range cell.dim).map v) :=
    mapM_of_forall fun k hk => hv k (List.mem_range.mp hk)
  unfold cellMap
  rw [if_neg (Nat.one_le_iff_ne_zero.mp hpos), hvertices, hinverse]
  simp only [ok_bind, List.map_map, Function.comp_def, jacobianCode, inverseCode, List.append_assoc, List.cons_append,
    List.nil_append]
  rfl

/-- For the affine image of a cell, the constants of the Jacobian are the matrix of the map. -/
theorem declareAll?_jacobian {cell : Cell} (hdim : cell.dim ≤ 3) (A : Matrix (Fin cell.dim) (Fin cell.dim) K)
    (b : Fin cell.dim → K) {v : ℕ → ℕ}
    (hv : ∀ k < cell.dim, cell.corners[v k]? = some (Cell.unitPoint cell.dim k)) :
    ∃ m, declareAll? (cell.corners.map (affineImage A b)) (jacobianCode cell.dim v) (fun _ => none) = some m ∧
      Holds .jacobian A m ∧ ∀ s ∉ matrixNames .jacobian cell.dim, m (s, []) = none := by
  let vertices := cell.corners.map (affineImage A b)
  let m₁ : Store K := Store.withVertices vertices fun _ => none
  have hempty (s : String) : m₁ (s, []) = none := by
    simp only [m₁, Store.withVertices]
  obtain ⟨m, hrun, hjacobian, hframe⟩ := declareAll?_matrix vertices (fun i j => edge i 0 (v j))
    (names_distinct hdim).1 (fun s _ => hempty s) fun i j => valueIn?_edge A b (hv j j.isLt) i fun _ => none
  have hstart (rest : List (Statement K)) : declareAll? vertices (.comment "Extract vertex coordinates" ::
      .verbatim "const double * const * x = c.coordinates;" :: .blank ::
      .comment "Compute Jacobian of affine map from reference cell" :: rest) (fun _ => none) =
      declareAll? vertices rest m₁ := rfl
  refine ⟨m, (hstart _).trans hrun, hjacobian, fun s hs => ?_⟩
  rw [hframe s hs, hempty]

/-- Where the constants of the Jacobian are a regular matrix, those that follow are its determinant and its inverse. -/
theorem declareAll?_inverse (vertices : List (List K)) {n : ℕ} (hn : n ≤ 3) {A : Matrix (Fin n) (Fin n) K}
    (hdet : A.det ≠ 0) {det : Expr K} {e : ℕ → ℕ → Expr K} (hinverts : Inverts A det e) {m : Store K}
    (hjacobian : Holds .jacobian A m) (hfree : ∀ s ∉ matrixNames .jacobian n, m (s, []) = none) :
    ∃ m', declareAll? vertices (inverseCode det ((List.range n).map fun i => (List.range n).map (e i))) m = some m' ∧
      Holds .jacobian A m' ∧ m' ("detJ", []) = some A.det ∧ Holds .inverseJacobian A⁻¹ m' := by
  obtain ⟨-, hnodup, hfresh, hfresh', hdisjoint⟩ := names_distinct hn
  have hname (i j : Fin n) : (Symbol.jacobian i j).name ∈ matrixNames .jacobian n :=
    mem_matrixNames.mpr ⟨i, i.isLt, j, j.isLt, rfl⟩
  let m₁ : Store K := Function.update m ("detJ", []) (some A.det)
  have hother {s : String} (hs : s ≠ "detJ") : m₁ (s, []) = m (s, []) :=
    Function.update_of_ne (fun heq => hs (congrArg Prod.fst heq)) _ _
  have hstart (rest : List (Statement K)) : declareAll? vertices (.blank ::
      .comment "Compute determinant of Jacobian" :: .constant "detJ" det :: .blank ::
      .comment "Compute inverse of Jacobian" :: rest) m = declareAll? vertices rest m₁ := by
    simp [declareAll?, Statement.declareIn?, hfree _ hfresh, (hinverts m hjacobian).1, m₁]
  have hjacobian₁ : Holds .jacobian A m₁ := fun i j => by
    rw [hother fun heq => hfresh (heq ▸ hname i j), hjacobian]
  have hdet₁ : m₁ ("detJ", []) = some A.det := Function.update_self _ _ _
  have hinverse (i j : Fin n) : (e i j).valueIn? m₁ = some (A⁻¹ i j) := by
    rw [inv_apply_eq]
    exact (hinverts m₁ hjacobian₁).2 hdet₁ hdet i j
  have hfree₁ : ∀ s ∈ matrixNames .inverseJacobian n, m₁ (s, []) = none := fun s hs => by
    rw [hother fun heq => hfresh' (heq ▸ hs), hfree s (hdisjoint s hs)]
  obtain ⟨m', hrun, hinverse', hframe⟩ := declareAll?_matrix vertices e hnodup hfree₁ hinverse
  refine ⟨m', (hstart _).trans hrun, fun i j => ?_, ?_, hinverse'⟩
  · rw [hframe _ fun hs => hdisjoint _ hs (hname i j), hjacobian₁]
  · rw [hframe _ hfresh', hdet₁]

end Run

/-- The code for the map of a cell inverts it. Every cell has the origin as its first vertex and a vertex at the unit
point of each axis, which is the one that is found. Where a cell of dimension one to three is the image of its reference
cell under an affine map, over any field, with an invertible matrix, there is code and it runs: the constants are the
matrix, its determinant and its inverse. -/
theorem cellMap_inverts (cell : Cell) (K : Type) [Field K] [DecidableEq K] :
    cell.corners[0]? = some (List.replicate cell.dim 0) ∧
    (∀ k < cell.dim, ∃ v, axisVertex cell k = .ok v ∧ cell.corners[v]? = some (Cell.unitPoint cell.dim k)) ∧
    (1 ≤ cell.dim → cell.dim ≤ 3 → ∀ (A : Matrix (Fin cell.dim) (Fin cell.dim) K) (b : Fin cell.dim → K), A.det ≠ 0 →
      ∃ body m, cellMap cell = .ok body ∧
        declareAll? (cell.corners.map (affineImage A b)) body (fun _ => none) = some m ∧
        Holds .jacobian A m ∧ m ("detJ", []) = some A.det ∧ Holds .inverseJacobian A⁻¹ m ∧ A⁻¹ * A = 1) := by
  refine ⟨cell.corners_head, fun k hk => axisVertex_eq_ok cell hk, fun hpos hdim A b hdet => ?_⟩
  have haxes : ∀ k < cell.dim, ∃ v, axisVertex cell k = .ok v ∧
      cell.corners[v]? = some (Cell.unitPoint cell.dim k) := fun k hk => axisVertex_eq_ok cell hk
  choose! v hv hcorner using haxes
  obtain ⟨det, e, hinversion, hinverts⟩ := inversion_eq hpos hdim A
  obtain ⟨m, hrun, hjacobian, hfree⟩ := declareAll?_jacobian hdim A b hcorner
  obtain ⟨m', hrun', hjacobian', hdet', hinverse'⟩ := declareAll?_inverse _ hdim hdet hinverts hjacobian hfree
  have hunit : IsUnit A.det := isUnit_iff_ne_zero.mpr hdet
  exact ⟨_, m', cellMap_eq hpos hv hinversion, declareAll?_append_of (declareAll?_append_of hrun hrun') rfl,
    hjacobian', hdet', hinverse', Matrix.nonsing_inv_mul A hunit⟩

/-- A prism, with a matrix that is not symmetric. -/
theorem cellMap_inverts_prism :
    let prism : Cell := .product (.simple .triangle) (.simple .interval)
    let A : Matrix (Fin 3) (Fin 3) ℚ := !![2, 1, 0; 0, 3, 1; 1, 0, 1]
    ∃ body m, cellMap prism = .ok body ∧
      declareAll? (prism.corners.map (affineImage A ![5, 0, -1])) body (fun _ => none) = some m ∧
      m ("J_01", []) = some 1 ∧ m ("J_10", []) = some 0 ∧ m ("detJ", []) = some 7 ∧
      Holds .inverseJacobian A⁻¹ m ∧ A⁻¹ * A = 1 := by
  intro prism A
  have hdet : A.det = 7 := by
    simp only [A, Matrix.det_fin_three, Matrix.of_apply, Matrix.cons_val]
    norm_num
  have hne : A.det ≠ 0 := by
    rw [hdet]
    norm_num
  obtain ⟨body, m, hbody, hrun, hjacobian, hvalue, hinverse, hone⟩ :=
    (cellMap_inverts prism ℚ).2.2 (by decide) (by decide) A ![5, 0, -1] hne
  have hentry : ∀ i j : Fin 3, m ((Symbol.jacobian i j).name, []) = some (A i j) := hjacobian
  have hseven : m ("detJ", []) = some 7 := hvalue.trans (congrArg some hdet)
  exact ⟨body, m, hbody, hrun, hentry 0 1, hentry 1 0, hseven, hinverse, hone⟩

end Geometry
end Variational
