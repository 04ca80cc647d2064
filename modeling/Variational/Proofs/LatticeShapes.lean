import Variational.Proofs.LatticeInterior

/-! The lattice points of an entity from its vertices alone. The number of vertices tells the shape, except that four
vertices belong to a parallelogram or to a tetrahedron; each shape has its own loops, whose bounds are differences of
natural numbers. On the entities of a cell no difference is negative and no read finds nothing. -/
namespace Variational.Lagrange

open Result

section Loops

/-- A difference that must not be negative. -/
def difference (m n : ℕ) : Result ℕ := inRange (if n ≤ m then some (m - n) else none)

theorem difference_of_le {m n : ℕ} (h : n ≤ m) : difference m n = .ok (m - n) := by
  rw [difference, if_pos h, inRange_some]

def triangleLoop (degree : ℕ) : Result (List (List ℕ)) := do
  let rows ← (between degree).mapM fun j => do
    let bound ← difference degree j
    return (between bound).map fun i => [i, j]
  return rows.flatten

def tetrahedronLoop (degree : ℕ) : Result (List (List ℕ)) := do
  let layers ← (between degree).mapM fun k => do
    let bound ← difference degree k
    let rows ← (between bound).mapM fun j => do
      let rest ← difference degree j
      let bound ← difference rest k
      return (between bound).map fun i => [i, j, k]
    return rows.flatten
  return layers.flatten

theorem simplexSteps_one (n : ℕ) : simplexSteps 1 n = (between n).map fun i => [i] :=
  List.map_eq_flatMap.symm

theorem boxSteps_one (n : ℕ) : boxSteps 1 n = (between n).map fun i => [i] := List.map_eq_flatMap.symm

theorem simplexSteps_two (n : ℕ) :
    simplexSteps 2 n = (between n).flatMap fun j => (between (n - j)).map fun i => [i, j] := by
  refine List.flatMap_congr fun j _ => ?_
  rw [simplexSteps_one, List.map_map]
  rfl

theorem simplexSteps_three (n : ℕ) : simplexSteps 3 n = (between n).flatMap fun k =>
    (between (n - k)).flatMap fun j => (between (n - k - j)).map fun i => [i, j, k] := by
  refine List.flatMap_congr fun k _ => ?_
  rw [simplexSteps_two, List.map_flatMap]
  refine List.flatMap_congr fun j _ => ?_
  rw [List.map_map]
  rfl

theorem triangleLoop_eq (degree : ℕ) : triangleLoop degree = .ok (simplexSteps 2 degree) := by
  have hrow (j : ℕ) (hj : j ∈ between degree) :
      (difference degree j >>= fun bound => pure ((between bound).map fun i => [i, j])) =
        .ok ((between (degree - j)).map fun i => [i, j]) := by
    rw [difference_of_le (mem_between.mp hj).2.le]
    rfl
  rw [triangleLoop, mapM_of_forall hrow, simplexSteps_two]
  rfl

theorem tetrahedronLoop_eq (degree : ℕ) : tetrahedronLoop degree = .ok (simplexSteps 3 degree) := by
  have hrow (k : ℕ) (hk : k ∈ between degree) (j : ℕ) (hj : j ∈ between (degree - k)) :
      (do let rest ← difference degree j
          let bound ← difference rest k
          return (between bound).map fun i => [i, j, k]) =
        (.ok ((between (degree - k - j)).map fun i => [i, j, k]) : Result (List (List ℕ))) := by
    rw [mem_between] at hk hj
    rw [difference_of_le (by omega), ok_bind, difference_of_le (by omega), Nat.sub_right_comm]
    rfl
  have hlayer (k : ℕ) (hk : k ∈ between degree) :
      (do let bound ← difference degree k
          let rows ← (between bound).mapM fun j => do
            let rest ← difference degree j
            let bound ← difference rest k
            return (between bound).map fun i => [i, j, k]
          return rows.flatten) =
        (.ok ((between (degree - k)).flatMap fun j => (between (degree - k - j)).map fun i => [i, j, k]) :
          Result (List (List ℕ))) := by
    rw [difference_of_le (mem_between.mp hk).2.le, ok_bind, mapM_of_forall (hrow k hk)]
    rfl
  rw [tetrahedronLoop, mapM_of_forall hlayer, simplexSteps_three]
  rfl

end Loops

section Shapes

/-- What is missing for four points to be a parallelogram, by coordinate. -/
def defect {R : Type} [Add R] [Sub R] (v₀ v₁ v₂ v₃ : List R) : List R :=
  List.zipWith (fun (x₃, x₀) (x₁, x₂) => x₃ + x₀ - x₁ - x₂) (List.zip v₃ v₀) (List.zip v₁ v₂)

variable {α : Type} [Scalar α]

def isParallelogram (v₀ v₁ v₂ v₃ : List α) : Bool :=
  (defect v₀ v₁ v₂ v₃).all fun x => Scalar.below (Scalar.abs x) (Scalar.tenth 12)

/-- The positions of the end points of the axes, and the indices of the interior points. -/
def shape (degree : ℕ) : List (List α) → Result (List ℕ × List (List ℕ))
  | [] => .error .outOfRange
  | [_] => return ([], [[]])
  | [_, _] => return ([1], (between degree).map fun i => [i])
  | [_, _, _] => return ([1, 2], ← triangleLoop degree)
  | [v₀, v₁, v₂, v₃] =>
    if v₀.length = 2 ∨ isParallelogram v₀ v₁ v₂ v₃ then return ([1, 2], boxSteps 2 degree)
    else return ([1, 2, 3], ← tetrahedronLoop degree)
  | _ => return ([1, 2, 4], boxSteps 3 degree)

/-- The lattice points of the shape that the vertices have. -/
def checkedLattice (degree : ℕ) (vertices : List (List α)) : Result (List (List α)) := do
  let origin ← inRange vertices[0]?
  let (ends, indices) ← shape degree vertices
  let axes ← ends.mapM fun v => return List.zipWith (· - ·) (← inRange vertices[v]?) origin
  return indices.map fun index =>
    (List.zip index axes).foldl
      (fun p (n, axis) => List.zipWith (fun x y => x + (n : α) / (degree : α) * y) p axis) origin

def checkedEntity (cell : ReferenceCell) (degree : ℕ) (entity : List ℕ) : Result (List (List α)) := do
  let vertices ← entity.mapM fun v => inRange (cell.vertices : List (List α))[v]?
  checkedLattice degree vertices

/-- The lattice points of all entities in order, each from its vertices alone. -/
def checkedPoints (cell : ReferenceCell) (degree : ℕ) : Result (List (List α)) := do
  let levels ← cell.topology.zipIdx.mapM fun level => do
    let parts ← level.1.mapM (checkedEntity cell degree)
    return parts.flatten
  return levels.flatten

omit [Scalar α] in
theorem getElem?_of_lt {vertices : List (List α)} {v : ℕ} (hv : v < vertices.length) :
    vertices[v]? = some (vertices.getD v []) := by
  rw [List.getD_eq_getElem _ _ hv, List.getElem?_eq_getElem hv]

theorem checkedLattice_of_shape {cell : ReferenceCell} {degree dim : ℕ} {vertices : List (List α)}
    (hshape : shape degree vertices = .ok (axisVertices cell dim, steps cell dim degree))
    (hends : ∀ v ∈ 0 :: axisVertices cell dim, v < vertices.length) :
    checkedLattice degree vertices = .ok (lattice cell degree dim vertices) := by
  rw [List.forall_mem_cons] at hends
  have horigin : vertices.getD 0 [] = vertices.headD [] := by cases vertices <;> rfl
  have haxis (v : ℕ) (hv : v ∈ axisVertices cell dim) :
      (do return List.zipWith (· - ·) (← inRange vertices[v]?) (vertices.headD [])) =
        (.ok (List.zipWith (· - ·) (vertices.getD v []) (vertices.headD [])) : Result (List α)) := by
    rw [getElem?_of_lt (hends.2 v hv), inRange_some]
    rfl
  rw [checkedLattice, hshape, getElem?_of_lt hends.1, horigin, inRange_some, ok_bind, ok_bind]
  dsimp only
  rw [mapM_of_forall haxis]
  rfl

theorem shape_simplex {cell : ReferenceCell} (hcell : cell.isSimplex = true) {dim : ℕ} (hdim : dim ≤ 3) (degree : ℕ)
    {vertices : List (List α)} (hlength : vertices.length = dim + 1)
    (hsolid : dim = 3 → (vertices.getD 0 []).length ≠ 2 ∧ isParallelogram (vertices.getD 0 []) (vertices.getD 1 [])
      (vertices.getD 2 []) (vertices.getD 3 []) = false) :
    shape degree vertices = .ok (axisVertices cell dim, steps cell dim degree) := by
  rw [steps, if_pos hcell]
  have haxes : axisVertices cell dim = (List.range dim).map (· + 1) := by simp [axisVertices, hcell]
  rw [haxes]
  interval_cases dim
  · obtain ⟨v₀, rfl⟩ := List.length_eq_one_iff.mp hlength
    rfl
  · obtain ⟨v₀, v₁, rfl⟩ := List.length_eq_two.mp hlength
    rw [simplexSteps_one]
    rfl
  · obtain ⟨v₀, v₁, v₂, rfl⟩ := List.length_eq_three.mp hlength
    rw [shape, triangleLoop_eq]
    rfl
  · obtain ⟨v₀, rest, rfl⟩ := List.exists_cons_of_length_eq_add_one hlength
    obtain ⟨v₁, v₂, v₃, rfl⟩ := List.length_eq_three.mp (Nat.succ_injective hlength)
    obtain ⟨hplane, hskew⟩ := hsolid rfl
    have htest : ¬(v₀.length = 2 ∨ isParallelogram v₀ v₁ v₂ v₃ = true) :=
      not_or.mpr ⟨hplane, Bool.not_eq_true _ ▸ hskew⟩
    rw [shape, if_neg htest, tetrahedronLoop_eq]
    rfl

theorem shape_box {cell : ReferenceCell} (hcell : cell.isSimplex = false) {dim : ℕ} (hdim : dim ≤ 3) (degree : ℕ)
    {vertices : List (List α)} (hlength : vertices.length = 2 ^ dim)
    (hsquare : dim = 2 → isParallelogram (vertices.getD 0 []) (vertices.getD 1 []) (vertices.getD 2 [])
      (vertices.getD 3 []) = true) :
    shape degree vertices = .ok (axisVertices cell dim, steps cell dim degree) := by
  rw [steps, if_neg (by simp [hcell])]
  have haxes : axisVertices cell dim = (List.range dim).map (Nat.pow 2) := by simp [axisVertices, hcell]
  rw [haxes]
  interval_cases dim
  · obtain ⟨v₀, rfl⟩ := List.length_eq_one_iff.mp hlength
    rfl
  · obtain ⟨v₀, v₁, rfl⟩ := List.length_eq_two.mp hlength
    rw [boxSteps_one]
    rfl
  · obtain ⟨v₀, rest, rfl⟩ := List.exists_cons_of_length_eq_add_one hlength
    obtain ⟨v₁, v₂, v₃, rfl⟩ := List.length_eq_three.mp (Nat.succ_injective hlength)
    rw [shape, if_pos (.inr (hsquare rfl))]
    rfl
  · obtain ⟨v₀, v₁, v₂, tail, rfl⟩ := exists_triple_of_length (hlength.ge.trans' (by decide))
    have htail : tail.length = 5 := Nat.add_right_cancel (m := 3) hlength
    obtain ⟨v₃, v₄, rest, rfl⟩ := exists_pair_of_length (htail.ge.trans' (by decide))
    rfl

end Shapes

section Classification

theorem defect_map {R S : Type} [Ring R] [Ring S] (f : R →+* S) (v₀ v₁ v₂ v₃ : List R) :
    defect (v₀.map f) (v₁.map f) (v₂.map f) (v₃.map f) = (defect v₀ v₁ v₂ v₃).map f := by
  simp only [defect, List.zip_map, List.zipWith_map, List.map_zipWith, Prod.map_fst, Prod.map_snd, map_sub, map_add]

/-- A whole number that the tolerance does not tell from zero is zero. -/
theorem below_tolerance_iff (x : ℤ) : Scalar.below (Scalar.abs (x : ℝ)) (Scalar.tenth 12) = true ↔ x = 0 := by
  have htenth : (Scalar.tenth 12 : ℝ) = 1 / ((Nat.pow 10 12 : ℕ) : ℝ) := congrArg (· / _) Scalar.numeral_one
  have hbelow : Scalar.below (Scalar.abs (x : ℝ)) (Scalar.tenth 12) = decide (|(x : ℝ)| < Scalar.tenth 12) := rfl
  rw [hbelow, decide_eq_true_iff, htenth]
  constructor
  · intro hlt
    have hone : |(x : ℝ)| < 1 := hlt.trans (by norm_num)
    exact Int.abs_lt_one_iff.mp (by exact_mod_cast hone)
  · rintro rfl
    norm_num

theorem isParallelogram_cast (v₀ v₁ v₂ v₃ : List ℤ) :
    isParallelogram (v₀.map (Int.cast : ℤ → ℝ)) (v₁.map Int.cast) (v₂.map Int.cast) (v₃.map Int.cast) = true ↔
      ∀ x ∈ defect v₀ v₁ v₂ v₃, x = 0 := by
  have hcast : defect (v₀.map (Int.cast : ℤ → ℝ)) (v₁.map Int.cast) (v₂.map Int.cast) (v₃.map Int.cast) = _ :=
    defect_map (Int.castRingHom ℝ) v₀ v₁ v₂ v₃
  have hdefect : (isParallelogram (v₀.map (Int.cast : ℤ → ℝ)) (v₁.map Int.cast) (v₂.map Int.cast)
      (v₃.map Int.cast)) = (((defect v₀ v₁ v₂ v₃).map (Int.castRingHom ℝ)).all
        fun x => Scalar.below (Scalar.abs x) (Scalar.tenth 12)) := by
    rw [← hcast]
    rfl
  rw [hdefect, List.all_map, List.all_eq_true]
  exact forall₂_congr fun x _ => below_tolerance_iff x

theorem level_le (cell : ReferenceCell) : ∀ level ∈ cell.topology.zipIdx, level.2 ≤ 3 := by
  cases cell <;> decide

theorem corners_parallelogram (cell : ReferenceCell) (hcell : cell.isSimplex = false) :
    ∀ level ∈ cell.topology.zipIdx, ∀ entity ∈ level.1, level.2 = 2 →
      ∀ x ∈ defect ((corners cell entity).getD 0 []) ((corners cell entity).getD 1 []) ((corners cell entity).getD 2 [])
        ((corners cell entity).getD 3 []), x = 0 := by
  revert hcell
  cases cell <;> decide

theorem corners_tetrahedron (cell : ReferenceCell) (hcell : cell.isSimplex = true) :
    ∀ level ∈ cell.topology.zipIdx, ∀ entity ∈ level.1, level.2 = 3 →
      ((corners cell entity).getD 0 []).length ≠ 2 ∧
        ¬∀ x ∈ defect ((corners cell entity).getD 0 []) ((corners cell entity).getD 1 [])
          ((corners cell entity).getD 2 []) ((corners cell entity).getD 3 []), x = 0 := by
  revert hcell
  cases cell <;> decide

variable {cell : ReferenceCell} {level : List (List ℕ) × ℕ} (hlevel : level ∈ cell.topology.zipIdx) {entity : List ℕ}
  (hentity : entity ∈ level.1)
include hlevel hentity

/-- The vertices of an entity tell its shape. -/
theorem shape_vertices (degree : ℕ) :
    shape degree (vertices cell entity) = .ok (axisVertices cell level.2, steps cell level.2 degree) := by
  have hlength : (vertices cell entity).length = entity.length := List.length_map _
  have hsize := length_entity cell level hlevel entity hentity
  have htest := isParallelogram_cast ((corners cell entity).getD 0 []) ((corners cell entity).getD 1 [])
    ((corners cell entity).getD 2 []) ((corners cell entity).getD 3 [])
  simp only [← getD_vertices] at htest
  cases hcell : cell.isSimplex with
  | true =>
    rw [hcell, if_pos rfl, ← hlength] at hsize
    refine shape_simplex hcell (level_le cell level hlevel) degree hsize fun hdim => ?_
    obtain ⟨hplane, hskew⟩ := corners_tetrahedron cell hcell level hlevel entity hentity hdim
    refine ⟨?_, Bool.eq_false_iff.mpr fun h => hskew (htest.mp h)⟩
    rwa [getD_vertices, List.length_map]
  | false =>
    rw [hcell, if_neg nofun, ← hlength] at hsize
    refine shape_box hcell (level_le cell level hlevel) degree hsize fun hdim => ?_
    exact htest.mpr (corners_parallelogram cell hcell level hlevel entity hentity hdim)

theorem checkedEntity_eq (degree : ℕ) :
    checkedEntity cell degree entity = .ok (lattice cell degree level.2 (vertices cell entity)) := by
  obtain ⟨hreads, hends⟩ := cell.entity_vertices level hlevel entity hentity
  have hvertex (v : ℕ) (hv : v ∈ entity) :
      inRange (cell.vertices : List (List ℝ))[v]? = .ok ((cell.vertices : List (List ℝ)).getD v []) := by
    rw [getElem?_of_lt, inRange_some]
    rw [ReferenceCell.vertices, List.length_map]
    exact hreads v hv
  rw [checkedEntity, mapM_of_forall hvertex, ok_bind]
  refine checkedLattice_of_shape (shape_vertices hlevel hentity degree) fun v hv => ?_
  rw [List.length_map]
  exact hends v hv

omit hlevel hentity

/-- No difference is negative, and no read finds nothing. -/
theorem checkedPoints_eq (cell : ReferenceCell) (degree : ℕ) :
    checkedPoints cell degree = .ok (points cell degree : List (List ℝ)) := by
  have hlevels (level : List (List ℕ) × ℕ) (hlevel : level ∈ cell.topology.zipIdx) :
      (do let parts ← level.1.mapM (checkedEntity cell degree)
          return parts.flatten) =
        (.ok (level.1.flatMap fun entity => lattice cell degree level.2 (vertices cell entity)) :
          Result (List (List ℝ))) := by
    rw [mapM_of_forall fun entity hentity => checkedEntity_eq hlevel hentity degree]
    rfl
  rw [checkedPoints, mapM_of_forall hlevels]
  rfl

end Classification
end Variational.Lagrange
