import Variational.Proofs.FacetIncidence
import Variational.Proofs.CodeMeaning

/-! The code that scales a boundary integral. The map onto a region is affine, and its matrix has the edges at the
first vertex as columns. The code computes the Gram determinant of the edges of the physical cell, which for an
affine image is the one of the composed map. -/
namespace Variational

open Code

namespace Code

/-- The value of an expression that may be a square root. -/
noncomputable def Expr.evalRoot (m : Memory) : Expr ℝ → Option ℝ
  | call function e => if function = "std::sqrt" then
      (e.eval m).bind fun x => if 0 ≤ x then some (Real.sqrt x) else none
    else none
  | e => e.eval m

/-- Assignments outside of loops may take a square root. -/
noncomputable def Statement.runRoot : Statement ℝ → Memory → Option Memory
  | loop [] target false e, m => do
    let (s, is) ← target.place? m
    let x ← e.evalRoot m
    return m.write s is x
  | s, m => s.run m

noncomputable def runRoots (body : List (Statement ℝ)) (m : Memory) : Option Memory :=
  body.foldlM (fun m s => s.runRoot m) m

theorem runRoots_cons_of {s : Statement ℝ} {m m₁ : Memory} (h : s.runRoot m = some m₁)
    (body : List (Statement ℝ)) : runRoots (s :: body) m = runRoots body m₁ := by
  rw [runRoots, List.foldlM_cons, h]
  rfl

theorem Statement.runRoot_assign {s : String} {e : Expr ℝ} {m : Memory} {x : ℝ} (hs : s ≠ "*values")
    (he : e.evalRoot m = some x) : (assign (.name s) e).runRoot m = some (m.write s [] x) := by
  simp [assign, runRoot, Expr.place?, hs, he]

theorem Expr.evalRoot_sqrt {e : Expr ℝ} {m : Memory} {x : ℝ} (he : e.eval m = some x) (hx : 0 ≤ x) :
    (call "std::sqrt" e).evalRoot m = some (Real.sqrt x) := by
  simp [evalRoot, he, hx]

/-- A sum with blanks around the signs. -/
theorem Expr.eval_sum {m : Memory} {t : ℕ → Expr ℝ} {x : ℕ → ℝ} {n : ℕ}
    (ht : ∀ i ≤ n, (t i).eval m = some (x i) ∧ 1 ≤ (t i).tightness) :
    (Expr.sum ((List.range (n + 1)).map t)).eval m = some (∑ i ∈ Finset.range (n + 1), x i) := by
  have hfold : Expr.sum ((List.range (n + 1)).map t) = ((List.range n).map (t ∘ Nat.succ)).foldl plus (t 0) := by
    rw [List.range_succ_eq_map, List.map_cons, List.map_map]
    rfl
  rw [hfold]
  clear hfold
  induction n with
  | zero => simpa using (ht 0 le_rfl).1
  | succ n ih =>
    obtain ⟨hvalue, htight⟩ := ht (n + 1) le_rfl
    rw [List.range_succ, List.map_append, List.foldl_append, Finset.sum_range_succ]
    exact eval_plus (ih fun i hi => ht i (Nat.le_succ_of_le hi)) hvalue htight

end Code

namespace Geometry

/-- Coordinates of points, as the code reads them. -/
def HoldsPoints (points : List (List ℝ)) (m : Memory) : Prop :=
  ∀ v i, m.number "x" [v, i] = (points[v]?).bind (·[i]?)

/-- The components of a vector under a name. -/
def HoldsVector {n : ℕ} (s : String) (x : Fin n → ℝ) (m : Memory) : Prop :=
  ∀ i : Fin n, m.number s [(i : ℕ)] = some (x i)

/-- The name of an edge. -/
def edgeName (k : ℕ) : String := s!"e{k}"

theorem edgeName_ne {s : String} (hs : s.toList.head? ≠ some 'e') (k : ℕ) : edgeName k ≠ s := by
  rintro rfl
  exact hs (by simp [edgeName, toString])

section Edges

variable {n : ℕ} {m : Memory}

theorem eval_edge {points : List (List ℝ)} (hm : HoldsPoints points m) {first second : ℕ} {x y : Fin n → ℝ}
    (hfirst : points[first]? = some (List.ofFn x)) (hsecond : points[second]? = some (List.ofFn y)) (i : Fin n) :
    (edge i first second : Expr ℝ).eval m = some (y i - x i) := by
  have hentry {v : ℕ} {z : Fin n → ℝ} (hv : points[v]? = some (List.ofFn z)) :
      (Expr.entry2 "x" v i : Expr ℝ).eval m = some (z i) := by
    have hplace : (Expr.entry2 "x" v i : Expr ℝ).eval m = m.number "x" [v, i] := by
      simp [Expr.entry2, Expr.eval, Expr.place?, Expr.index?]
    rw [hplace, hm, hv]
    simp
  exact Expr.eval_minus (hentry hsecond) (hentry hfirst) (Nat.le_add_left 1 2)

theorem run_edge {points : List (List ℝ)} (hm : HoldsPoints points m) {first second : ℕ} {x y : Fin n → ℝ}
    (hfirst : points[first]? = some (List.ofFn x)) (hsecond : points[second]? = some (List.ofFn y)) {k : ℕ}
    (hname : "x" ≠ edgeName k) :
    ∃ m', (Statement.array (edgeName k) ((List.range n).map fun i => .expr (edge i first second))).runRoot m =
      some m' ∧ Memory.Frame {edgeName k} m m' ∧ HoldsVector (edgeName k) (y - x) m' := by
  have hvalues : ∀ j v, ((List.range n).map fun i => Initial.expr (edge i first second))[j]? = some v →
      ∀ m', Memory.Frame {edgeName k} m m' →
      (∀ l < j, m'.number (edgeName k) [l] = some (if h : l < n then y ⟨l, h⟩ - x ⟨l, h⟩ else 0)) →
      v.eval m' = some (if h : j < n then y ⟨j, h⟩ - x ⟨j, h⟩ else 0) := by
    intro j v hv m' hframe _
    obtain ⟨hj, rfl⟩ := List.getElem?_eq_some_iff.mp hv
    simp only [List.length_map, List.length_range] at hj
    have hpoints : HoldsPoints points m' := fun v i => by
      rw [hframe.number "x" (by simpa using hname), hm]
    rw [dif_pos hj, List.getElem_map, List.getElem_range, Initial.eval]
    exact eval_edge hpoints hfirst hsecond ⟨j, hj⟩
  obtain ⟨m', hrun, hframe, hentries⟩ := Statement.run_array hvalues
  refine ⟨m', hrun, hframe, fun i => ?_⟩
  have hi := hentries i (by simp)
  rwa [dif_pos i.isLt] at hi

/-- The scalar product of two edges. -/
theorem eval_edgeProduct {a b : ℕ} {x y : Fin n → ℝ} (hpos : 0 < n) (ha : HoldsVector (edgeName a) x m)
    (hb : HoldsVector (edgeName b) y m) : (edgeProduct n a b : Expr ℝ).eval m = some (x ⬝ᵥ y) := by
  obtain ⟨d, rfl⟩ := Nat.exists_eq_succ_of_ne_zero hpos.ne'
  have hcomponent {k : ℕ} {z : Fin (d + 1) → ℝ} (hz : HoldsVector (edgeName k) z m) (i : Fin (d + 1)) :
      (Expr.entry (.name (edgeName k)) (.natural i) : Expr ℝ).eval m = some (z i) := by
    rw [Expr.eval_entry (edgeName_ne (by decide) k), hz i]
  have hterm : ∀ i ≤ d, (Expr.times (.entry (.name (edgeName a)) (.natural i)) (.entry (.name (edgeName b))
      (.natural i)) : Expr ℝ).eval m = some (if h : i < d + 1 then x ⟨i, h⟩ * y ⟨i, h⟩ else 0) ∧
      1 ≤ (Expr.times (.entry (.name (edgeName a)) (.natural i)) (.entry (.name (edgeName b)) (.natural i)) :
        Expr ℝ).tightness := by
    intro i hi
    have hlt := Nat.lt_succ_of_le hi
    rw [dif_pos hlt]
    have hx := hcomponent ha ⟨i, hlt⟩
    have hy := hcomponent hb ⟨i, hlt⟩
    exact ⟨Expr.eval_times hx hy false (Nat.le_add_left 1 2) rfl, le_rfl⟩
  have hsum := Expr.eval_sum hterm
  rw [← Fin.sum_univ_eq_sum_range (fun i => if h : i < d + 1 then x ⟨i, h⟩ * y ⟨i, h⟩ else 0)] at hsum
  exact hsum.trans (congrArg some (Finset.sum_congr rfl fun i _ => dif_pos i.isLt))

theorem gram_det_nonneg {k : ℕ} (L : Matrix (Fin n) (Fin k) ℝ) : 0 ≤ (L.transpose * L).det := by
  have hgram := (Matrix.posSemidef_conjTranspose_mul_self L).det_nonneg
  rwa [Matrix.conjTranspose_eq_transpose_of_trivial] at hgram

end Edges

/-- How many times as large as the reference facet its image is, under an affine map with the given matrix. -/
noncomputable def scaling {n k : ℕ} (L : Matrix (Fin n) (Fin k) ℝ) : ℝ := Real.sqrt (L.transpose * L).det

section Cases

variable {cell : Cell} {m : Memory} {points : List (List ℝ)}

theorem HoldsPoints.mono {names : Set String} {m' : Memory} (hm : HoldsPoints points m)
    (hframe : Memory.Frame names m m') (hnames : "x" ∉ names) : HoldsPoints points m' := fun v i => by
  rw [hframe.number "x" hnames, hm]

theorem HoldsVector.mono {n : ℕ} {s : String} {x : Fin n → ℝ} {names : Set String} {m' : Memory}
    (hx : HoldsVector s x m) (hframe : Memory.Frame names m m') (hnames : s ∉ names) : HoldsVector s x m' := fun i => by
  rw [hframe.number s hnames, hx]

theorem runRoot_constant {e : Expr ℝ} {x : ℝ} (he : e.eval m = some x) (s : String) :
    (Statement.constant s e).runRoot m = some (m.write s [] x) := by
  rw [Statement.runRoot, Statement.run, he, Option.map_some]
  rintro _ _ ⟨⟩

/-- An entry of the Gram matrix is declared. -/
theorem run_gram {k : ℕ} {L : Matrix (Fin cell.dim) (Fin k) ℝ} (hpos : 0 < cell.dim)
    (hm : ∀ i : Fin k, HoldsVector (edgeName i) (L.col i) m)
    (i j : Fin k) {s : String} (hs : s.toList.head? ≠ some 'e') :
    (Statement.constant s (edgeProduct cell.dim i j)).runRoot m = some (m.write s [] ((L.transpose * L) i j)) ∧
      ∀ l : Fin k, HoldsVector (edgeName l) (L.col l) (m.write s [] ((L.transpose * L) i j)) := by
  refine ⟨runRoot_constant (eval_edgeProduct hpos (hm i) (hm j)) s, fun l => ?_⟩
  exact (hm l).mono (Memory.frame_write m s [] _) (edgeName_ne hs l)

variable (hm : HoldsPoints points m) {first : ℕ} {x : Fin cell.dim → ℝ}
  (hfirst : points[first]? = some (List.ofFn x))

theorem run_facetCase_point (L : Matrix (Fin cell.dim) (Fin 0) ℝ) : ∃ body m', facetCase cell [first] = .ok body ∧
    runRoots body m = some m' ∧ m'.number "det" [] = some (scaling L) := by
  have hone : scaling L = 1 := by
    rw [scaling, Matrix.det_isEmpty, Real.sqrt_one]
  have hvalue : (Expr.one : Expr ℝ).evalRoot m = some 1 := Expr.eval_one (m := m)
  have hrun := Statement.runRoot_assign (s := "det") (by decide) hvalue
  refine ⟨_, m.write "det" [] 1, rfl, ?_, ?_⟩
  · exact runRoots_cons_of hrun []
  · rw [hone, Memory.write_number]

include hm hfirst

theorem run_column {second : ℕ} {c : Fin cell.dim → ℝ} (hsecond : points[second]? = some (List.ofFn (x + c))) (k : ℕ) :
    ∃ m', (Statement.array (edgeName k) ((List.range cell.dim).map fun i => .expr (edge i first second))).runRoot m =
      some m' ∧ Memory.Frame {edgeName k} m m' ∧ HoldsVector (edgeName k) c m' := by
  have hrun := run_edge hm hfirst hsecond (edgeName_ne (by decide) k).symm
  rwa [add_sub_cancel_left] at hrun

theorem run_facetCase_edge (hpos : 0 < cell.dim) {second : ℕ} {L : Matrix (Fin cell.dim) (Fin 1) ℝ}
    (hsecond : points[second]? = some (List.ofFn (x + L.col 0))) : ∃ body m',
    facetCase cell [first, second] = .ok body ∧ runRoots body m = some m' ∧
      m'.number "det" [] = some (scaling L) := by
  obtain ⟨m₁, hrun₁, -, hvector⟩ := run_column hm hfirst hsecond 0
  have hproduct := eval_edgeProduct hpos hvector hvector
  have hdet : (L.transpose * L).det = L.col 0 ⬝ᵥ L.col 0 := Matrix.det_fin_one _
  have hroot := Expr.evalRoot_sqrt hproduct (hdet ▸ gram_det_nonneg L)
  refine ⟨_, m₁.write "det" [] (scaling L), rfl, ?_, Memory.write_number ..⟩
  refine (runRoots_cons_of hrun₁ _).trans (runRoots_cons_of (Statement.runRoot_assign (by decide) ?_) [])
  rw [scaling, hdet]
  exact hroot

theorem run_facetCase_face (hpos : 0 < cell.dim) {second third : ℕ} {L : Matrix (Fin cell.dim) (Fin 2) ℝ}
    (hsecond : points[second]? = some (List.ofFn (x + L.col 0)))
    (hthird : points[third]? = some (List.ofFn (x + L.col 1))) : ∃ body m',
    facetCase cell [first, second, third] = .ok body ∧ runRoots body m = some m' ∧
      m'.number "det" [] = some (scaling L) := by
  obtain ⟨m₁, hrun₁, hframe₁, hvector₁⟩ := run_column hm hfirst hsecond 0
  have hm₁ := hm.mono hframe₁ (edgeName_ne (s := "x") (by decide) 0).symm
  obtain ⟨m₂, hrun₂, hframe₂, hvector₂⟩ := run_column hm₁ hfirst hthird 1
  have hedges : ∀ i : Fin 2, HoldsVector (edgeName i) (L.col i) m₂ :=
    Fin.forall_fin_two.mpr ⟨hvector₁.mono hframe₂ (by decide), hvector₂⟩
  obtain ⟨hrun₃, hedges₃⟩ := run_gram hpos hedges 0 0 (s := "g00") (by decide)
  obtain ⟨hrun₄, hedges₄⟩ := run_gram hpos hedges₃ 0 1 (s := "g01") (by decide)
  obtain ⟨hrun₅, -⟩ := run_gram hpos hedges₄ 1 1 (s := "g11") (by decide)
  set m₅ := (((m₂.write "g00" [] ((L.transpose * L) 0 0)).write "g01" [] ((L.transpose * L) 0 1)).write "g11" []
    ((L.transpose * L) 1 1))
  have hg₀₀ : (Expr.name "g00" : Expr ℝ).eval m₅ = some ((L.transpose * L) 0 0) := by
    rw [Expr.eval_name (by decide), Memory.write_number_of_ne _ (by decide), Memory.write_number_of_ne _ (by decide),
      Memory.write_number]
  have hg₀₁ : (Expr.name "g01" : Expr ℝ).eval m₅ = some ((L.transpose * L) 0 1) := by
    rw [Expr.eval_name (by decide), Memory.write_number_of_ne _ (by decide), Memory.write_number]
  have hg₁₁ : (Expr.name "g11" : Expr ℝ).eval m₅ = some ((L.transpose * L) 1 1) := by
    rw [Expr.eval_name (by decide), Memory.write_number]
  have hsymm : (L.transpose * L) 1 0 = (L.transpose * L) 0 1 := by
    rw [Matrix.mul_apply', Matrix.mul_apply', dotProduct_comm]
    rfl
  have hgram := Expr.eval_minus (Expr.eval_times hg₀₀ hg₁₁ false (Nat.le_add_left 1 2) rfl)
    (Expr.eval_times hg₀₁ hg₀₁ false (Nat.le_add_left 1 2) rfl) le_rfl
  have hdet : (L.transpose * L).det = (L.transpose * L) 0 0 * (L.transpose * L) 1 1 -
      (L.transpose * L) 0 1 * (L.transpose * L) 0 1 := by
    rw [Matrix.det_fin_two, hsymm]
  have hroot := Expr.evalRoot_sqrt hgram (hdet ▸ gram_det_nonneg L)
  refine ⟨_, m₅.write "det" [] (scaling L), rfl, ?_, Memory.write_number ..⟩
  refine (runRoots_cons_of hrun₁ _).trans ((runRoots_cons_of hrun₂ _).trans ((runRoots_cons_of hrun₃ _).trans
    ((runRoots_cons_of hrun₄ _).trans ((runRoots_cons_of hrun₅ _).trans ?_))))
  refine runRoots_cons_of (Statement.runRoot_assign (by decide) ?_) []
  rw [scaling, hdet]
  exact hroot

/-- The code for up to two edges computes the scaling of the map whose columns they are. -/
theorem run_facetCase (hpos : 0 < cell.dim) {k : ℕ} (hk : k ≤ 2) {others : List ℕ} (hcount : others.length = k)
    {L : Matrix (Fin cell.dim) (Fin k) ℝ}
    (hothers : ∀ i : Fin k, points[others.getD i 0]? = some (List.ofFn (x + L.col i))) : ∃ body m',
    facetCase cell (first :: others) = .ok body ∧ runRoots body m = some m' ∧
      m'.number "det" [] = some (scaling L) := by
  interval_cases k
  · obtain rfl := List.length_eq_zero_iff.mp hcount
    exact run_facetCase_point L
  · obtain ⟨v, rfl⟩ := List.length_eq_one_iff.mp hcount
    exact run_facetCase_edge hm hfirst hpos (hothers 0)
  · obtain ⟨v, w, rfl⟩ := List.length_eq_two.mp hcount
    exact run_facetCase_face hm hfirst hpos (hothers 0) (hothers 1)

end Cases

theorem facetCase_eq_ok (cell : Cell) (first : ℕ) {others : List ℕ} (hcount : others.length ≤ 2) :
    ∃ body : List (Statement ℝ), facetCase cell (first :: others) = .ok body := by
  match others, hcount with
  | [], _ => exact ⟨_, rfl⟩
  | [_], _ => exact ⟨_, rfl⟩
  | [_, _], _ => exact ⟨_, rfl⟩

/-- Some code is the case for a facet number. -/
def IsCase (blocks : List (Block ℝ)) (facet : ℕ) (body : List (Statement ℝ)) : Prop :=
  ∃ start cases rest, blocks = [start, .switch "facet" true cases, rest] ∧ cases[facet]? = some body

/-- The code for a region is the case with its number. -/
theorem isCase_of_facetMap {cell : Cell} {blocks : List (Block ℝ)} (h : facetMap cell = .ok blocks) {r : ℕ}
    {kind : FacetKind} {f : ℕ} (hr : cell.boundary[r]? = some (kind, f)) {vs : List ℕ}
    (hvs : FacetMap.vertices ℝ cell kind f = .ok vs)
    {body : List (Statement ℝ)} (hbody : facetCase cell vs = .ok body) :
    IsCase blocks r body := by
  obtain ⟨cases, hcases, heq⟩ := Result.bind_eq_ok.mp h
  obtain ⟨body', hbody', hcase⟩ := Result.getElem?_of_forall₂ (Result.mapM_eq_ok.mp hcases) hr
  simp only [hvs, Result.ok_bind, hbody] at hcase
  obtain rfl := Except.ok.inj hcase
  exact ⟨_, cases, _, (Except.ok.inj heq).symm, hbody'⟩

end Geometry

namespace FacetMap

section Maps

variable (cell : Cell) (vs : List ℕ)

/-- The first vertex of a region. -/
def origin : Fin cell.dim → ℝ := fun j => coordinate (vs.map cell.corner) 0 j

/-- The edges from the first vertex of a region to the others, as columns. -/
def edges : Matrix (Fin cell.dim) (Fin (cell.dim - 1)) ℝ :=
  .of fun j k => coordinate (vs.map cell.corner) (k + 1) j - coordinate (vs.map cell.corner) 0 j

theorem spanned_ofFn (p : Fin (cell.dim - 1) → ℝ) : spanned cell.dim (vs.map cell.corner) (List.ofFn p) =
    List.ofFn (origin cell vs + (edges cell vs).mulVec p) := by
  refine List.ext_getElem (by simp [spanned]) fun j hj hj' => ?_
  simp only [spanned, List.getElem_map, List.getElem_range, List.length_ofFn, List.getElem_ofFn, Pi.add_apply,
    Finset.sum_range]
  refine congrArg _ (Finset.sum_congr rfl fun k _ => ?_)
  rw [List.getD_eq_getElem _ _ (by simp), List.getElem_ofFn, mul_comm]
  rfl

variable {cell vs}

theorem getElem?_affineImage (A : Matrix (Fin cell.dim) (Fin cell.dim) ℝ) (b : Fin cell.dim → ℝ)
    (hcorners : ∀ v ∈ vs, v < cell.corners.length) {k : ℕ} (hk : k < vs.length) :
    (cell.corners.map (Geometry.affineImage A b))[vs.getD k 0]? =
      some (List.ofFn (A.mulVec (fun j : Fin cell.dim => coordinate (vs.map cell.corner) k j) + b)) := by
  have hlt := hcorners _ (List.getElem_mem hk)
  have hcorner : (vs.map cell.corner).getD k [] = cell.corners[vs[k]] := by
    rw [List.getD_eq_getElem _ _ (by simpa using hk), List.getElem_map, Cell.corner, List.getD_eq_getElem _ _ hlt]
  rw [List.getD_eq_getElem _ _ hk, List.getElem?_map, List.getElem?_eq_getElem hlt, Option.map_some]
  simp only [coordinate, hcorner]
  rfl

/-- For the affine image of a cell, the code for a region computes the scaling of the map onto it. -/
theorem run_region (hlength : vs.length = cell.dim) (hcorners : ∀ v ∈ vs, v < cell.corners.length)
    (hpos : 0 < cell.dim) (hdim : cell.dim ≤ 3) (A : Matrix (Fin cell.dim) (Fin cell.dim) ℝ) (b : Fin cell.dim → ℝ)
    {m : Memory} (hm : Geometry.HoldsPoints (cell.corners.map (Geometry.affineImage A b)) m) : ∃ body m',
    Geometry.facetCase cell vs = .ok body ∧ runRoots body m = some m' ∧
      m'.number "det" [] = some (Geometry.scaling (A * edges cell vs)) := by
  have hpoint {k : ℕ} (hk : k < vs.length) := getElem?_affineImage A b hcorners hk
  obtain ⟨first, others, rfl⟩ := List.exists_cons_of_length_pos (hlength ▸ hpos)
  have hcount : others.length = cell.dim - 1 := by
    rw [← hlength, List.length_cons, Nat.add_sub_cancel]
  refine Geometry.run_facetCase hm (hpoint (Nat.succ_pos _)) hpos (by omega) hcount fun i => ?_
  have hedge : A.mulVec (fun j : Fin cell.dim => coordinate ((first :: others).map cell.corner) (i + 1) j) + b =
      A.mulVec (fun j : Fin cell.dim => coordinate ((first :: others).map cell.corner) 0 j) + b +
        (A * edges cell (first :: others)).col i := by
    have hcolumn : (A * edges cell (first :: others)).col i = A.mulVec ((edges cell (first :: others)).col i) := rfl
    rw [hcolumn, add_right_comm, ← Matrix.mulVec_add]
    congr 2
    funext j
    simp [edges]
  rw [← hedge]
  exact hpoint (Nat.succ_lt_succ (hcount.symm ▸ i.isLt))

end Maps

section Regions

variable {cell : Cell} {kind : FacetKind} {f : ℕ} {vs : List ℕ}

/-- The vertices that are found for a region of a boundary integral are the images of the origin and the unit points. -/
theorem spans_of_vertices (hregion : (kind, f) ∈ cell.boundary) (hvs : vertices ℝ cell kind f = .ok vs) :
    cell.Spans kind f (vs.map cell.corner) := by
  obtain ⟨himages, hcorners⟩ := corners_of_vertices hvs
  exact ⟨hregion, himages, List.forall_mem_map.mpr fun v hv => Cell.corner_mem (hcorners v hv)⟩

/-- The vertices of a region of a boundary integral describe a facet and the map onto it. There are as many vertices
as the cell has dimensions. They are on a common facet, unless the region is the first one and the first facet of a
simplex does not fit, and never on one with the vertices of another region. Points of the reference facet are mapped
affinely, by the matrix whose columns are the edges from the first vertex. For the affine image of a cell of
dimension up to three, the code that is written for the region computes the scaling of the map composed with that
one. -/
theorem region_describes_facet (hregion : (kind, f) ∈ cell.boundary) (hvs : vertices ℝ cell kind f = .ok vs) :
    (vs.length = cell.dim ∧ ∀ v ∈ vs, v < cell.corners.length) ∧
    (cell.Cofacial (vs.map cell.corner) ↔ (f = 0 → cell.FirstFits kind)) ∧
    (∀ kind' g vs', (kind', g) ∈ cell.boundary → (kind', g) ≠ (kind, f) → vertices ℝ cell kind' g = .ok vs' →
      ¬ cell.Cofacial (vs.map cell.corner ++ vs'.map cell.corner)) ∧
    (∀ p : Fin (cell.dim - 1) → ℝ,
      apply [List.ofFn p] f kind = .ok [List.ofFn (origin cell vs + (edges cell vs).mulVec p)]) ∧
    (cell.dim ≤ 3 → ∃ body, Geometry.facetCase cell vs = .ok body ∧
      (∀ r blocks, cell.boundary[r]? = some (kind, f) → Geometry.facetMap cell = .ok blocks →
        Geometry.IsCase blocks r body) ∧
      ∀ (A : Matrix (Fin cell.dim) (Fin cell.dim) ℝ) (b : Fin cell.dim → ℝ) (m : Memory),
        Geometry.HoldsPoints (cell.corners.map (Geometry.affineImage A b)) m →
        ∃ m', runRoots body m = some m' ∧ m'.number "det" [] = some (Geometry.scaling (A * edges cell vs))) := by
  have hspans := spans_of_vertices hregion hvs
  have hpos := Cell.dim_pos_of_boundary hregion
  obtain ⟨himages, hcorners⟩ := corners_of_vertices hvs
  have hlength : vs.length = cell.dim := by
    have hcount := (length_images himages).1
    rw [List.length_map] at hcount
    omega
  refine ⟨⟨hlength, hcorners⟩, hspans.cofacial_iff, ?_, ?_, ?_⟩
  · intro kind' g vs' hregion' hne hvs'
    exact hspans.not_cofacial (spans_of_vertices hregion' hvs') hne
  · intro p
    have hpoint : ∀ q ∈ [List.ofFn p], q.length = cell.dim - 1 := by simp
    have happly := apply_eq (List.cons_ne_nil _ _) hpoint himages fun _ => rfl
    rw [happly, List.map_singleton, ← spanned_ofFn, Nat.sub_add_cancel hpos]
  · intro hdim
    obtain ⟨first, others, hcons⟩ := List.exists_cons_of_length_pos (hlength ▸ hpos)
    have hcount : others.length ≤ 2 := by
      rw [hcons, List.length_cons] at hlength
      omega
    obtain ⟨body, hbody⟩ := Geometry.facetCase_eq_ok cell first hcount
    rw [← hcons] at hbody
    refine ⟨body, hbody,
      fun r blocks hr hblocks => Geometry.isCase_of_facetMap hblocks hr hvs hbody, fun A b m hm => ?_⟩
    obtain ⟨body', m', hbody', hrun, hdet⟩ := run_region hlength hcorners hpos hdim A b hm
    obtain rfl := Except.ok.inj (hbody.symm.trans hbody')
    exact ⟨m', hrun, hdet⟩

/-- A side of a prism. -/
theorem region_describes_facet_prism : let prism : Cell := .product (.simple .triangle) (.simple .interval)
    (.vertical, 2) ∈ prism.boundary ∧ vertices ℝ prism .vertical 2 = .ok [0, 2, 1] ∧
    prism.Cofacial [[0, 0, 0], [1, 0, 0], [0, 0, 1]] ∧
    (∀ p : Fin 2 → ℝ, apply [List.ofFn p] 2 .vertical =
      .ok [List.ofFn (origin prism [0, 2, 1] + (edges prism [0, 2, 1]).mulVec p)]) ∧
    ∀ b : Fin 3 → ℝ, ∃ body, Geometry.facetCase prism [0, 2, 1] = .ok body ∧ ∀ m,
      Geometry.HoldsPoints (prism.corners.map (Geometry.affineImage 1 b)) m →
      ∃ m', runRoots body m = some m' ∧ m'.number "det" [] = some 1 := by
  intro prism
  have hregion : (.vertical, 2) ∈ prism.boundary := by decide
  have hvs : vertices ℝ prism .vertical 2 = .ok [0, 2, 1] := by
    refine vertices_eq_ok_iff.mpr ⟨[[0, 0, 0], [1, 0, 0], [0, 0, 1]], rfl, ?_⟩
    exact .cons (by decide) (.cons (by decide) (.cons (by decide) .nil))
  obtain ⟨-, hfacet, -, hmap, hcode⟩ := region_describes_facet hregion hvs
  refine ⟨hregion, hvs, hfacet.mpr fun h => absurd h (by decide), hmap, fun b => ?_⟩
  obtain ⟨body, hbody, -, hrun⟩ := hcode (by decide)
  refine ⟨body, hbody, fun m hm => ?_⟩
  obtain ⟨m', hm', hdet⟩ := hrun 1 b m hm
  refine ⟨m', hm', ?_⟩
  have hcorners : [0, 2, 1].map prism.corner = [[0, 0, 0], [1, 0, 0], [0, 0, 1]] := rfl
  let E : Matrix (Fin 3) (Fin 2) ℝ := !![1, 0; 0, 0; 0, 1]
  have hedges : edges prism [0, 2, 1] = E := by
    ext j k
    change coordinate ([0, 2, 1].map prism.corner) (k + 1) j - coordinate ([0, 2, 1].map prism.corner) 0 j = _
    rw [hcorners]
    fin_cases j <;> fin_cases k <;> simp [coordinate] <;> rfl
  have hgram : E.transpose * E = 1 := by
    ext i j
    fin_cases i <;> fin_cases j <;> simp [E, Matrix.mul_apply, Fin.sum_univ_three]
  have hscaling : Geometry.scaling (edges prism [0, 2, 1]) = 1 := by
    refine (congrArg (Geometry.scaling (n := 3) (k := 2)) hedges).trans ?_
    rw [Geometry.scaling, hgram, Matrix.det_one, Real.sqrt_one]
  rw [hdet, Matrix.one_mul, hscaling]

/-- The first facet of a quadrilateral is mapped onto its diagonal. -/
theorem quadrilateral_diagonal : (.plain, 0) ∈ (Cell.simple .quadrilateral).boundary ∧
    vertices ℝ (.simple .quadrilateral) .plain 0 = .ok [1, 2] ∧
    ¬ (Cell.simple .quadrilateral).Cofacial ([1, 2].map (Cell.simple .quadrilateral).corner) := by
  refine ⟨by decide, vertices_eq_ok_iff.mpr ⟨[[1, 0], [0, 1]], rfl, ?_⟩, by decide⟩
  exact .cons (by decide) (.cons (by decide) .nil)

end Regions

end FacetMap
end Variational
