import Variational.Proofs.ExactScalar
import Variational.Proofs.Results
import Variational.LinearSystem

/-! The inverse that is computed is the inverse. In exact arithmetic the adjugate of a small matrix, divided by its
determinant, and the solution by elimination are inverse to the matrix whenever they are found. -/
namespace Variational.LinearSystem

open Matrix
open scoped List

/-- As many rows as columns. -/
structure Square (n : ℕ) (m : List (List ℝ)) : Prop where
  rows : m.length = n
  columns : ∀ row ∈ m, row.length = n

def entry (m : List (List ℝ)) (i j : ℕ) : ℝ := (m.getD i []).getD j 0

def toMatrix (n : ℕ) (m : List (List ℝ)) : Matrix (Fin n) (Fin n) ℝ := Matrix.of fun i j => entry m i j

/-- A matrix that is given by its entries. -/
def ofEntries (n : ℕ) (f : ℕ → ℕ → ℝ) : List (List ℝ) :=
  (List.range n).map fun i => (List.range n).map (f i)

theorem square_ofEntries (n : ℕ) (f : ℕ → ℕ → ℝ) : Square n (ofEntries n f) := by
  constructor <;> simp [ofEntries]

theorem toMatrix_ofEntries (n : ℕ) (f : ℕ → ℕ → ℝ) (i j : Fin n) :
    toMatrix n (ofEntries n f) i j = f i j := by
  simp [toMatrix, entry, ofEntries]

section Cofactors

theorem getD_eraseIdx {β : Type} (xs : List β) (i k : ℕ) (d : β) :
    (xs.eraseIdx i).getD k d = xs.getD (if k < i then k else k + 1) d := by
  rw [List.getD_eq_getElem?_getD, List.getElem?_eraseIdx]
  split_ifs <;> rw [List.getD_eq_getElem?_getD]

theorem entry_minor (m : List (List ℝ)) (i j k l : ℕ) :
    entry ((m.eraseIdx i).map (·.eraseIdx j)) k l =
      entry m (if k < i then k else k + 1) (if l < j then l else l + 1) := by
  have hmap : ((m.eraseIdx i).map (·.eraseIdx j)).getD k [] = ((m.eraseIdx i).getD k []).eraseIdx j := by
    simp only [List.getD_eq_getElem?_getD, List.getElem?_map]
    cases (m.eraseIdx i)[k]? <;> rfl
  rw [entry, hmap, getD_eraseIdx, getD_eraseIdx, entry]

/-- The determinant of at most three rows. -/
theorem minor_eq_det {n : ℕ} (hn : n ≤ 3) {m : List (List ℝ)} (hm : Square n m) :
    minor m = (toMatrix n m).det := by
  obtain ⟨hrows, hcolumns⟩ := hm
  match n, hn with
  | 0, _ =>
    obtain rfl := List.length_eq_zero_iff.mp hrows
    simp [minor]
  | 1, _ =>
    obtain ⟨r, rfl⟩ := List.length_eq_one_iff.mp hrows
    obtain ⟨a, rfl⟩ := List.length_eq_one_iff.mp (hcolumns r (by simp))
    simp [minor, toMatrix, entry]
  | 2, _ =>
    obtain ⟨r, s, rfl⟩ := List.length_eq_two.mp hrows
    obtain ⟨a, b, rfl⟩ := List.length_eq_two.mp (hcolumns r (by simp))
    obtain ⟨c, d, rfl⟩ := List.length_eq_two.mp (hcolumns s (by simp))
    simp [minor, toMatrix, entry, det_fin_two]
  | 3, _ =>
    obtain ⟨r, s, t, rfl⟩ := List.length_eq_three.mp hrows
    obtain ⟨a, b, c, rfl⟩ := List.length_eq_three.mp (hcolumns r (by simp))
    obtain ⟨d, e, f, rfl⟩ := List.length_eq_three.mp (hcolumns s (by simp))
    obtain ⟨g, h, i, rfl⟩ := List.length_eq_three.mp (hcolumns t (by simp))
    simp [minor, toMatrix, entry, det_fin_three]
    ring

theorem cofactor_eq {n : ℕ} (hn : n ≤ 3) {m : List (List ℝ)} (hm : Square (n + 1) m) (i j : Fin (n + 1)) :
    cofactor m i j = (-1) ^ (i + j : ℕ) * ((toMatrix (n + 1) m).submatrix i.succAbove j.succAbove).det := by
  have hsquare : Square n ((m.eraseIdx i).map (·.eraseIdx j)) := by
    refine ⟨?_, List.forall_mem_map.mpr fun row hrow => ?_⟩
    · have hi : (i : ℕ) < m.length := by rw [hm.rows]; exact i.isLt
      rw [List.length_map, List.length_eraseIdx_of_lt hi, hm.rows, Nat.add_sub_cancel]
    · have hlength := hm.columns row (List.mem_of_mem_eraseIdx hrow)
      have hj : (j : ℕ) < row.length := by rw [hlength]; exact j.isLt
      rw [List.length_eraseIdx_of_lt hj, hlength, Nat.add_sub_cancel]
  have hsub : toMatrix n ((m.eraseIdx i).map (·.eraseIdx j)) =
      (toMatrix (n + 1) m).submatrix i.succAbove j.succAbove := by
    ext k l
    simp only [toMatrix, of_apply, submatrix_apply, entry_minor]
    congr 1 <;>
      · simp only [Fin.succAbove, Fin.lt_def, Fin.val_castSucc]
        split_ifs <;> rfl
  simp only [cofactor]
  rw [minor_eq_det hn hsquare, hsub]
  rcases Nat.mod_two_eq_zero_or_one (i + j) with h | h
  · rw [if_pos h, (Nat.even_iff.mpr h).neg_one_pow, one_mul]
  · rw [if_neg (by omega), (Nat.odd_iff.mpr h).neg_one_pow, neg_one_mul]

theorem toMatrix_adjugate {n : ℕ} (hn : n ≤ 3) {m : List (List ℝ)} (hm : Square (n + 1) m) :
    toMatrix (n + 1) (adjugate m) = (toMatrix (n + 1) m).adjugate := by
  have hentries : adjugate m = ofEntries (n + 1) fun i j => cofactor m j i := by
    rw [adjugate, hm.rows]
    rfl
  ext i j
  rw [hentries, toMatrix_ofEntries, cofactor_eq hn hm, adjugate_fin_succ_eq_det_submatrix]

theorem toMatrix_map_mul (n : ℕ) (m : List (List ℝ)) (x : ℝ) :
    toMatrix n (m.map (·.map (· * x))) = x • toMatrix n m := by
  ext i j
  have hrow : (m.map (·.map (· * x))).getD i [] = (m.getD i []).map (· * x) :=
    List.getD_map _ [] (List.map (· * x))
  have hentry := List.getD_map (m.getD i []) 0 (n := j) (· * x)
  rw [zero_mul, ← hrow] at hentry
  rw [Matrix.smul_apply, smul_eq_mul, mul_comm]
  exact hentry

theorem Square.map {n : ℕ} {m : List (List ℝ)} (hm : Square n m) (f : ℝ → ℝ) :
    Square n (m.map (·.map f)) := by
  refine ⟨by rw [List.length_map, hm.rows], List.forall_mem_map.mpr fun row hrow => ?_⟩
  rw [List.length_map, hm.columns row hrow]

theorem square_adjugate {n : ℕ} {m : List (List ℝ)} (hm : Square n m) : Square n (adjugate m) := by
  rw [adjugate, hm.rows]
  exact square_ofEntries n fun i j => cofactor m j i

theorem getD_firstColumn (m : List (List ℝ)) (i : ℕ) : (m.map (·.headD 0)).getD i 0 = entry m i 0 := by
  simp only [entry, List.getD_eq_getElem?_getD, List.getElem?_map]
  cases m[i]? with
  | none => rfl
  | some row => cases row <;> rfl

/-- The determinant, expanded along the first row. -/
theorem dot_row {n : ℕ} (hn : n ≤ 3) {m : List (List ℝ)} (hm : Square (n + 1) m) :
    Scalar.dot (m.headD []) ((adjugate m).map (·.headD 0)) = (toMatrix (n + 1) m).det := by
  have hfirst : (m.headD []).length = n + 1 := by
    obtain ⟨row, rows, rfl⟩ := List.exists_cons_of_length_eq_add_one hm.rows
    exact hm.columns row List.mem_cons_self
  have hexpand := congrFun₂ (mul_adjugate (toMatrix (n + 1) m)) 0 0
  rw [mul_apply, ← toMatrix_adjugate hn hm] at hexpand
  rw [Scalar.dot_eq _ _ (by rw [hfirst, List.length_map, (square_adjugate hm).rows]), hfirst,
    Finset.sum_range]
  rw [Matrix.smul_apply, one_apply_eq, smul_eq_mul, mul_one] at hexpand
  rw [← hexpand]
  refine Finset.sum_congr rfl fun j _ => ?_
  rw [getD_firstColumn, List.headD_eq_getD]
  rfl

/-- The determinant, expanded along the first column. -/
theorem dot_column {n : ℕ} (hn : n ≤ 3) {m : List (List ℝ)} (hm : Square (n + 1) m) :
    Scalar.dot (m.map (·.headD 0)) ((adjugate m).headD []) = (toMatrix (n + 1) m).det := by
  have hadjugate := square_adjugate hm
  have hfirst : ((adjugate m).headD []).length = n + 1 := by
    obtain ⟨row, rows, h⟩ := List.exists_cons_of_length_eq_add_one hadjugate.rows
    rw [h]
    exact hadjugate.columns row (by rw [h]; exact List.mem_cons_self)
  have hexpand := congrFun₂ (adjugate_mul (toMatrix (n + 1) m)) 0 0
  rw [mul_apply, ← toMatrix_adjugate hn hm] at hexpand
  rw [Scalar.dot_eq _ _ (by rw [hfirst, List.length_map, hm.rows]), List.length_map, hm.rows,
    Finset.sum_range]
  rw [Matrix.smul_apply, one_apply_eq, smul_eq_mul, mul_one] at hexpand
  rw [← hexpand]
  refine Finset.sum_congr rfl fun i _ => ?_
  rw [getD_firstColumn, List.headD_eq_getD, mul_comm]
  rfl

/-- The adjugate, divided by the determinant, is inverse to the matrix. -/
theorem mul_adjugate_eq_one {n : ℕ} (hn : n ≤ 3) {m : List (List ℝ)} (hm : Square (n + 1) m)
    (hdet : (toMatrix (n + 1) m).det ≠ 0) :
    toMatrix (n + 1) m * toMatrix (n + 1) ((adjugate m).map (·.map (· * (toMatrix (n + 1) m).det⁻¹))) =
      1 := by
  rw [toMatrix_map_mul, toMatrix_adjugate hn hm, Matrix.mul_smul, mul_adjugate, smul_smul, inv_mul_cancel₀ hdet,
    one_smul]

theorem inverseSmall_spec {n : ℕ} (hn : n ≤ 3) {m inv : List (List ℝ)} (hm : Square (n + 1) m)
    (h : inverseSmall m = some inv) :
    Square (n + 1) inv ∧ toMatrix (n + 1) m * toMatrix (n + 1) inv = 1 := by
  simp only [inverseSmall, Scalar.numeral_zero, dot_row hn hm] at h
  split_ifs at h with hdet
  obtain rfl := Option.some.inj h
  exact ⟨(square_adjugate hm).map _, mul_adjugate_eq_one hn hm fun hzero => hdet (decide_eq_true hzero)⟩

theorem inverseFour_spec {n : ℕ} (hn : n ≤ 3) {m inv : List (List ℝ)} (hm : Square (n + 1) m)
    (h : inverseFour m = some inv) :
    Square (n + 1) inv ∧ toMatrix (n + 1) m * toMatrix (n + 1) inv = 1 := by
  simp only [inverseFour, Scalar.numeral_zero, Scalar.numeral_one, dot_column hn hm] at h
  split_ifs at h with hdet
  obtain rfl := Option.some.inj h
  have hone := mul_adjugate_eq_one hn hm fun hzero => hdet (decide_eq_true hzero)
  rw [← one_div] at hone
  exact ⟨(square_adjugate hm).map _, hone⟩

end Cofactors

section Elimination

/-- The left side of an equation, for one of the systems. -/
def side (entries : List ℝ) (xs : List (List ℝ)) (c : ℕ) : ℝ :=
  (List.zipWith (fun a x => a * x.getD c 0) entries xs).sum

/-- The equation is in `n` unknowns for `width` systems. -/
structure Equation.Fits (n width : ℕ) (e : Equation ℝ) : Prop where
  entries : e.entries.length = n
  rhs : e.rhs.length = width

/-- The values solve the equation in all systems. -/
def Equation.Holds (e : Equation ℝ) (xs : List (List ℝ)) : Prop :=
  ∀ c < e.rhs.length, side e.entries xs c = e.rhs.getD c 0

/-- The pivot changes places with the first equation. -/
theorem takePivot_perm {es others : List (Equation ℝ)} {p : Equation ℝ}
    (h : takePivot es = some (p, others)) : (p :: others).Perm es := by
  cases es with
  | nil => cases h
  | cons e es =>
    simp only [takePivot] at h
    split at h
    · obtain ⟨rfl, rfl⟩ := Prod.mk.inj (Option.some.inj h)
      exact List.Perm.refl _
    · rename_i k _
      obtain ⟨q, hq, hpair⟩ := Option.map_eq_some_iff.mp h
      obtain ⟨rfl, rfl⟩ := Prod.mk.inj hpair
      obtain ⟨hk, rfl⟩ := List.getElem?_eq_some_iff.mp hq
      -- Both lists hold what stands before and after place `k`, and the two equations.
      have hsplit : es = es.take k ++ es[k] :: es.drop (k + 1) := by simp
      rw [List.set_eq_take_append_cons_drop, if_pos hk]
      conv_rhs => rw [hsplit]
      calc es[k] :: (es.take k ++ e :: es.drop (k + 1))
        _ ~ es[k] :: e :: (es.take k ++ es.drop (k + 1)) := List.perm_middle.cons _
        _ ~ e :: es[k] :: (es.take k ++ es.drop (k + 1)) := List.Perm.swap _ _ _
        _ ~ e :: (es.take k ++ es[k] :: es.drop (k + 1)) := List.perm_middle.symm.cons _

theorem side_cons (a : ℝ) (entries x : List ℝ) (xs : List (List ℝ)) (c : ℕ) :
    side (a :: entries) (x :: xs) c = a * x.getD c 0 + side entries xs c := by
  simp [side]

theorem getD_zipWith_sub_mul (l : ℝ) {xs ys : List ℝ} (h : xs.length = ys.length) (c : ℕ) :
    (List.zipWith (fun y p => y - l * p) xs ys).getD c 0 = xs.getD c 0 - l * ys.getD c 0 :=
  getD_zipWith (by simp) h c

theorem side_zipWith_sub_mul (l : ℝ) {xs ys : List ℝ} (h : xs.length = ys.length) (vs : List (List ℝ))
    (c : ℕ) :
    side (List.zipWith (fun y p => y - l * p) xs ys) vs c = side xs vs c - l * side ys vs c := by
  induction xs generalizing ys vs with
  | nil =>
    obtain rfl := List.length_eq_zero_iff.mp h.symm
    simp [side]
  | cons x xs ih =>
    obtain ⟨y, ys, rfl⟩ := List.exists_cons_of_length_eq_add_one h.symm
    cases vs with
    | nil => simp [side]
    | cons v vs =>
      rw [List.zipWith_cons_cons, side_cons, side_cons, side_cons, ih (by simpa using h)]
      ring

/-- The right side, less what the other unknowns contribute. -/
theorem foldr_subtract {width : ℕ} {rhs : List ℝ} (hrhs : rhs.length = width) {xs : List (List ℝ)}
    (hwidth : ∀ x ∈ xs, x.length = width) (entries : List ℝ) :
    let remainder := (List.zip entries xs).foldr
      (fun ax acc => List.zipWith (fun y v => y - v * ax.1) acc ax.2) rhs
    remainder.length = width ∧ ∀ c, remainder.getD c 0 = rhs.getD c 0 - side entries xs c := by
  induction entries generalizing xs with
  | nil => simp [side, hrhs]
  | cons a entries ih =>
    cases xs with
    | nil => simp [side, hrhs]
    | cons x xs =>
      rw [List.forall_mem_cons] at hwidth
      obtain ⟨hlength, hvalue⟩ := ih hwidth.2
      refine ⟨?_, fun c => ?_⟩
      · rw [List.zip_cons_cons, List.foldr_cons, List.length_zipWith, hlength, hwidth.1, Nat.min_self]
      · simp only [List.zip_cons_cons, List.foldr_cons, mul_comm _ a]
        rw [getD_zipWith_sub_mul a (hlength.trans hwidth.1.symm)]
        simp only [mul_comm a] at hvalue ⊢
        rw [hvalue, side_cons]
        ring

/-- The leading unknown is what the others leave of the right side, divided by its factor. -/
theorem getD_substitute {width : ℕ} {e : Equation ℝ} (hrhs : e.rhs.length = width) (lead : ℝ)
    {xs : List (List ℝ)} (hwidth : ∀ x ∈ xs, x.length = width) :
    (e.substitute lead xs).length = width ∧
      ∀ c, (e.substitute lead xs).getD c 0 = (e.rhs.getD c 0 - side e.entries xs c) / lead := by
  obtain ⟨hlength, hvalue⟩ := foldr_subtract hrhs hwidth e.entries
  refine ⟨(List.length_map _).trans hlength, fun c => ?_⟩
  rw [← hvalue c]
  exact (congrArg (List.getD _ c) (zero_div lead).symm).trans (List.getD_map (f := (· / lead)) ..)

theorem Equation.Fits.clear {n width : ℕ} {pivot e : Equation ℝ} (hpivot : pivot.Fits n width)
    (he : e.Fits (n + 1) width) (scale : ℝ) : (pivot.clear scale e).Fits n width := by
  constructor
  · rw [Equation.clear, List.length_zipWith, List.length_tail, he.entries, hpivot.entries]
    exact Nat.min_self n
  · rw [Equation.clear, List.length_zipWith, he.rhs, hpivot.rhs, Nat.min_self]

/-- Values that solve the cleared equation solve the equation, with the leading unknown from the pivot. -/
theorem Equation.Holds.of_clear {n width : ℕ} {x : ℝ} {pivot e : Equation ℝ}
    (hpivot : pivot.Fits n width) (he : e.Fits (n + 1) width) {rest : List (List ℝ)}
    (hwidth : ∀ v ∈ rest, v.length = width) (h : (pivot.clear (1 / x) e).Holds rest) :
    e.Holds (pivot.substitute x rest :: rest) := by
  intro c hc
  have hcleared := h c ((hpivot.clear he _).rhs ▸ he.rhs ▸ hc)
  obtain ⟨entries, rhs⟩ := e
  obtain ⟨y, ys, rfl⟩ := List.exists_cons_of_length_eq_add_one he.entries
  have hentries : ys.length = pivot.entries.length := by
    rw [hpivot.entries]
    exact Nat.succ.inj he.entries
  simp only [Equation.clear, List.headD_cons, List.tail_cons] at hcleared
  rw [side_zipWith_sub_mul _ hentries, getD_zipWith_sub_mul _ (he.rhs.trans hpivot.rhs.symm)] at hcleared
  rw [side_cons, (getD_substitute hpivot.rhs x hwidth).2 c]
  calc y * ((pivot.rhs.getD c 0 - side pivot.entries rest c) / x) + side ys rest c
    _ = (side ys rest c - y * (1 / x) * side pivot.entries rest c) + y * (1 / x) * pivot.rhs.getD c 0 := by
      ring
    _ = rhs.getD c 0 := by
      rw [hcleared]
      ring

/-- The leading unknown is chosen to solve the equation of the pivot. -/
theorem Equation.holds_substitute {n width : ℕ} {x : ℝ} (hx : x ≠ 0) {xs rhs : List ℝ}
    (hpivot : (Equation.mk xs rhs).Fits n width) {rest : List (List ℝ)}
    (hwidth : ∀ v ∈ rest, v.length = width) :
    (Equation.mk (x :: xs) rhs).Holds ((Equation.mk xs rhs).substitute x rest :: rest) := by
  intro c _
  rw [side_cons, (getD_substitute hpivot.rhs x hwidth).2 c]
  field_simp
  ring

/-- As many equations as unknowns: the values that elimination finds solve all of them. -/
theorem eliminate_spec {n width : ℕ} {es : List (Equation ℝ)} (hlength : es.length = n)
    (hes : ∀ e ∈ es, e.Fits n width) {xs : List (List ℝ)} (h : eliminate n es = some xs) :
    xs.length = n ∧ (∀ x ∈ xs, x.length = width) ∧ ∀ e ∈ es, e.Holds xs := by
  induction n generalizing es xs with
  | zero =>
    obtain rfl := List.length_eq_zero_iff.mp hlength
    obtain rfl := Option.some.inj h
    simp
  | succ n ih =>
    rw [eliminate] at h
    split at h
    · rename_i x entries rhs others hpivot
      split_ifs at h with hx
      obtain ⟨rest, hrest, rfl⟩ := Option.map_eq_some_iff.mp h
      have hperm := takePivot_perm hpivot
      have hfits := fun e he => hes e (hperm.subset he)
      rw [List.forall_mem_cons] at hfits
      have hpivotFits : (Equation.mk entries rhs).Fits n width :=
        ⟨Nat.succ.inj hfits.1.entries, hfits.1.rhs⟩
      have hne : x ≠ 0 := fun hzero => hx (decide_eq_true (by rw [hzero]; simp))
      obtain ⟨hnumber, hwidth, hholds⟩ := ih
        (by rw [List.length_map]; exact Nat.succ.inj (hperm.length_eq.trans hlength))
        (List.forall_mem_map.mpr fun e he => hpivotFits.clear (hfits.2 e he) _) hrest
      refine ⟨by rw [List.length_cons, hnumber], ?_, fun e he => ?_⟩
      · exact List.forall_mem_cons.mpr ⟨(getD_substitute hpivotFits.rhs x hwidth).1, hwidth⟩
      · rcases List.mem_cons.mp (hperm.mem_iff.mpr he) with rfl | he
        · exact Equation.holds_substitute hne hpivotFits hwidth
        · have hcleared := hholds _ (List.mem_map_of_mem he)
          simp only [Scalar.numeral_one] at hcleared
          exact .of_clear hpivotFits (hfits.2 e he) hwidth hcleared
    · cases h

end Elimination

/-- The value of an equation, as a sum over the unknowns. -/
theorem side_eq_sum {entries : List ℝ} {xs : List (List ℝ)} {n : ℕ} (hentries : entries.length = n)
    (hxs : xs.length = n) (c : ℕ) : side entries xs c = ∑ k : Fin n, entries.getD k 0 * entry xs k c := by
  have hlength : (List.zipWith (fun a x => a * x.getD c 0) entries xs).length = n := by
    rw [List.length_zipWith, hentries, hxs, Nat.min_self]
  rw [side, sum_eq_getD, hlength, Finset.sum_range]
  refine Finset.sum_congr rfl fun k _ => ?_
  have hk : (k : ℕ) < entries.length := hentries ▸ k.isLt
  have hk' : (k : ℕ) < xs.length := hxs ▸ k.isLt
  simp [entry, List.getD_eq_getElem?_getD, hk, hk']

/-- The solution of a square system, by entries. -/
theorem solve_ok {n width : ℕ} {m rhs xs : List (List ℝ)} (hm : Square n m) (hrhs : rhs.length = n)
    (hwidth : ∀ r ∈ rhs, r.length = width) (h : solve m rhs = some xs) :
    xs.length = n ∧ (∀ x ∈ xs, x.length = width) ∧
      ∀ i < n, ∀ c < width, ∑ k : Fin n, entry m i k * entry xs k c = entry rhs i c := by
  rw [solve, hm.rows] at h
  obtain ⟨hnumber, hxs, hholds⟩ := eliminate_spec (n := n)
    (by rw [List.length_zipWith, hm.rows, hrhs, Nat.min_self])
    (fun e he => by
      obtain ⟨row, hrow, r, hr, rfl⟩ := Result.of_mem_zipWith he
      exact ⟨hm.columns row hrow, hwidth r hr⟩) h
  refine ⟨hnumber, hxs, fun i hi c hc => ?_⟩
  have hm' : i < m.length := by rwa [hm.rows]
  have hrhs' : i < rhs.length := by rwa [hrhs]
  have hequation : (List.zipWith Equation.mk m rhs)[i]? = some ⟨m.getD i [], rhs.getD i []⟩ := by
    simp [List.getD_eq_getElem?_getD, hm', hrhs']
  have hrow : m.getD i [] ∈ m := by
    rw [List.getD_eq_getElem _ _ hm']
    exact List.getElem_mem hm'
  have hright : rhs.getD i [] ∈ rhs := by
    rw [List.getD_eq_getElem _ _ hrhs']
    exact List.getElem_mem hrhs'
  have hsolves := hholds _ (List.mem_of_getElem? hequation) c (by rwa [hwidth _ hright])
  rwa [side_eq_sum (hm.columns _ hrow) hnumber] at hsolves

theorem solve_spec {n : ℕ} {m inv : List (List ℝ)} (hm : Square n m)
    (h : solve m (identity n) = some inv) : Square n inv ∧ toMatrix n m * toMatrix n inv = 1 := by
  have hidentity : (identity n : List (List ℝ)) = ofEntries n fun i j => if i = j then 1 else 0 := by
    simp [identity, ofEntries]
  have hone := square_ofEntries n fun i j => if i = j then 1 else 0
  rw [hidentity] at h
  obtain ⟨hnumber, hwidth, hsolves⟩ := solve_ok hm hone.rows hone.columns h
  refine ⟨⟨hnumber, hwidth⟩, ?_⟩
  ext i j
  rw [mul_apply, one_apply]
  simp only [Fin.ext_iff]
  exact (hsolves i i.isLt j j.isLt).trans (toMatrix_ofEntries n _ i j)

/-- What is found as the inverse of a square matrix is inverse to it. -/
theorem inverse_spec {n : ℕ} {m inv : List (List ℝ)} (hm : Square n m) (h : inverse m = some inv) :
    Square n inv ∧ toMatrix n m * toMatrix n inv = 1 := by
  rw [inverse, hm.rows] at h
  match n with
  | 0 =>
    obtain rfl := Option.some.inj h
    exact ⟨⟨rfl, by simp⟩, Subsingleton.elim _ _⟩
  | 1 => exact inverseSmall_spec (by omega) hm h
  | 2 => exact inverseSmall_spec (by omega) hm h
  | 3 => exact inverseSmall_spec (by omega) hm h
  | 4 => exact inverseFour_spec (by omega) hm h
  | n + 5 => exact solve_spec hm h

end Variational.LinearSystem
