import Variational.Proofs.MatrixInverse

/-! Regular systems are solved. A system of as many equations as unknowns is regular when only zeros solve it with zeros
on the right. The largest leading entry of a regular system is not zero and clearing it leaves a regular system, so
elimination comes to an end, and the inverse of a matrix is found exactly if there is one. -/
namespace Variational.LinearSystem

open Matrix

section Pivot

/-- The best of some candidates is one of them, and none lies above it. -/
theorem foldl_best (best : ℝ × ℕ) (cs : List (ℝ × ℕ)) :
    let r := cs.foldl (fun best c => if Scalar.below best.1 c.1 then c else best) best
    r ∈ best :: cs ∧ ∀ c ∈ best :: cs, c.1 ≤ r.1 := by
  induction cs generalizing best with
  | nil => simp
  | cons c cs ih =>
    have hbelow : Scalar.below best.1 c.1 = decide (best.1 < c.1) := rfl
    rw [List.foldl_cons, hbelow]
    by_cases h : best.1 < c.1
    · obtain ⟨hmem, hmax⟩ := ih c
      rw [if_pos (decide_eq_true h)]
      refine ⟨List.mem_cons_of_mem _ hmem, List.forall_mem_cons.mpr ⟨?_, hmax⟩⟩
      exact h.le.trans (hmax c List.mem_cons_self)
    · obtain ⟨hmem, hmax⟩ := ih best
      rw [List.forall_mem_cons] at hmax
      rw [if_neg (by simpa using h)]
      refine ⟨?_, List.forall_mem_cons.mpr ⟨hmax.1, List.forall_mem_cons.mpr ⟨?_, hmax.2⟩⟩⟩
      · exact List.cons_subset_cons best (List.subset_cons_self c cs) hmem
      · exact (not_lt.mp h).trans hmax.1

/-- No number of a list lies above the one at the position of the largest. -/
theorem largest_spec (x : ℝ) (xs : List ℝ) :
    ∃ y, (x :: xs)[largest (x :: xs)]? = some y ∧ ∀ z ∈ x :: xs, z ≤ y := by
  obtain ⟨hmem, hmax⟩ := foldl_best (x, 0) (xs.zipIdx 1)
  rw [← List.zipIdx_cons] at hmem hmax
  refine ⟨_, List.mem_zipIdx_iff_getElem?.mp hmem, fun z hz => ?_⟩
  obtain ⟨i, hi⟩ := List.mem_iff_getElem?.mp hz
  exact hmax (z, i) (List.mem_zipIdx_iff_getElem?.mpr hi)

/-- Where there are equations there is a pivot, and no leading entry is larger than its own. -/
theorem takePivot_spec {es : List (Equation ℝ)} (hes : es ≠ []) :
    ∃ p others, takePivot es = some (p, others) ∧ ∀ e ∈ es, e.lead ≤ p.lead := by
  obtain ⟨e, es, rfl⟩ := List.exists_cons_of_ne_nil hes
  obtain ⟨y, hy, hmax⟩ := largest_spec e.lead (es.map Equation.lead)
  rw [← List.map_cons, List.getElem?_map] at hy
  rw [← List.map_cons, List.forall_mem_map] at hmax
  obtain ⟨p, hp, rfl⟩ := Option.map_eq_some_iff.mp hy
  rw [takePivot]
  cases hlargest : largest ((e :: es).map Equation.lead) with
  | zero =>
    rw [hlargest, List.getElem?_cons_zero] at hp
    obtain rfl := Option.some.inj hp
    exact ⟨e, es, rfl, hmax⟩
  | succ k =>
    rw [hlargest, List.getElem?_cons_succ] at hp
    exact ⟨p, es.set k e, by simp only [hp, Option.map_some], hmax⟩

end Pivot

section Regularity

theorem dot_zipWith_sub_mul (l : ℝ) {as bs : List ℝ} (h : as.length = bs.length) (xs : List ℝ) :
    Scalar.dot (List.zipWith (fun a b => a - l * b) as bs) xs = Scalar.dot as xs - l * Scalar.dot bs xs := by
  induction as generalizing bs xs with
  | nil =>
    obtain rfl := List.length_eq_zero_iff.mp h.symm
    simp
  | cons a as ih =>
    obtain ⟨b, bs, rfl⟩ := List.exists_cons_of_length_eq_add_one h.symm
    cases xs with
    | nil => simp [Scalar.dot]
    | cons x xs =>
      rw [List.zipWith_cons_cons, Scalar.dot_cons, Scalar.dot_cons, Scalar.dot_cons, ih (Nat.succ.inj h)]
      ring

/-- Only zeros solve all equations with zeros on the right. -/
def Regular (n : ℕ) (es : List (Equation ℝ)) : Prop :=
  ∀ xs : List ℝ, xs.length = n → (∀ e ∈ es, Scalar.dot e.entries xs = 0) → ∀ x ∈ xs, x = 0

variable {n : ℕ} {es others : List (Equation ℝ)} {x : ℝ} {xs rhs : List ℝ}

/-- The pivot of a regular system is not zero, as otherwise the leading unknown would be free. -/
theorem Regular.pivot_ne_zero (hes : ∀ e ∈ es, e.entries.length = n + 1) (hregular : Regular (n + 1) es)
    (hmax : ∀ e ∈ es, e.lead ≤ (Equation.mk (x :: xs) rhs).lead) : x ≠ 0 := by
  rintro rfl
  have hfree : ∀ e ∈ es, Scalar.dot e.entries (1 :: List.replicate n 0) = 0 := by
    intro e he
    obtain ⟨a, as, hentries⟩ := List.exists_cons_of_length_eq_add_one (hes e he)
    have hlead := hmax e he
    rw [Equation.lead, Equation.lead, hentries] at hlead
    have ha : a = 0 := abs_nonpos_iff.mp (hlead.trans_eq abs_zero)
    rw [hentries, Scalar.dot_cons, Scalar.dot_comm, Scalar.dot_replicate_zero, ha, zero_mul, zero_add]
  exact one_ne_zero (hregular _ (by simp) hfree 1 List.mem_cons_self)

/-- Clearing the leading entries leaves a regular system. -/
theorem Regular.clear (hx : x ≠ 0) (hxs : xs.length = n) (hothers : ∀ e ∈ others, e.entries.length = n + 1)
    (hregular : Regular (n + 1) (⟨x :: xs, rhs⟩ :: others)) :
    Regular n (others.map (Equation.clear (1 / x) ⟨xs, rhs⟩)) := by
  intro ys hys hzero
  -- The value that the pivot equation gives to the leading unknown.
  let y := -(Scalar.dot xs ys) / x
  refine fun z hz => hregular (y :: ys) (by rw [List.length_cons, hys]) ?_ z (List.mem_cons_of_mem _ hz)
  refine List.forall_mem_cons.mpr ⟨?_, fun e he => ?_⟩
  · rw [Scalar.dot_cons, mul_div_cancel₀ _ hx, neg_add_cancel]
  · have hcleared := hzero _ (List.mem_map_of_mem he)
    obtain ⟨a, as, hentries⟩ := List.exists_cons_of_length_eq_add_one (hothers e he)
    have hlength : as.length = xs.length := by
      have := hothers e he
      rw [hentries] at this
      rw [hxs]
      exact Nat.succ.inj this
    simp only [Equation.clear, hentries, List.headD_cons, List.tail_cons] at hcleared
    rw [dot_zipWith_sub_mul _ hlength] at hcleared
    rw [hentries, Scalar.dot_cons]
    calc a * (-(Scalar.dot xs ys) / x) + Scalar.dot as ys
      _ = Scalar.dot as ys - a * (1 / x) * Scalar.dot xs ys := by ring
      _ = 0 := hcleared

/-- Elimination solves a regular system. -/
theorem exists_eliminate (hlength : es.length = n) (hes : ∀ e ∈ es, e.entries.length = n) (hregular : Regular n es) :
    ∃ xs, eliminate n es = some xs := by
  induction n generalizing es with
  | zero => exact ⟨[], rfl⟩
  | succ n ih =>
    have hne : es ≠ [] := List.ne_nil_of_length_eq_add_one hlength
    obtain ⟨⟨entries, rhs⟩, others, hpivot, hmax⟩ := takePivot_spec hne
    have hperm := takePivot_perm hpivot
    have hfits := fun e he => hes e (hperm.subset he)
    rw [List.forall_mem_cons] at hfits
    obtain ⟨x, xs, rfl⟩ := List.exists_cons_of_length_eq_add_one hfits.1
    have hxs : xs.length = n := Nat.succ.inj hfits.1
    have hx := hregular.pivot_ne_zero hes hmax
    have hreordered : Regular (n + 1) (⟨x :: xs, rhs⟩ :: others) := fun ys hys hzero =>
      hregular ys hys fun e he => hzero e (hperm.mem_iff.mpr he)
    have hrest : (others.map (Equation.clear (1 / x) ⟨xs, rhs⟩)).length = n := by
      rw [List.length_map]
      exact Nat.succ.inj (hperm.length_eq.trans hlength)
    have hcleared : ∀ e ∈ others.map (Equation.clear (1 / x) ⟨xs, rhs⟩), e.entries.length = n := by
      refine List.forall_mem_map.mpr fun e he => ?_
      rw [Equation.clear, List.length_zipWith, List.length_tail, hfits.2 e he, hxs]
      exact Nat.min_self n
    obtain ⟨rest, hsolved⟩ := ih hrest hcleared (hreordered.clear hx hxs hfits.2)
    have htest : ¬(x == (0 : ℝ)) = true := fun h => hx (ExactScalar.eq_of_beq h)
    refine ⟨(Equation.mk xs rhs).substitute x rest :: rest, ?_⟩
    simp only [eliminate, hpivot, Scalar.numeral_zero, Scalar.numeral_one, if_neg htest, hsolved, Option.map_some]

end Regularity

section Small

variable {n : ℕ} (hn : n ≤ 3) {m : List (List ℝ)} (hm : Square (n + 1) m) (hdet : (toMatrix (n + 1) m).det ≠ 0)
include hn hm hdet

theorem exists_inverseSmall : ∃ inv, inverseSmall m = some inv := by
  have htest : ¬((toMatrix (n + 1) m).det == (0 : ℝ)) = true := fun h => hdet (ExactScalar.eq_of_beq h)
  simp only [inverseSmall, Scalar.numeral_zero, dot_row hn hm, if_neg htest]
  exact ⟨_, rfl⟩

theorem exists_inverseFour : ∃ inv, inverseFour m = some inv := by
  have htest : ¬((toMatrix (n + 1) m).det == (0 : ℝ)) = true := fun h => hdet (ExactScalar.eq_of_beq h)
  simp only [inverseFour, Scalar.numeral_zero, dot_column hn hm, if_neg htest]
  exact ⟨_, rfl⟩

end Small

section Invertible

variable {n : ℕ} {m rhs : List (List ℝ)} (hm : Square n m)
include hm

/-- The rows of an invertible matrix make a regular system. -/
theorem Square.regular (hdet : (toMatrix n m).det ≠ 0) {es : List (Equation ℝ)}
    (hes : es.map Equation.entries = m) : Regular n es := by
  intro xs hxs hzero
  have hsolution : (toMatrix n m) *ᵥ (fun k => xs.getD k 0) = 0 := by
    funext i
    have hi : (i : ℕ) < m.length := hm.rows ▸ i.isLt
    have hmem : m.getD i [] ∈ es.map Equation.entries := by
      rw [hes, List.getD_eq_getElem _ _ hi]
      exact List.getElem_mem hi
    obtain ⟨e, he, hrow⟩ := List.mem_map.mp hmem
    have hlength : e.entries.length = n := hm.columns _ (hes ▸ List.mem_map_of_mem he)
    have hdot := hzero e he
    rw [Scalar.dot_eq _ _ (hlength.trans hxs.symm), hlength, Finset.sum_range, hrow] at hdot
    exact hdot
  have hvanish := Matrix.eq_zero_of_mulVec_eq_zero hdet hsolution
  refine List.forall_mem_iff_getElem.mpr fun k hk => ?_
  have hentry := congrFun hvanish ⟨k, hxs ▸ hk⟩
  rwa [List.getD_eq_getElem _ _ hk] at hentry

/-- A system with an invertible matrix has a solution for every right side. -/
theorem exists_solve (hdet : (toMatrix n m).det ≠ 0) (hrhs : rhs.length = n) : ∃ xs, solve m rhs = some xs := by
  have hentries : (List.zipWith Equation.mk m rhs).map Equation.entries = m := by
    rw [List.map_zipWith, ← List.map_uncurry_zip_eq_zipWith]
    exact List.map_fst_zip (hm.rows.trans hrhs.symm).le
  rw [solve, hm.rows]
  refine exists_eliminate ?_ ?_ (hm.regular hdet hentries)
  · rw [List.length_zipWith, hm.rows, hrhs, Nat.min_self]
  · exact fun e he => hm.columns _ (hentries ▸ List.mem_map_of_mem he)

/-- The inverse of a matrix is found exactly if there is one. -/
theorem exists_inverse_iff : (∃ inv, inverse m = some inv) ↔ (toMatrix n m).det ≠ 0 := by
  constructor
  · rintro ⟨inv, hinv⟩ hdet
    have hone := congrArg Matrix.det (inverse_spec hm hinv).2
    rw [det_mul, hdet, zero_mul, det_one] at hone
    exact zero_ne_one hone
  · intro hdet
    rw [inverse, hm.rows]
    obtain _ | _ | _ | _ | _ | n := n
    · exact ⟨[], rfl⟩
    · exact exists_inverseSmall (by decide) hm hdet
    · exact exists_inverseSmall (by decide) hm hdet
    · exact exists_inverseSmall (by decide) hm hdet
    · exact exists_inverseFour (by decide) hm hdet
    · exact exists_solve hm hdet (by simp [identity])

end Invertible
end Variational.LinearSystem
