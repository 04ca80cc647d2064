import Variational.Proofs.RecurrenceCode
import Variational.Proofs.ExpansionShapes

/-! The code that evaluates the expansion set on the triangle. It goes through collapsed coordinates where
the set itself is defined by homogenised polynomials; the two agree wherever the code does not take a point
for the collapsed vertex, and at this vertex. -/
namespace Variational.BasisEvaluation
open Code Code.Memory

variable {m : Memory}

section Names

/-- A name that starts in another way is another name. -/
theorem append_ne {p t : String} (h : ¬ p.toList <+: t.toList) (r : String) : p ++ r ≠ t := by
  rintro rfl
  exact h ⟨r.toList, by simp⟩

/-- The name of the array of second factors. -/
def factorName (i : ℕ) : String := s!"psitilde_bs_{i}"

theorem factorName_injective : Function.Injective factorName := fun _ _ h =>
  Nat.repr_inj.mp ((String.append_right_inj _).mp h)

theorem factorName_ne {t : String} (h : ¬ "psitilde_bs_".toList <+: t.toList) (i : ℕ) :
    factorName i ≠ t := append_ne h _

theorem notMem_range_factorName {t : String} (h : ¬ "psitilde_bs_".toList <+: t.toList) :
    t ∉ Set.range factorName := by
  rintro ⟨i, hi⟩
  exact factorName_ne h i hi

end Names

section Point

variable {X Y ε : ℝ}

theorem eval_twice (k : ℕ) {z : ℝ} (hz : m.number "coordinates" [k] = some z) :
    (Expr.minus (.times (.halves 4) (.entry (.name "coordinates") (.natural k))) .one).eval m =
      some (2 * z - 1) := by
  have hentry : (Expr.entry (.name "coordinates") (.natural k)).eval m = some z := by
    rw [Expr.eval_entry (by decide), hz]
  have hfour : (Expr.halves 4).eval m = some 2 := by
    simp only [Expr.eval]
    norm_num
  exact Expr.eval_minus (Expr.eval_times hfour hentry false (by decide) rfl) Expr.eval_one (by decide)

/-- The coordinate on the square, away from the collapsed vertex. -/
theorem eval_collapsed {x y : ℝ} (hx : m.number "x" [] = some x) (hy : m.number "y" [] = some y)
    (hne : 1 - y ≠ 0) :
    (Expr.minus (.divide (.binary .mul true (.halves 4) (.parens (.plus .one (.name "x"))))
      (.parens (.minus .one (.name "y")))) .one).eval m = some (2 * (1 + x) / (1 - y) - 1) := by
  have hfour : (Expr.halves 4).eval m = some 2 := by
    simp only [Expr.eval]
    norm_num
  have hplus : (Expr.parens (.plus .one (.name "x"))).eval m = some (1 + x) :=
    Expr.eval_plus Expr.eval_one (by rw [Expr.eval_name (by decide), hx]) (by decide)
  have hminus : (Expr.parens (.minus .one (.name "y"))).eval m = some (1 - y) :=
    Expr.eval_minus Expr.eval_one (by rw [Expr.eval_name (by decide), hy]) (by decide)
  have hproduct := Expr.eval_times hfour hplus true (by decide) rfl
  exact Expr.eval_minus (Expr.eval_divide hproduct hminus (by decide) rfl hne) Expr.eval_one (by decide)

theorem value_collapsed {X Y : ℝ} (hne : 1 - Y ≠ 0) (k : ℕ) :
    (1 - Y) ^ k * Jacobi.value 0 0 k (2 * (1 + (2 * X - 1)) / (1 - (2 * Y - 1)) - 1) =
      (Jacobi.homogeneous 0 k (2 * X) (1 - Y)).value := by
  have hquotient : 2 * (1 + (2 * X - 1)) / (1 - (2 * Y - 1)) = 2 * X / (1 - Y) := by
    rw [show 1 - (2 * Y - 1) = 2 * (1 - Y) by ring, add_sub_cancel,
      mul_div_mul_left _ _ two_ne_zero]
  rw [Jacobi.homogeneous_value 0 _ hne, hquotient]

theorem value_vertex (ξ : ℝ) (k : ℕ) :
    (1 - 1 : ℝ) ^ k * Jacobi.value 0 0 k ξ = (Jacobi.homogeneous 0 k (2 * 0) (1 - 1 : ℝ)).value := by
  rw [mul_zero, sub_self, Jacobi.homogeneous_value_origin]
  match k with
  | 0 => rw [Jacobi.value_zero, pow_zero, one_mul, Scalar.numeral_one]
  | k + 1 => rw [zero_pow (by omega), zero_mul]

section Biunit

/-- The memory with the coordinates on the biunit triangle. -/
noncomputable def biunit (m : Memory) (X Y : ℝ) : Memory :=
  (m.write "x" [] (2 * X - 1)).write "y" [] (2 * Y - 1)

theorem biunit_x (m : Memory) (X Y : ℝ) : (biunit m X Y).number "x" [] = some (2 * X - 1) := by
  rw [biunit, write_number_of_ne _ (by decide), write_number]

theorem biunit_y (m : Memory) (X Y : ℝ) : (biunit m X Y).number "y" [] = some (2 * Y - 1) :=
  write_number _ _ _ _

theorem frame_biunit (m : Memory) (X Y : ℝ) : Frame {"x", "y"} m (biunit m X Y) :=
  (frame_write m _ _ _).trans (frame_write _ _ _ _)

theorem eval_height (m : Memory) (X Y : ℝ) :
    (Expr.minus (.name "y") .one).eval (biunit m X Y) = some (2 * Y - 2) := by
  have hname : (Expr.name "y").eval (biunit m X Y) = some (2 * Y - 1) := by
    rw [Expr.eval_name (by decide), biunit_y]
  rw [Expr.eval_minus hname Expr.eval_one (by decide), sub_sub, one_add_one_eq_two]

/-- The map to the square, up to the choice that it makes. -/
theorem run_coordinateMap_of (hX : m.number "coordinates" [0] = some X)
    (hY : m.number "coordinates" [1] = some Y) {ξ : ℝ}
    (hchoose : (Statement.choose (.minus (.name "y") .one) "DOLFIN_EPS" "x" (.halves (-2))
      (.minus (.divide (.binary .mul true (.halves 4) (.parens (.plus .one (.name "x"))))
        (.parens (.minus .one (.name "y")))) .one)).run (biunit m X Y) =
      some ((biunit m X Y).write "x" [] ξ)) :
    ∃ m', runAll coordinateMap m = some m' ∧ Frame {"x", "y"} m m' ∧
      m'.number "y" [] = some (2 * Y - 1) ∧ m'.number "x" [] = some ξ := by
  have hY' : (m.write "x" [] (2 * X - 1)).number "coordinates" [1] = some Y := by
    rw [write_number_of_ne _ (by decide), hY]
  refine ⟨(biunit m X Y).write "x" [] ξ, ?_, ?_, ?_, write_number _ _ _ _⟩
  · rw [coordinateMap, runAll_comment, runAll_cons_of (Statement.run_declare (eval_twice 0 hX) "x"),
      runAll_cons_of (Statement.run_declare (eval_twice 1 hY') "y"), runAll_blank, runAll_comment,
      ← biunit, runAll_cons_of hchoose, runAll_blank, runAll_nil]
  · exact ((frame_biunit m X Y).trans (frame_write _ _ _ _)).mono (by simp)
  · rw [write_number_of_ne _ (by decide), biunit_y]

end Biunit

/-- The map to the square: the first factors of the expansion set are the homogenised polynomials. -/
theorem run_coordinateMap (hX : m.number "coordinates" [0] = some X)
    (hY : m.number "coordinates" [1] = some Y) (hbound : m.number "DOLFIN_EPS" [] = some ε)
    (hε : 0 < ε) (hpoint : ε ≤ |2 * Y - 2| ∨ X = 0 ∧ Y = 1) :
    ∃ m' ξ, runAll coordinateMap m = some m' ∧ Frame {"x", "y"} m m' ∧
      m'.number "y" [] = some (2 * Y - 1) ∧ m'.number "x" [] = some ξ ∧
      ∀ k, (1 - Y) ^ k * Jacobi.value 0 0 k ξ = (Jacobi.homogeneous 0 k (2 * X) (1 - Y)).value := by
  have hbound' : (biunit m X Y).number "DOLFIN_EPS" [] = some ε := by
    rw [(frame_biunit m X Y).number _ (by decide), hbound]
  -- Away from the vertex the quotient is defined; at the vertex only the constant polynomial is left, so
  -- it does not matter which coordinate on the square is taken.
  rcases hpoint with hfar | ⟨rfl, rfl⟩
  · have hne : 1 - Y ≠ 0 := by
      intro h
      rw [show 2 * Y - 2 = -2 * (1 - Y) by ring, h, mul_zero, abs_zero] at hfar
      linarith
    have hlarge := eval_collapsed (biunit_x m X Y) (biunit_y m X Y) (by
      rw [show 1 - (2 * Y - 1) = 2 * (1 - Y) by ring]
      exact mul_ne_zero two_ne_zero hne)
    obtain ⟨m', hrun, hframe, hy, hx⟩ := run_coordinateMap_of hX hY
      (Statement.run_choose_large (eval_height m X Y) hbound' hfar hlarge)
    exact ⟨m', _, hrun, hframe, hy, hx, value_collapsed hne⟩
  · have hzero : |(2 : ℝ) * 1 - 2| < ε := by
      rw [mul_one, sub_self, abs_zero]
      exact hε
    have hvertex : (Expr.halves (-2)).eval (biunit m 0 1) = some (-1) := by
      simp only [Expr.eval]
      norm_num
    obtain ⟨m', hrun, hframe, hy, hx⟩ := run_coordinateMap_of hX hY
      (Statement.run_choose_small (eval_height m 0 1) hbound' hzero hvertex)
    exact ⟨m', _, hrun, hframe, hy, hx, value_vertex _⟩

end Point
section Factors

variable {Y : ℝ}

/-- Code that initializes an array, each value from those before it. -/
theorem run_titledArray {title s : String} {f : ℕ → ℝ} {vs : List (Initial ℝ)} {n : ℕ}
    (hlength : vs.length = n) (hvs : ∀ j v, vs[j]? = some v → ∀ m', Frame {s} m m' →
      (∀ l < j, m'.number s [l] = some (f l)) → v.eval m' = some (f j)) :
    ∃ m', runAll [.comment title, .array s vs, .blank] m = some m' ∧ Frame {s} m m' ∧
      ∀ l < n, m'.number s [l] = some (f l) := by
  obtain ⟨m', hrun, hframe, hm'⟩ := Statement.run_array hvs
  rw [hlength] at hm'
  refine ⟨m', ?_, hframe, hm'⟩
  rw [runAll_comment, runAll_cons_of hrun, runAll_blank, runAll_nil]

theorem eval_scaling (hy : m.number "y" [] = some (2 * Y - 1)) {k : ℕ} {z : ℝ}
    (hk : m.number "scalings" [k] = some z) :
    (Expr.times (.entry (.name "scalings") (.natural k))
      (.parens (.minus (.halves 1) (.binary .mul true (.halves 1) (.name "y"))))).eval m =
      some (z * (1 - Y)) := by
  have hentry : (Expr.entry (.name "scalings") (.natural k)).eval m = some z := by
    rw [Expr.eval_entry (by decide), hk]
  have hhalf : (Expr.halves 1).eval m = some (1 / 2) := by
    simp only [Expr.eval, Int.cast_one]
  have hname : (Expr.name "y").eval m = some (2 * Y - 1) := by rw [Expr.eval_name (by decide), hy]
  have hproduct := Expr.eval_times hhalf hname true (by decide) rfl
  have hminus : (Expr.parens (.minus (.halves 1) (.binary .mul true (.halves 1) (.name "y")))).eval m =
      some (1 - Y) := by
    rw [Expr.eval, Expr.eval_minus hhalf hproduct (by decide)]
    congr 1
    ring
  exact Expr.eval_times hentry hminus false (Nat.one_le_ofNat (n := 3)) rfl

theorem run_scalings (hy : m.number "y" [] = some (2 * Y - 1)) (n : ℕ) :
    ∃ m', runAll (scalings n) m = some m' ∧ Frame {"scalings"} m m' ∧
      ∀ k < n + 1, m'.number "scalings" [k] = some ((1 - Y) ^ k) := by
  refine run_titledArray (by simp) fun j v hv m' hframe hl => ?_
  match j with
  | 0 =>
    obtain rfl := Option.some.inj hv
    rw [Initial.eval, Expr.eval_one, pow_zero]
  | j + 1 =>
    rw [List.getElem?_cons_succ, List.getElem?_map, Option.map_eq_some_iff] at hv
    obtain ⟨i, hi, rfl⟩ := hv
    obtain ⟨hi, rfl⟩ := List.getElem?_eq_some_iff.mp hi
    have hy' : m'.number "y" [] = some (2 * Y - 1) := by rw [hframe.number "y" (by decide), hy]
    rw [List.getElem_range, Initial.eval, eval_scaling hy' (hl j (by omega)), pow_succ]

theorem run_firstFactors {ξ : ℝ} (hx : m.number "x" [] = some ξ) (n : ℕ) :
    ∃ m', runAll (firstFactors n) m = some m' ∧ Frame {"psitilde_a"} m m' ∧
      ∀ k < n + 1, m'.number "psitilde_a" [k] = some (Jacobi.value 0 0 k ξ) := by
  refine run_titledArray (length_recurrence _ _ _ _) fun j v hv m' hframe hl => ?_
  rw [Scalar.numeral_zero] at hv
  exact eval_recurrence (.inl rfl) (by decide) (by decide) hv
    (by rw [hframe.number "x" (by decide), hx]) hl

/-- One array of second factors. -/
theorem run_secondFactor {y : ℝ} (hy : m.number "y" [] = some y) {n i : ℕ} (hn : n ≤ 10 ^ 6)
    (hi : i ≤ n) :
    ∃ m', (Statement.array (factorName i)
        (recurrence (2 * (i : ℝ) + 1) (n - i) "y" (factorName i))).run m = some m' ∧
      Frame {factorName i} m m' ∧
      ∀ j ≤ n - i, m'.number (factorName i) [j] = some (Jacobi.value (2 * (i : ℝ) + 1) 0 j y) := by
  have hi' : (i : ℝ) ≤ n := by exact_mod_cast hi
  have hparameter : Parameter (2 * (i : ℝ) + 1) (n - i) :=
    .inr ⟨by linarith [Nat.cast_nonneg (α := ℝ) i], n, hn, by linarith, by omega⟩
  exact run_recurrence hparameter (by decide) (factorName_ne (by decide) i)
    (factorName_ne (by decide) i).symm hy

theorem run_secondFactors {y : ℝ} (hy : m.number "y" [] = some y) {n : ℕ} (hn : n ≤ 10 ^ 6) :
    ∃ m', runAll (secondFactors n) m = some m' ∧ Frame (Set.range factorName) m m' ∧
      ∀ i ≤ n, ∀ j ≤ n - i,
        m'.number (factorName i) [j] = some (Jacobi.value (2 * (i : ℝ) + 1) 0 j y) := by
  have hround : ∀ k < n + 1, ∀ m', (Frame (Set.range factorName) m m' ∧ ∀ i < k, ∀ j ≤ n - i,
        m'.number (factorName i) [j] = some (Jacobi.value (2 * (i : ℝ) + 1) 0 j y)) →
      ∃ m'', runAll [.array (factorName k)
          (recurrence (2 * (k : ℝ) + 1) (n - k) "y" (factorName k))] m' = some m'' ∧
        Frame (Set.range factorName) m m'' ∧ ∀ i < k + 1, ∀ j ≤ n - i,
          m''.number (factorName i) [j] = some (Jacobi.value (2 * (i : ℝ) + 1) 0 j y) := by
    rintro k hk m₁ ⟨hframe₁, hfactors⟩
    have hy₁ : m₁.number "y" [] = some y := by
      rw [hframe₁.number "y" (notMem_range_factorName (by decide)), hy]
    obtain ⟨m₂, hrun, hframe₂, hlast⟩ := run_secondFactor hy₁ hn (i := k) (by omega)
    refine ⟨m₂, by rw [runAll_cons_of hrun, runAll_nil], ?_, fun i hi j hj => ?_⟩
    · exact (hframe₁.trans hframe₂).mono (Set.union_subset (Set.Subset.refl _) (by simp))
    · rcases Nat.lt_succ_iff_lt_or_eq.mp hi with hi | rfl
      · have hne : factorName i ≠ factorName k := factorName_injective.ne (by omega)
        rw [hframe₂.number _ hne, hfactors i hi j hj]
      · exact hlast j hj
  obtain ⟨m', hrun, hframe, hm'⟩ := runAll_rounds (m := m) ⟨Frame.refl _ m, by omega⟩ hround
  refine ⟨m', ?_, hframe, fun i hi => hm' i (by omega)⟩
  simp only [secondFactors, Scalar.numeral_one, List.cons_append, runAll_comment, List.map_eq_flatMap]
  exact runAll_append_of hrun rfl

end Factors

section Members

variable {X Y ξ : ℝ} {n : ℕ}

theorem mem_triangleModes {i j : ℕ} : (i, j) ∈ Expansion.triangleModes n ↔ i + j ≤ n := by
  simp only [Expansion.triangleModes, List.mem_flatMap, List.mem_map, List.mem_range, Prod.mk.injEq]
  constructor
  · rintro ⟨k, hk, l, hl, rfl, rfl⟩
    omega
  · intro h
    exact ⟨i + j, by omega, j, by omega, by omega, rfl⟩

/-- The members of the expansion set at a point. -/
noncomputable def members (n : ℕ) (X Y : ℝ) : List ℝ :=
  ((Expansion.triangleModes n).map fun (i, j) => Expansion.triangleMember i j X Y).map (·.value)

theorem length_members (n : ℕ) (X Y : ℝ) : (members n X Y).length = Expansion.count .triangle n := by
  rw [members, List.length_map, List.length_map, Expansion.length_triangleModes]

theorem triangleMember_value (hξ : ∀ k, (1 - Y) ^ k * Jacobi.value 0 0 k ξ =
    (Jacobi.homogeneous 0 k (2 * X) (1 - Y)).value) (i j : ℕ) :
    (Expansion.triangleMember i j X Y).value =
      Jacobi.value 0 0 i ξ * (1 - Y) ^ i * Jacobi.value (2 * (i : ℝ) + 1) 0 j (2 * Y - 1) *
        Scalar.sqrt (((i : ℝ) + 1 / 2) * ((i : ℝ) + j + 1)) := by
  simp only [Expansion.triangleMember, Scalar.numeral_zero, Scalar.numeral_one]
  rw [mul_comm (Jacobi.value 0 0 i ξ), hξ i]

theorem eval_member {i j : ℕ} {p q r c : ℝ} (hp : m.number "psitilde_a" [i] = some p)
    (hq : m.number "scalings" [i] = some q) (hr : m.number (factorName i) [j] = some r) (hc : 0 ≤ c) :
    (Expr.times (.binary .mul true (.binary .mul true (.entry (.name "psitilde_a") (.natural i))
      (.entry (.name "scalings") (.natural i))) (.entry (.name (factorName i)) (.natural j)))
      (.literal c)).eval m = some (p * q * r * c) := by
  have htight : (Expr.literal c).tightness = 3 := if_neg (not_lt.mpr hc)
  have hfirst : (Expr.entry (.name "psitilde_a") (.natural i)).eval m = some p := by
    rw [Expr.eval_entry (by decide), hp]
  have hscaling : (Expr.entry (.name "scalings") (.natural i)).eval m = some q := by
    rw [Expr.eval_entry (by decide), hq]
  have hsecond : (Expr.entry (.name (factorName i)) (.natural j)).eval m = some r := by
    rw [Expr.eval_entry (factorName_ne (by decide) i), hr]
  have htwo := Expr.eval_times hfirst hscaling true (Nat.one_le_ofNat (n := 3)) rfl
  have hthree := Expr.eval_times htwo hsecond true (le_refl 1) rfl
  have hliteral : (Expr.literal c).eval m = some c := rfl
  exact Expr.eval_times hthree hliteral false (le_refl 1) htight

theorem run_basisValues (hfirst : ∀ k < n + 1, m.number "psitilde_a" [k] = some (Jacobi.value 0 0 k ξ))
    (hscalings : ∀ k < n + 1, m.number "scalings" [k] = some ((1 - Y) ^ k))
    (hsecond : ∀ i ≤ n, ∀ j ≤ n - i, m.number (factorName i) [j] =
      some (Jacobi.value (2 * (i : ℝ) + 1) 0 j (2 * Y - 1)))
    (hξ : ∀ k, (1 - Y) ^ k * Jacobi.value 0 0 k ξ =
      (Jacobi.homogeneous 0 k (2 * X) (1 - Y)).value) :
    ∃ m', runAll (basisValues n) m = some m' ∧ Frame {"basisvalues"} m m' ∧
      ∀ k < Expansion.count .triangle n,
        m'.number "basisvalues" [k] = some ((members n X Y).getD k 0) := by
  refine run_titledArray (by rw [List.length_map, Expansion.length_triangleModes]) fun k v hv m' hframe _ => ?_
  rw [List.getElem?_map, Option.map_eq_some_iff] at hv
  obtain ⟨⟨i, j⟩, hmode, rfl⟩ := hv
  have hij : i + j ≤ n := mem_triangleModes.mp (List.mem_of_getElem? hmode)
  have hmember : (members n X Y).getD k 0 = (Expansion.triangleMember i j X Y).value := by
    rw [members, List.getD_eq_getElem?_getD, List.getElem?_map, List.getElem?_map, hmode, Option.map_some,
      Option.map_some, Option.getD_some]
  have hfactor : factorName i ∉ ({"basisvalues"} : Set String) := factorName_ne (by decide) i
  rw [hmember, triangleMember_value hξ]
  simp only [Scalar.numeral_one]
  apply eval_member
  · rw [hframe.number _ (by decide), hfirst i (by omega)]
  · rw [hframe.number _ (by decide), hscalings i (by omega)]
  · rw [hframe.number _ hfactor, hsecond i (by omega) j (by omega)]
  · exact Real.sqrt_nonneg _

/-- The names that the code for the expansion set writes to. -/
def expansionNames : Set String :=
  {"x", "y"} ∪ {"scalings"} ∪ {"psitilde_a"} ∪ Set.range factorName ∪ {"basisvalues"}

/-- The code for the expansion set leaves its members at the point. -/
theorem run_expansion {ε : ℝ} (hX : m.number "coordinates" [0] = some X)
    (hY : m.number "coordinates" [1] = some Y) (hbound : m.number "DOLFIN_EPS" [] = some ε)
    (hε : 0 < ε) (hpoint : ε ≤ |2 * Y - 2| ∨ X = 0 ∧ Y = 1) (hn : n ≤ 10 ^ 6) :
    ∃ m', runAll (coordinateMap ++ scalings n ++ firstFactors n ++ secondFactors n ++ basisValues n) m =
        some m' ∧ Frame expansionNames m m' ∧
      ∀ k < Expansion.count .triangle n,
        m'.number "basisvalues" [k] = some ((members n X Y).getD k 0) := by
  obtain ⟨m₁, ξ, hrun₁, hframe₁, hy₁, hx₁, hξ⟩ := run_coordinateMap hX hY hbound hε hpoint
  obtain ⟨m₂, hrun₂, hframe₂, hscalings₂⟩ := run_scalings hy₁ n
  have hx₂ : m₂.number "x" [] = some ξ := by rw [hframe₂.number "x" (by decide), hx₁]
  obtain ⟨m₃, hrun₃, hframe₃, hfirst₃⟩ := run_firstFactors hx₂ n
  have hy₃ : m₃.number "y" [] = some (2 * Y - 1) := by
    rw [hframe₃.number "y" (by decide), hframe₂.number "y" (by decide), hy₁]
  obtain ⟨m₄, hrun₄, hframe₄, hsecond₄⟩ := run_secondFactors hy₃ hn
  have hfirst₄ : ∀ k < n + 1, m₄.number "psitilde_a" [k] = some (Jacobi.value 0 0 k ξ) := by
    intro k hk
    rw [hframe₄.number _ (notMem_range_factorName (by decide)), hfirst₃ k hk]
  have hscalings₄ : ∀ k < n + 1, m₄.number "scalings" [k] = some ((1 - Y) ^ k) := by
    intro k hk
    rw [hframe₄.number _ (notMem_range_factorName (by decide)),
      hframe₃.number _ (by decide), hscalings₂ k hk]
  obtain ⟨m₅, hrun₅, hframe₅, hmembers⟩ := run_basisValues hfirst₄ hscalings₄ hsecond₄ hξ
  refine ⟨m₅, ?_, ((((hframe₁.trans hframe₂).trans hframe₃).trans hframe₄).trans hframe₅), hmembers⟩
  exact runAll_append_of (runAll_append_of (runAll_append_of (runAll_append_of hrun₁ hrun₂) hrun₃) hrun₄)
    hrun₅

end Members
end Variational.BasisEvaluation
