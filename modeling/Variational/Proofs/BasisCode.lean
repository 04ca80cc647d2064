import Variational.Proofs.ExpansionCode
import Variational.Proofs.Results

/-! The code that evaluates the basis functions of an element on the triangle computes the values that
the element has in its table: the products of the coefficients with the members of the expansion set. -/
namespace Variational.BasisEvaluation
open Code Code.Memory

variable {e : PolynomialElement ℝ} {m : Memory}

/-- Each basis function has all components, and each component all coefficients. -/
def Complete (e : PolynomialElement ℝ) : Prop :=
  ∀ row ∈ e.coefficients, e.valueSize ≤ row.length ∧
    ∀ component ∈ row, component.length = Expansion.count e.cell e.embeddedDegree

/-- The coefficients of a component of a basis function. -/
def component (e : PolynomialElement ℝ) (i c : ℕ) : List ℝ := (e.coefficients.getD i []).getD c []

section Complete

variable {i c : ℕ} (h : Complete e) (hi : i < e.dimension) (hc : c < e.valueSize)
include h hi hc

theorem Complete.getElem?_coefficients :
    (e.coefficients[i]?).bind (·[c]?) = some (component e i c) := by
  have hrow := (h _ (List.getElem_mem hi)).1
  rw [List.getElem?_eq_getElem hi, Option.bind_some, List.getElem?_eq_getElem (by omega), component,
    List.getD_eq_getElem _ _ hi, List.getD_eq_getElem _ _ (by omega)]

theorem Complete.length_component :
    (component e i c).length = Expansion.count e.cell e.embeddedDegree := by
  have hrow := h _ (List.getElem_mem hi)
  rw [component, List.getD_eq_getElem _ _ hi, List.getD_eq_getElem _ _ (by omega)]
  exact hrow.2 _ (List.getElem_mem _)

end Complete

section Tables

/-- The rows of the table for a component. -/
def tableRows (e : PolynomialElement ℝ) (c : ℕ) : List (List ℝ) := e.coefficients.map (·.getD c [])

def tableCode (e : PolynomialElement ℝ) (c : ℕ) : List (Statement ℝ) :=
  [.table "const static" (tableName e c) [e.dimension, Expansion.count e.cell e.embeddedDegree]
    ((tableRows e c).map .flat), .blank]

theorem coefficientTables_eq (h : Complete e) :
    coefficientTables e =
      .ok (.comment "Table of coefficients" :: (List.range e.valueSize).flatMap (tableCode e)) := by
  have hrows : ∀ c ∈ List.range e.valueSize,
      (e.coefficients.mapM fun row => inRange row[c]?) = .ok (tableRows e c) := by
    intro c hc
    refine Result.mapM_of_forall fun row hrow => ?_
    have hlength := (h row hrow).1
    rw [List.mem_range] at hc
    rw [Result.inRange_eq_ok, List.getD_eq_getElem?_getD, List.getElem?_eq_getElem (by omega),
      Option.getD_some]
  have htables : ((List.range e.valueSize).mapM fun c => do
      let rows ← e.coefficients.mapM fun row => inRange row[c]?
      return [Statement.table "const static" (tableName e c)
        [e.dimension, Expansion.count e.cell e.embeddedDegree] (rows.map Row.flat), .blank]) =
      .ok ((List.range e.valueSize).map (tableCode e)) := by
    refine Result.mapM_of_forall fun c hc => ?_
    rw [Result.bind_eq_ok]
    exact ⟨tableRows e c, hrows c hc, rfl⟩
  rw [coefficientTables, Result.bind_eq_ok]
  exact ⟨_, htables, rfl⟩

theorem tableName_ne {t : String} (h : ¬ "coefficients".toList <+: t.toList) (c : ℕ) :
    tableName e c ≠ t := by
  rw [tableName]
  split
  · exact append_ne h ""
  · exact append_ne (p := "coefficients") h ("_" ++ toString c)

theorem tableName_injOn : Set.InjOn (tableName e) {c | c < e.valueSize} := by
  intro c hc d hd hname
  rw [Set.mem_ofPred_eq] at hc hd
  by_cases hone : e.valueSize = 1
  · omega
  · rw [tableName, tableName, if_neg hone, if_neg hone] at hname
    exact Nat.repr_inj.mp ((String.append_right_inj _).mp hname)

theorem tableName_notMem (c : ℕ) : tableName e c ∉ expansionNames := by
  simp only [expansionNames, Set.mem_union, Set.mem_insert_iff, Set.mem_singleton_iff, Set.mem_range,
    not_or, not_exists]
  refine ⟨⟨⟨⟨⟨?_, ?_⟩, ?_⟩, ?_⟩, fun i hi => ?_⟩, ?_⟩
  case refine_5 =>
    have hstart : ¬ "coefficients".toList <+: (factorName i).toList := by
      rw [show factorName i = "psitilde_bs_" ++ toString i from rfl, String.toList_append]
      simp
    exact tableName_ne hstart c hi.symm
  all_goals exact tableName_ne (by decide) c

theorem getD_tableRows (i c : ℕ) : (tableRows e c).getD i [] = component e i c := by
  simp only [tableRows, component, List.getD_eq_getElem?_getD, List.getElem?_map]
  cases e.coefficients[i]? <;> simp

/-- Some tables hold the coefficients. -/
def Holds (e : PolynomialElement ℝ) (n : ℕ) (m : Memory) : Prop :=
  ∀ c < n, ∀ i < e.dimension, ∀ j < Expansion.count e.cell e.embeddedDegree,
    m.number (tableName e c) [i, j] = some ((component e i c).getD j 0)

theorem run_tableCode (h : Complete e) {c : ℕ} (hc : c < e.valueSize) (hm : Holds e c m) :
    ∃ m', runAll (tableCode e c) m = some m' ∧ Frame (Set.range (tableName e)) m m' ∧
      Holds e (c + 1) m' := by
  have hrows : ∀ row ∈ tableRows e c, row.length = Expansion.count e.cell e.embeddedDegree := by
    intro row hrow
    obtain ⟨member, hmember, rfl⟩ := List.mem_map.mp hrow
    have hcomponents := h member hmember
    rw [List.getD_eq_getElem _ _ (by omega)]
    exact hcomponents.2 _ (List.getElem_mem _)
  have hrun := Statement.run_table hrows "const static" (tableName e c) m
  have hlength : (tableRows e c).length = e.dimension := List.length_map _
  rw [hlength] at hrun
  refine ⟨_, by rw [tableCode, runAll_cons_of hrun, runAll_blank, runAll_nil],
    (frame_define _ _ _).mono (by simp), fun d hd i hi j hj => ?_⟩
  rcases Nat.lt_succ_iff_lt_or_eq.mp hd with hd | rfl
  · have hne : tableName e d ≠ tableName e c := by
      intro hname
      have : d = c := tableName_injOn (hd.trans hc) hc hname
      omega
    rw [define_number_of_ne _ hne, hm d hd i hi j hj]
  · rw [define_number, tableNumber_flat _ hi hj, getD_tableRows]

theorem run_tables (h : Complete e) (m : Memory) :
    ∃ m', runAll ((List.range e.valueSize).flatMap (tableCode e)) m = some m' ∧
      Frame (Set.range (tableName e)) m m' ∧ Holds e e.valueSize m' := by
  have hstart : Frame (Set.range (tableName e)) m m ∧ Holds e 0 m := ⟨Frame.refl _ m, by
    intro c hc
    omega⟩
  refine runAll_rounds (P := fun c m' => Frame (Set.range (tableName e)) m m' ∧ Holds e c m')
    hstart fun c hc m₁ hm₁ => ?_
  obtain ⟨m₂, hrun, hframe, hholds⟩ := run_tableCode h hc hm₁.2
  exact ⟨m₂, hrun, (hm₁.1.trans hframe).mono (by simp), hholds⟩

end Tables

section Products

variable {i : ℕ} {vs : List ℝ}

/-- A component of a basis function, from the values of the expansion set. -/
noncomputable def componentValue (e : PolynomialElement ℝ) (i c : ℕ) (vs : List ℝ) : ℝ :=
  ∑ j ∈ Finset.range (Expansion.count e.cell e.embeddedDegree), (component e i c).getD j 0 * vs.getD j 0

/-- The place of a component in the result. -/
def target (e : PolynomialElement ℝ) (c : ℕ) : Expr ℝ :=
  if e.valueSize = 1 then .name "*values" else .entry (.name "values") (.natural c)

theorem place_target {c : ℕ} (hc : c < e.valueSize) (m : Memory) :
    (target e c).place? m = some ("values", [c]) := by
  rw [target]
  split
  · obtain rfl : c = 0 := by omega
    rfl
  · rfl

theorem eval_product {table : String} (htable : table ≠ "*values") {j : ℕ} {x y : ℝ}
    (hi : m.counter "i" = some i) (hj : m.counter "j" = some j) (hx : m.number table [i, j] = some x)
    (hy : m.number "basisvalues" [j] = some y) :
    (Expr.times (.entry (.entry (.name table) (.name "i")) (.name "j"))
      (.entry (.name "basisvalues") (.name "j"))).eval m = some (x * y) := by
  have hcoefficient : (Expr.entry (.entry (.name table) (.name "i")) (.name "j")).eval m = some x := by
    simp [Expr.eval, Expr.place?, Expr.index?, htable, hi, hj, hx]
  have hmember : (Expr.entry (.name "basisvalues") (.name "j")).eval m = some y := by
    simp [Expr.eval, Expr.place?, Expr.index?, hj, hy]
  exact Expr.eval_times hcoefficient hmember false (Nat.one_le_ofNat (n := 3)) rfl

theorem run_component (hi : i < e.dimension) (hcounter : m.counter "i" = some i)
    (htables : Holds e e.valueSize m)
    (hmembers : ∀ k < Expansion.count e.cell e.embeddedDegree,
      m.number "basisvalues" [k] = some (vs.getD k 0)) {c : ℕ} (hc : c < e.valueSize) :
    ∃ m', runAll [.assign (target e c) (.halves 0),
        .loop [("j", Expansion.count e.cell e.embeddedDegree)] (target e c) true
          (.times (.entry (.entry (.name (tableName e c)) (.name "i")) (.name "j"))
            (.entry (.name "basisvalues") (.name "j")))] m = some m' ∧
      Frame {"values"} m m' ∧ m'.number "values" [c] = some (componentValue e i c vs) ∧
      ∀ d, d ≠ c → m'.number "values" [d] = m.number "values" [d] := by
  have hzero : (Expr.halves 0).eval m = some 0 := by
    simp only [Expr.eval, Int.cast_zero, zero_div]
  have hassign := Statement.run_assign (place_target hc m) hzero
  have hround : ∀ j < Expansion.count e.cell e.embeddedDegree, ∀ m' : Memory,
      (∀ t, t ≠ "values" → m'.number t = (m.write "values" [c] 0).number t) →
      m'.counter = Function.update (m.write "values" [c] 0).counter "j" (some j) →
      (Expr.times (.entry (.entry (.name (tableName e c)) (.name "i")) (.name "j"))
        (.entry (.name "basisvalues") (.name "j"))).eval m' =
        some ((component e i c).getD j 0 * vs.getD j 0) := by
    intro j hj m' hm' hcounter'
    have htable : tableName e c ≠ "values" := tableName_ne (by decide) c
    apply eval_product (tableName_ne (by decide) c)
    · rw [hcounter', Function.update_of_ne (by decide)]
      exact hcounter
    · rw [hcounter', Function.update_self]
    · rw [hm' _ htable, write_number_of_ne _ htable, htables c hc i hi j hj]
    · rw [hm' _ (by decide), write_number_of_ne _ (by decide), hmembers j hj]
  obtain ⟨m', hrun, hframe, hindices, hsum⟩ := Statement.run_loop_sum
    (write_number m "values" [c] 0) (place_target hc) hround
  rw [zero_add] at hsum
  refine ⟨m', ?_, ((frame_write _ _ _ _).trans hframe).mono (by simp), hsum, fun d hd => ?_⟩
  · rw [runAll_cons_of hassign, runAll_cons_of hrun, runAll_nil]
  · have hne : [d] ≠ [c] := by simpa using hd
    rw [hindices [d] hne, write_number_of_index_ne _ _ hne]

theorem run_dotProduct (hi : i < e.dimension) (hcounter : m.counter "i" = some i)
    (htables : Holds e e.valueSize m)
    (hmembers : ∀ k < Expansion.count e.cell e.embeddedDegree,
      m.number "basisvalues" [k] = some (vs.getD k 0)) :
    ∃ m', runAll (dotProduct e) m = some m' ∧
      ∀ c < e.valueSize, m'.number "values" [c] = some (componentValue e i c vs) := by
  have hstart : Frame {"values"} m m ∧
      ∀ d < 0, m.number "values" [d] = some (componentValue e i d vs) := ⟨Frame.refl _ m, by omega⟩
  obtain ⟨m', hrun, -, hvalues⟩ := runAll_rounds (P := fun c m' => Frame {"values"} m m' ∧
      ∀ d < c, m'.number "values" [d] = some (componentValue e i d vs)) (n := e.valueSize) hstart
    fun c hc m₁ ⟨hframe₁, hvalues₁⟩ => by
      -- The rounds before have written to the result only.
      have htables₁ : Holds e e.valueSize m₁ := by
        intro d hd k hk j hj
        rw [hframe₁.number _ (tableName_ne (by decide) d), htables d hd k hk j hj]
      have hmembers₁ : ∀ k < Expansion.count e.cell e.embeddedDegree,
          m₁.number "basisvalues" [k] = some (vs.getD k 0) := by
        intro k hk
        rw [hframe₁.number _ (by decide), hmembers k hk]
      obtain ⟨m₂, hrun, hframe₂, hvalue, hother⟩ :=
        run_component hi (by rw [hframe₁.counter, hcounter]) htables₁ hmembers₁ hc
      refine ⟨m₂, hrun, (hframe₁.trans hframe₂).mono (by simp), fun d hd => ?_⟩
      rcases Nat.lt_succ_iff_lt_or_eq.mp hd with hd | rfl
      · rw [hother d (by omega), hvalues₁ d hd]
      · exact hvalue
  exact ⟨m', hrun, hvalues⟩

end Products

section Agreement

variable {i : ℕ} {X Y : ℝ}

theorem tabulate_eq (hcell : e.cell = .triangle) (X Y : ℝ) :
    e.tabulate [0, 0] [[X, Y]] = .ok (e.coefficients.map
      (·.map fun row => [Scalar.dot row (members e.embeddedDegree X Y)])) := by
  have hvalues : Expansion.derivative .triangle e.embeddedDegree [0, 0] [[X, Y]] =
      .ok [members e.embeddedDegree X Y] := by
    change Expansion.values .triangle e.embeddedDegree [[X, Y]] = _
    rw [Expansion.values, Expansion.tabulate, List.mapM_cons, Expansion.jets_eq_inOrder]
    rfl
  rw [PolynomialElement.tabulate, hcell, hvalues]
  rfl

theorem dot_members (hcell : e.cell = .triangle) (hcomplete : Complete e) (hi : i < e.dimension) {c : ℕ}
    (hc : c < e.valueSize) : Scalar.dot (component e i c) (members e.embeddedDegree X Y) =
      componentValue e i c (members e.embeddedDegree X Y) := by
  have hlength := hcomplete.length_component hi hc
  have hmembers : (members e.embeddedDegree X Y).length = Expansion.count e.cell e.embeddedDegree := by
    rw [length_members, hcell]
  rw [Scalar.dot_eq _ _ (hlength.trans hmembers.symm), hlength, componentValue]

theorem body_eq (hcell : e.cell = .triangle) (hcomplete : Complete e) :
    body e = .ok (.comment "Table of coefficients" :: ((List.range e.valueSize).flatMap (tableCode e) ++
      (coordinateMap ++ scalings e.embeddedDegree ++ firstFactors e.embeddedDegree ++
        secondFactors e.embeddedDegree ++ basisValues e.embeddedDegree) ++ dotProduct e)) := by
  rw [body, hcell, coefficientTables_eq hcomplete]
  simp only [← List.append_assoc]
  rfl

theorem getElem?_tabulated (hcomplete : Complete e) (hi : i < e.dimension) {c : ℕ} (hc : c < e.valueSize)
    (f : List ℝ → ℝ) :
    (((e.coefficients.map (·.map fun row => [f row]))[i]?).bind (·[c]?)).bind (·[0]?) =
      some (f (component e i c)) := by
  have hcomponent := hcomplete.getElem?_coefficients hi hc
  rw [Option.bind_eq_some_iff] at hcomponent
  obtain ⟨row, hrow, hcomponent⟩ := hcomponent
  rw [List.getElem?_map, hrow, Option.map_some, Option.bind_some, List.getElem?_map, hcomponent]
  rfl

/-- The function for basis function `i` is called at a point. -/
structure Called (m : Memory) (i : ℕ) (X Y : ℝ) : Prop where
  first : m.number "coordinates" [0] = some X
  second : m.number "coordinates" [1] = some Y
  dof : m.counter "i" = some i
  bound : m.number "DOLFIN_EPS" [] = some (3 / 10 ^ 16)

/-- The memory at a call. -/
noncomputable def call (i : ℕ) (X Y : ℝ) : Memory :=
  let empty : Memory := ⟨fun _ _ => none, fun _ => none⟩
  (((empty.write "coordinates" [0] X).write "coordinates" [1] Y).write "DOLFIN_EPS" []
    (3 / 10 ^ 16)).setCounter "i" i

theorem called_call (i : ℕ) (X Y : ℝ) : Called (call i X Y) i X Y := by
  constructor
  · rfl
  · rfl
  · rfl
  · rfl

/-- The code for an element on the triangle leaves in each component of the result the value that the
element has in its table at the point. -/
theorem body_agrees_with_tabulate (hcell : e.cell = .triangle) (hcomplete : Complete e)
    (hdegree : e.embeddedDegree ≤ 10 ^ 6) (hpoint : 3 / 10 ^ 16 ≤ |2 * Y - 2| ∨ X = 0 ∧ Y = 1)
    (hi : i < e.dimension) (hm : Called m i X Y) :
    ∃ code m' table, body e = .ok code ∧ runAll code m = some m' ∧
      e.tabulate [0, 0] [[X, Y]] = .ok table ∧
      ∀ c < e.valueSize, ∃ x, ((table[i]?).bind (·[c]?)).bind (·[0]?) = some x ∧
        m'.number "values" [c] = some x := by
  obtain ⟨m₁, hrun₁, hframe₁, htables₁⟩ := run_tables hcomplete m
  have hkeep (t : String) (ht : ¬ "coefficients".toList <+: t.toList) : m₁.number t = m.number t :=
    hframe₁.number t (by
      rintro ⟨c, hname⟩
      exact tableName_ne ht c hname)
  obtain ⟨m₂, hrun₂, hframe₂, hmembers₂⟩ := run_expansion
    (by rw [hkeep _ (by decide), hm.first]) (by rw [hkeep _ (by decide), hm.second])
    (by rw [hkeep _ (by decide), hm.bound]) (by norm_num) hpoint hdegree
  have htables₂ : Holds e e.valueSize m₂ := by
    intro c hc k hk j hj
    rw [hframe₂.number _ (tableName_notMem c), htables₁ c hc k hk j hj]
  rw [← hcell] at hmembers₂
  obtain ⟨m₃, hrun₃, hvalues⟩ := run_dotProduct hi (by rw [hframe₂.counter, hframe₁.counter, hm.dof])
    htables₂ hmembers₂
  refine ⟨_, m₃, _, body_eq hcell hcomplete, ?_, tabulate_eq hcell X Y, fun c hc => ⟨_, ?_, hvalues c hc⟩⟩
  · rw [runAll_comment]
    exact runAll_append_of (runAll_append_of hrun₁ hrun₂) hrun₃
  · rw [getElem?_tabulated hcomplete hi hc (Scalar.dot · (members e.embeddedDegree X Y)),
      dot_members hcell hcomplete hi hc]

/-- A function with two linear components. -/
noncomputable def linearPair : PolynomialElement ℝ :=
  { family := "Pair", cell := .triangle, degree := 1, embeddedDegree := 1, map := .identity,
    valueShape := [2], coefficients := [[[1, 0, 2], [0, 3, -1]]], entityDofs := [] }

theorem body_linearPair : ∃ code m' table, body linearPair = .ok code ∧
    runAll code (call 0 (1 / 3) (1 / 4)) = some m' ∧
    linearPair.tabulate [0, 0] [[1 / 3, 1 / 4]] = .ok table ∧
    ∀ c < linearPair.valueSize, ∃ x, ((table[0]?).bind (·[c]?)).bind (·[0]?) = some x ∧
      m'.number "values" [c] = some x := by
  have hcomplete : Complete linearPair := by
    intro row hrow
    obtain rfl := List.mem_singleton.mp hrow
    refine ⟨le_refl 2, ?_⟩
    intro component hcomponent
    simp only [List.mem_cons, List.not_mem_nil, or_false] at hcomponent
    rcases hcomponent with rfl | rfl <;> rfl
  refine body_agrees_with_tabulate rfl hcomplete (by decide) (.inl ?_) (by decide) (called_call _ _ _)
  norm_num

end Agreement
end Variational.BasisEvaluation
