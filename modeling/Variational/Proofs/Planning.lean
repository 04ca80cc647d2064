import Variational.Proofs.Resolution
import Variational.Proofs.Results
import Variational.Form.Build

/-! The plans of a product in closed form. Planning goes through the basis functions in order; each of
them adds a segment of secondary axes, and its plan refers to the axes of its own segment. -/
namespace Variational

/-- The indices of a basis function with the ranges that they run over. -/
def BasisFunction.indexRanges {α : Type} [Scalar α] (dim : ℕ) (b : BasisFunction) (e : Element α) :
    List (Index × ℕ) :=
  b.components.map (·, e.valueSize) ++ b.derivatives.map (·, dim)

/-- The secondary axes that a basis function adds, with their extents. -/
def BasisFunction.segment {α : Type} [Scalar α] (dim basis : ℕ) (b : BasisFunction) (e : Element α) :
    List (SecondaryAxis × ℕ) :=
  (match b.argument with
    | .function n => [(.coefficient n, e.dimension)]
    | _ => []) ++
  (if 1 < e.valueSize then [(.component basis, e.valueSize)] else []) ++
  (List.range b.derivatives.length).map fun position => (.derivative basis position, dim)

/-- Number of axes for the dof of a basis function. -/
def BasisFunction.dofAxes (b : BasisFunction) : ℕ :=
  match b.argument with
  | .function _ => 1
  | _ => 0

/-- Number of axes for the component of a basis function. -/
def Element.componentAxes {α : Type} [Scalar α] (e : Element α) : ℕ :=
  if 1 < e.valueSize then 1 else 0

/-- The plan of a basis function whose segment starts at axis `n`. -/
def Plan.ofBasis {α : Type} [Scalar α] (trialPosition n : ℕ) (b : BasisFunction) (e : Element α) :
    Plan α where
  element := e
  argument := b.argument
  dof := match b.argument with
    | .test => .primary 0
    | .trial => .primary trialPosition
    | .function _ => .secondary n
  component := b.components.head?
  componentAxis := if 1 < e.valueSize then some (n + b.dofAxes) else none
  derivatives := b.derivatives.zipIdx (n + b.dofAxes + e.componentAxes)
  blocks := e.blocks

theorem BasisFunction.length_segment {α : Type} [Scalar α] (dim basis : ℕ) (b : BasisFunction)
    (e : Element α) :
    (b.segment dim basis e).length = b.dofAxes + e.componentAxes + b.derivatives.length := by
  unfold segment dofAxes Element.componentAxes
  cases b.argument <;> by_cases h : 1 < e.valueSize <;> simp [h] <;> omega

namespace Ranges

/-- Check a list of indices, in order. -/
def checkAll (rs : Ranges) (xs : List (Index × ℕ)) : Result Ranges :=
  xs.foldlM (fun rs x => rs.check x.1 x.2) rs

@[simp] theorem checkAll_nil (rs : Ranges) : rs.checkAll [] = .ok rs := rfl

theorem checkAll_cons (rs : Ranges) (x : Index × ℕ) (xs : List (Index × ℕ)) :
    rs.checkAll (x :: xs) = (rs.check x.1 x.2) >>= fun rs => rs.checkAll xs := by
  simp only [checkAll, List.foldlM_cons]

theorem checkAll_append (rs : Ranges) (xs ys : List (Index × ℕ)) :
    rs.checkAll (xs ++ ys) = (rs.checkAll xs) >>= fun rs => rs.checkAll ys := by
  simp only [checkAll, List.foldlM_append]

theorem lookup_pair {β : Type} (k l : ℕ) (x : β) (rs : List (ℕ × β)) :
    ((l, x) :: rs).lookup k = if k = l then some x else rs.lookup k := by
  by_cases h : k = l
  · simp [h]
  · have hb : (k == l) = false := by simpa using h
    simp [List.lookup, hb, h]

theorem lookup_insert (rs : Ranges) (l n k : ℕ) :
    (rs.insert l n).lookup k = if k = l then some n else rs.lookup k := by
  induction rs with
  | nil => rw [insert, lookup_pair]
  | cons r rs ih =>
    obtain ⟨m, s⟩ := r
    unfold insert
    split
    · rw [lookup_pair]
    · split
      · rename_i h
        rw [lookup_pair, lookup_pair, h]
        split_ifs <;> rfl
      · rw [lookup_pair, lookup_pair, ih]
        split_ifs with hm hl
        · omega
        all_goals rfl

theorem keys_insert (rs : Ranges) (l n : ℕ) (h : rs.Pairwise fun x y => x.1 < y.1) :
    (rs.insert l n).Pairwise (fun x y => x.1 < y.1) ∧
      ∀ x ∈ rs.insert l n, x = (l, n) ∨ x ∈ rs := by
  induction rs with
  | nil => simp [insert]
  | cons r rs ih =>
    obtain ⟨m, s⟩ := r
    rw [List.pairwise_cons] at h
    obtain ⟨hsorted, hmem⟩ := ih h.2
    unfold insert
    split_ifs with h₁ h₂
    · refine ⟨List.pairwise_cons.mpr ⟨?_, List.pairwise_cons.mpr h⟩, by simp⟩
      intro x hx
      rcases List.mem_cons.mp hx with rfl | hx
      · exact h₁
      · exact lt_trans h₁ (h.1 x hx)
    · subst h₂
      exact ⟨List.pairwise_cons.mpr h, fun x hx => by
        rcases List.mem_cons.mp hx with hx | hx
        · exact .inl hx
        · exact .inr (List.mem_cons_of_mem _ hx)⟩
    · refine ⟨List.pairwise_cons.mpr ⟨?_, hsorted⟩, fun x hx => ?_⟩
      · intro x hx
        rcases hmem x hx with rfl | hx
        · simp only
          omega
        · exact h.1 x hx
      · rcases List.mem_cons.mp hx with rfl | hx
        · exact .inr List.mem_cons_self
        · rcases hmem x hx with hx | hx
          · exact .inl hx
          · exact .inr (List.mem_cons_of_mem _ hx)

/-- The ranges are those of the free indices of a list, by increasing label, and fixed indices are in
range. -/
structure Record (rs : Ranges) (xs : List (Index × ℕ)) : Prop where
  sorted : rs.Pairwise fun x y => x.1 < y.1
  fixed : ∀ n range, (Index.fixed n, range) ∈ xs → n < range
  free : ∀ l range, (Index.free l, range) ∈ xs → rs.lookup l = some range
  only : ∀ x ∈ rs, (Index.free x.1, x.2) ∈ xs

theorem record_nil : Record [] [] := by
  constructor <;> simp

theorem Record.check {rs rs' : Ranges} {xs : List (Index × ℕ)} (h : rs.Record xs) {i : Index}
    {range : ℕ} (hc : rs.check i range = .ok rs') : rs'.Record (xs ++ [(i, range)]) := by
  cases i with
  | fixed n =>
    simp only [Ranges.check] at hc
    split_ifs at hc with hn
    obtain rfl := Except.ok.inj hc
    refine ⟨h.sorted, fun m r hm => ?_, fun l r hl => ?_, fun x hx => ?_⟩
    · rcases List.mem_append.mp hm with hm | hm
      · exact h.fixed m r hm
      · simp only [List.mem_singleton, Prod.mk.injEq, Index.fixed.injEq] at hm
        omega
    · exact h.free l r (by simpa using hl)
    · exact List.mem_append_left _ (h.only x hx)
  | free l =>
    -- A label that is on record must come with its range again; a new one is put in its place.
    simp only [Ranges.check, rangeOf?] at hc
    cases hl : rs.lookup l with
    | some other =>
      simp only [hl] at hc
      split_ifs at hc with ho
      obtain rfl := Except.ok.inj hc
      refine ⟨h.sorted, fun m r hm => ?_, fun k r hk => ?_, fun x hx => ?_⟩
      · exact h.fixed m r (by simpa using hm)
      · rcases List.mem_append.mp hk with hk | hk
        · exact h.free k r hk
        · simp only [List.mem_singleton, Prod.mk.injEq, Index.free.injEq] at hk
          rw [hk.1, hk.2, hl, ho]
      · exact List.mem_append_left _ (h.only x hx)
    | none =>
      simp only [hl] at hc
      obtain rfl := Except.ok.inj hc
      obtain ⟨hsorted, hmem⟩ := keys_insert rs l range h.sorted
      refine ⟨hsorted, fun m r hm => ?_, fun k r hk => ?_, fun x hx => ?_⟩
      · exact h.fixed m r (by simpa using hm)
      · rw [lookup_insert]
        rcases List.mem_append.mp hk with hold | hnew
        · have hkl : k ≠ l := by
            rintro rfl
            rw [h.free k r hold] at hl
            cases hl
          rw [if_neg hkl, h.free k r hold]
        · simp only [List.mem_singleton, Prod.mk.injEq, Index.free.injEq] at hnew
          rw [if_pos hnew.1, hnew.2]
      · rcases hmem x hx with rfl | hx
        · exact List.mem_append_right _ (List.mem_singleton.mpr rfl)
        · exact List.mem_append_left _ (h.only x hx)

theorem Record.checkAll {rs rs' : Ranges} {xs ys : List (Index × ℕ)} (h : rs.Record xs)
    (hc : rs.checkAll ys = .ok rs') : rs'.Record (xs ++ ys) := by
  induction ys generalizing rs xs with
  | nil =>
    rw [checkAll_nil] at hc
    obtain rfl := Except.ok.inj hc
    simpa using h
  | cons y ys ih =>
    rw [checkAll_cons, Result.bind_eq_ok] at hc
    obtain ⟨mid, hmid, hrest⟩ := hc
    simpa using ih (h.check hmid) hrest

end Ranges

namespace Draft

variable {α : Type}

theorem addDerivatives_ok (dim basis position : ℕ) (is : List Index) {d d' : Draft α}
    {ds : List (Index × ℕ)} (h : addDerivatives dim basis position is d = .ok (ds, d')) :
    ds = is.zipIdx d.axes.length ∧ d'.plans = d.plans ∧
      d'.axes = d.axes ++ (List.range' position is.length).map (.derivative basis ·) ∧
      d'.extents = d.extents ++ (List.range' position is.length).map (fun _ => dim) ∧
      d.ranges.checkAll (is.map (·, dim)) = .ok d'.ranges := by
  induction is generalizing position d ds with
  | nil =>
    simp only [addDerivatives, Except.ok.injEq, Prod.mk.injEq] at h
    obtain ⟨rfl, rfl⟩ := h
    simp
  | cons i is ih =>
    simp only [addDerivatives, Result.bind_eq_ok] at h
    obtain ⟨ranges, hranges, ⟨rest, dr⟩, hrest, hdone⟩ := h
    simp only [Result.pure_eq_ok, Prod.mk.injEq] at hdone
    obtain ⟨rfl, rfl⟩ := hdone
    obtain ⟨hds, hplans, haxes, hextents, hchecked⟩ := ih (position + 1) hrest
    refine ⟨?_, hplans, ?_, ?_, ?_⟩
    · rw [hds, List.zipIdx_cons]
      simp [addAxis]
    · simp [haxes, addAxis, List.range'_succ]
    · simp [hextents, addAxis, List.range'_succ]
    · rw [List.map_cons, Ranges.checkAll_cons, Result.bind_eq_ok]
      exact ⟨ranges, hranges, hchecked⟩

theorem componentOf_ok {l : Layout} {is : List Index} {component : Option Index}
    (h : componentOf l is = .ok component) :
    component = is.head? ∧ (is = [] ∧ l.valueSize = 1 ∨ ∃ i, is = [i]) := by
  match is with
  | [] =>
    simp only [componentOf] at h
    split_ifs at h with hs
    obtain rfl := Except.ok.inj h
    exact ⟨rfl, .inl ⟨rfl, hs⟩⟩
  | [i] =>
    obtain rfl := Except.ok.inj h
    exact ⟨rfl, .inr ⟨i, rfl⟩⟩
  | _ :: _ :: _ => simp [componentOf] at h

theorem checkComponent_ok {size : ℕ} {is : List Index} {d d' : Draft α}
    (hone : is = [] ∨ ∃ i, is = [i]) (h : checkComponent size is.head? d = .ok d') :
    ∃ ranges, d' = { d with ranges } ∧ d.ranges.checkAll (is.map (·, size)) = .ok ranges := by
  rcases hone with rfl | ⟨i, rfl⟩
  · obtain rfl := Except.ok.inj h
    exact ⟨d.ranges, rfl, rfl⟩
  · simp only [List.head?_cons, checkComponent, Result.bind_eq_ok, Result.pure_eq_ok] at h
    obtain ⟨ranges, hranges, rfl⟩ := h
    refine ⟨ranges, rfl, ?_⟩
    rw [List.map_singleton, Ranges.checkAll_cons, Result.bind_eq_ok]
    exact ⟨ranges, hranges, rfl⟩

variable [Scalar α]

/-- What a basis function adds to a draft. -/
structure Adds (cell : Cell) (trialPosition : ℕ) (d : Draft α) (b : BasisFunction) (e : Element α)
    (d' : Draft α) : Prop where
  onCell : e.cell = cell
  plans : d'.plans = d.plans ++ [Plan.ofBasis trialPosition d.axes.length b e]
  axes : d'.axes = d.axes ++ (b.segment cell.dim d.plans.length e).map (·.1)
  extents : d'.extents = d.extents ++ (b.segment cell.dim d.plans.length e).map (·.2)
  ranges : d.ranges.checkAll (b.indexRanges cell.dim e) = .ok d'.ranges
  component : b.components = [] ∧ e.valueSize = 1 ∨ ∃ i, b.components = [i]

theorem add_ok {cell : Cell} {trialPosition : ℕ} {d d' : Draft α} {b : BasisFunction} {e : Element α}
    (h : d.add cell trialPosition b e = .ok d') : Adds cell trialPosition d b e d' := by
  unfold add at h
  by_cases hcell : e.layout.cell = cell
  · rw [if_neg (by simpa using hcell)] at h
    simp only [Result.bind_eq_ok, Result.pure_eq_ok] at h
    obtain ⟨component, hcomponent, d₁, hd₁, ⟨derivatives, d₂⟩, hd₂, rfl⟩ := h
    obtain ⟨rfl, hone⟩ := componentOf_ok hcomponent
    obtain ⟨ranges, rfl, hranges⟩ := checkComponent_ok (hone.imp And.left id) hd₁
    obtain ⟨rfl, hplans, haxes, hextents, hchecked⟩ := addDerivatives_ok _ _ _ _ hd₂
    have hsize : e.layout.valueSize = e.valueSize := rfl
    have hdimension : e.layout.dimension = e.dimension := rfl
    refine ⟨hcell, ?_, ?_, ?_, ?_, hone⟩
    · rw [hplans]
      cases hb : b.argument <;> by_cases hs : 1 < e.valueSize <;>
        simp [Plan.ofBasis, BasisFunction.dofAxes, Element.componentAxes, addDof, addComponent, addAxis,
          hb, hs, hsize]
    · rw [haxes]
      cases hb : b.argument <;> by_cases hs : 1 < e.valueSize <;>
        simp [BasisFunction.segment, addDof, addComponent, addAxis, hb, hs, hsize,
          List.range_eq_range', Function.comp_def]
    · rw [hextents]
      cases hb : b.argument <;> by_cases hs : 1 < e.valueSize <;>
        simp [BasisFunction.segment, addDof, addComponent, addAxis, hb, hs, hsize, hdimension,
          List.range_eq_range', Function.comp_def]
    · rw [BasisFunction.indexRanges, Ranges.checkAll_append, Result.bind_eq_ok]
      refine ⟨ranges, ?_, ?_⟩
      · cases hb : b.argument <;> simpa [addDof, addAxis, hb, hsize] using hranges
      · by_cases hs : 1 < e.valueSize <;> simpa [addComponent, addAxis, hs, hsize] using hchecked
  · rw [if_pos (by simpa using hcell)] at h
    cases h

end Draft

/-- The plans of basis functions, the first of which has the number `basis` and a segment that starts at
axis `n`. -/
def Plan.ofAll {α : Type} [Scalar α] (trialPosition dim : ℕ) :
    (basis n : ℕ) → List (BasisFunction × Element α) → List (Plan α)
  | _, _, [] => []
  | basis, n, (b, e) :: rest =>
    ofBasis trialPosition n b e ::
      ofAll trialPosition dim (basis + 1) (n + (b.segment dim basis e).length) rest

/-- The segments of basis functions, the first of which has the number `basis`. -/
def segments {α : Type} [Scalar α] (dim : ℕ) :
    (basis : ℕ) → List (BasisFunction × Element α) → List (SecondaryAxis × ℕ)
  | _, [] => []
  | basis, (b, e) :: rest => b.segment dim basis e ++ segments dim (basis + 1) rest

namespace Draft

variable {α : Type} [Scalar α]

/-- What planning leaves for basis functions with their elements. -/
structure Plans (cell : Cell) (trialPosition : ℕ) (d : Draft α)
    (bes : List (BasisFunction × Element α)) (d' : Draft α) : Prop where
  plans : d'.plans =
    d.plans ++ Plan.ofAll trialPosition cell.dim d.plans.length d.axes.length bes
  axes : d'.axes = d.axes ++ (segments cell.dim d.plans.length bes).map (·.1)
  extents : d'.extents = d.extents ++ (segments cell.dim d.plans.length bes).map (·.2)
  ranges : d.ranges.checkAll (bes.flatMap fun x => x.1.indexRanges cell.dim x.2) = .ok d'.ranges
  component : ∀ x ∈ bes, x.1.components = [] ∧ x.2.valueSize = 1 ∨ ∃ i, x.1.components = [i]

theorem addAll_ok {cell : Cell} {trialPosition : ℕ} {bes : List (BasisFunction × Element α)}
    {d d' : Draft α} (h : bes.foldlM (fun d x => d.add cell trialPosition x.1 x.2) d = .ok d') :
    Plans cell trialPosition d bes d' := by
  induction bes generalizing d with
  | nil =>
    obtain rfl := Except.ok.inj h
    constructor <;> simp [Plan.ofAll, segments]
  | cons x bes ih =>
    obtain ⟨b, e⟩ := x
    rw [List.foldlM_cons, Result.bind_eq_ok] at h
    obtain ⟨mid, hmid, hrest⟩ := h
    have hadd := add_ok hmid
    have hplans := ih hrest
    have hnumber : mid.plans.length = d.plans.length + 1 := by simp [hadd.plans]
    have haxis : mid.axes.length = d.axes.length + (b.segment cell.dim d.plans.length e).length := by
      simp [hadd.axes]
    constructor
    · simp [hplans.plans, hadd.plans, Plan.ofAll, haxis]
    · simp [hplans.axes, hadd.axes, segments, hnumber]
    · simp [hplans.extents, hadd.extents, segments, hnumber]
    · rw [List.flatMap_cons, Ranges.checkAll_append, Result.bind_eq_ok]
      exact ⟨mid.ranges, hadd.ranges, hplans.ranges⟩
    · exact List.forall_mem_cons.mpr ⟨hadd.component, hplans.component⟩

end Draft

namespace Product

variable {α : Type} [Scalar α]

/-- The trial function comes after the test function if there is one. -/
def trialPosition (p : Product α) : ℕ := if (p.find? .test).isSome then 1 else 0

/-- Planning a product resolves the elements of its basis functions in order and plans them. -/
theorem plan_returns {cell : Cell} {p : Product α} {d : Draft α} {c c' : Cache α}
    (h : Resolve.Returns (p.plan cell) c d c') :
    ∃ es, Resolve.Returns (p.basis.mapM fun b => Element.resolve b.element) c es c' ∧
      Draft.Plans cell p.trialPosition Draft.empty (p.basis.zip es) d := by
  suffices hall : ∀ (bs : List BasisFunction) (d₀ : Draft α) (c : Cache α),
      Resolve.Returns (bs.foldlM (fun d b => do
        let e ← Element.resolve b.element
        Resolve.ofResult (d.add cell p.trialPosition b e)) d₀) c d c' →
      ∃ es, Resolve.Returns (bs.mapM fun b => Element.resolve b.element) c es c' ∧
        (bs.zip es).foldlM (fun d x => d.add cell p.trialPosition x.1 x.2) d₀ = .ok d by
    obtain ⟨es, hes, hd⟩ := hall p.basis Draft.empty c h
    exact ⟨es, hes, Draft.addAll_ok hd⟩
  intro bs
  induction bs with
  | nil =>
    intro d₀ c h
    rw [List.foldlM_nil, Resolve.returns_pure] at h
    obtain ⟨rfl, rfl⟩ := h
    exact ⟨[], by rw [List.mapM_nil, Resolve.returns_pure]; exact ⟨rfl, rfl⟩, rfl⟩
  | cons b bs ih =>
    intro d₀ c h
    rw [List.foldlM_cons, Resolve.returns_bind] at h
    obtain ⟨mid, c₂, hmid, hrest⟩ := h
    rw [Resolve.returns_bind] at hmid
    obtain ⟨e, c₁, he, hadd⟩ := hmid
    rw [Resolve.returns_ofResult] at hadd
    obtain ⟨hadd, rfl⟩ := hadd
    obtain ⟨es, hes, hd⟩ := ih mid c₁ hrest
    refine ⟨e :: es, ?_, ?_⟩
    · rw [List.mapM_cons, Resolve.returns_bind]
      refine ⟨e, c₁, he, ?_⟩
      rw [Resolve.returns_bind]
      exact ⟨es, c', hes, Resolve.returns_pure.mpr ⟨rfl, rfl⟩⟩
    · rw [List.zip_cons_cons, List.foldlM_cons, Result.bind_eq_ok]
      exact ⟨mid, hadd, hd⟩

/-- The regions of integration of a product. -/
def regions (cell : Cell) (m : ℕ) (p : Product α) : Result (List (Rule α)) :=
  match p.integral with
  | .interior => Region.interior cell m
  | .boundary => Region.boundary cell m

/-- What is known of a term: the rules of its regions, its tensors and its number of points. -/
theorem term_ok {cell : Cell} {numPoints : Option ℕ} {p : Product α} {d : Draft α} {t : Term α}
    (h : p.term cell numPoints d = .ok t) :
    ∃ rules, p.regions cell t.numPoints = .ok rules ∧
      rules.mapM (ReferenceTensor.onRegion cell.dim d.plans t.reference.primary t.reference.secondary) =
        .ok t.reference.values ∧
      t.reference.primary.dims = d.primaryDims ∧ t.reference.secondary.dims = d.extents ∧
      t.reference.axes = d.axes ∧ t.integral = p.integral ∧
      t.geometry = GeometryEntry.ofProduct p d t.reference.secondary := by
  unfold term at h
  unfold regions
  cases hk : p.integral
  all_goals
    simp only [hk, Result.bind_eq_ok, Result.pure_eq_ok] at h
    obtain ⟨rules, hrules, values, hvalues, rfl⟩ := h
    exact ⟨rules, hrules, hvalues, rfl, rfl, rfl, rfl, rfl⟩

theorem build_returns {cell : Cell} {numPoints : Option ℕ} {p : Product α} {t : Term α}
    {c c' : Cache α} (h : Resolve.Returns (p.build cell numPoints) c t c') :
    ∃ d, Resolve.Returns (p.plan cell) c d c' ∧ p.term cell numPoints d = .ok t := by
  unfold build at h
  cases hu : p.unpaired? with
  | some label =>
    simp only [hu, Resolve.returns_bind] at h
    obtain ⟨_, _, hthrow, -⟩ := h
    exact absurd hthrow Resolve.not_returns_throw
  | none =>
    simp only [hu, Resolve.returns_bind, Resolve.returns_ofResult] at h
    obtain ⟨d, _, hd, ht, rfl⟩ := h
    exact ⟨d, hd, ht⟩

end Product
end Variational
