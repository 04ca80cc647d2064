import Variational.Proofs.PlanBounds
import Variational.Proofs.ReferenceValues

/-! Terms with checked reads. Every entry of a multi-index, every count of derivatives, every table, row,
component and point and every value of a label is looked up, and a lookup that finds nothing is an error.
Where the plans of a product are bounded, the checked term is the term. -/
namespace Variational

variable {α : Type} [Scalar α]

namespace Plan

omit [Scalar α]

def checkedDof (p : Plan α) (i a : List ℕ) : Result ℕ :=
  match p.dof with
  | .primary position => inRange i[position]?
  | .secondary axis => inRange a[axis]?

def checkedComponent (p : Plan α) (a : List ℕ) : Result ℕ :=
  match p.componentAxis with
  | some axis => inRange a[axis]?
  | none => return 0

/-- A derivative adds one to the count of its direction. -/
def countDirection (a counts : List ℕ) (x : Index × ℕ) : Result (List ℕ) := do
  let direction ← inRange a[x.2]?
  let n ← inRange counts[direction]?
  return counts.set direction (n + 1)

def checkedDerivative (dim : ℕ) (a : List ℕ) (p : Plan α) : Result (List ℕ) :=
  p.derivatives.foldlM (countDirection a) (List.replicate dim 0)

end Plan

namespace ReferenceTensor

def checkedKeys (dim : ℕ) (plans : List (Plan α)) (secondary : MultiIndex) : Result (List Key) := do
  let keys ← secondary.indices.mapM fun a =>
    plans.zipIdx.mapM fun (p, b) => return (b, ← p.checkedDerivative dim a)
  return keys.flatten.eraseDups

def checkedFactors (dim : ℕ) (plans : List (Plan α)) (tables : List (Key × Rows α)) (a : List ℕ) :
    Result (List (Plan α × Rows α)) :=
  plans.zipIdx.mapM fun (p, b) => do
    let derivative ← p.checkedDerivative dim a
    return (p, ← inRange (tables.lookup (b, derivative)))

/-- The value of a factor at one point. -/
def checkedValue (i a : List ℕ) (q : ℕ) (p : Plan α) (table : Rows α) : Result α := do
  let dof ← p.checkedDof i a
  let row ← inRange table[dof]?
  let component ← p.checkedComponent a
  let values ← inRange row[component]?
  inRange values[q]?

/-- The sum over the points, each with its weight times the values of the factors. -/
def checkedEntry (weights : List α) (factors : List (Plan α × Rows α)) (i a : List ℕ) : Result α := do
  let values ← weights.zipIdx.mapM fun (w, q) =>
    factors.foldlM (fun v (p, table) => return v * (← checkedValue i a q p table)) w
  return Scalar.sum values

def checkedOnRegion (dim : ℕ) (plans : List (Plan α)) (primary secondary : MultiIndex) (rule : Rule α) :
    Result (Array α) := do
  let tables ← tabulateKeys plans rule.points (← checkedKeys dim plans secondary)
  let columns ← secondary.indices.mapM fun a => return (a, ← checkedFactors dim plans tables a)
  let rows ← primary.indices.mapM fun i =>
    columns.mapM fun (a, fs) => checkedEntry rule.weights fs i a
  return rows.flatten.toArray

end ReferenceTensor

namespace GeometryEntry

def checkedIndexValue (assignment : List (ℕ × ℕ)) : Index → Result ℕ
  | .fixed n => return n
  | .free label => inRange (assignment.lookup label)

/-- The dof of a coefficient. -/
def coefficient (a : List ℕ) (p : Plan α) : List Symbol :=
  match p.argument, p.dof with
  | .function n, .secondary axis => [.coefficient n (a.getD axis 0)]
  | _, _ => []

def checkedCoefficient (a : List ℕ) (p : Plan α) : Result (List Symbol) :=
  match p.argument, p.dof with
  | .function n, .secondary axis => return [.coefficient n (← inRange a[axis]?)]
  | _, _ => return []

def checkedPlanFactor (assignment : List (ℕ × ℕ)) (a : List ℕ) (p : Plan α) :
    Result (Option (Monomial α)) := do
  let dof ← checkedCoefficient a p
  let c ← p.component.elim (pure 0) (checkedIndexValue assignment)
  let s ← p.checkedComponent a
  match (ValueBlock.factor? p.blocks c s : Option (Monomial α)) with
  | none => return none
  | some value =>
    let derivatives ← p.derivatives.mapM fun (x : Index × ℕ) => do
      let direction ← inRange a[x.2]?
      return Symbol.inverseJacobian direction (← checkedIndexValue assignment x.1)
    return some (Monomial.mk 1 0 dof * value * Monomial.mk 1 0 derivatives)

/-- The factors of all plans, unless one of them vanishes. -/
def checkedPlanFactors (assignment : List (ℕ × ℕ)) (a : List ℕ) :
    List (Plan α) → Result (Option (List (Monomial α)))
  | [] => return some []
  | p :: ps => do
    match ← checkedPlanFactor assignment a p with
    | none => return none
    | some m => return (← checkedPlanFactors assignment a ps).map (m :: ·)

def checkedMonomial (p : Product α) (plans : List (Plan α)) (assignment : List (ℕ × ℕ)) (a : List ℕ) :
    Result (Option (Monomial α)) := do
  let number := ⟨p.factor, 0, p.constants.map fun c => .constant c.number⟩
  return (← checkedPlanFactors assignment a plans).map (·.foldl (· * ·) number)

def checkedOfProduct (p : Product α) (d : Draft α) (secondary : MultiIndex) :
    Result (List (GeometryEntry α)) := do
  let entries ← secondary.indices.zipIdx.mapM fun (a, position) => do
    let monomials ← (assignments d.ranges).mapM fun values => checkedMonomial p d.plans values a
    return match Monomial.simplify (monomials.filterMap id) with
      | [] => none
      | ms => some ⟨position, ms⟩
  return entries.filterMap id

end GeometryEntry

namespace Product

def checkedTerm (cell : Cell) (numPoints : Option ℕ) (p : Product α) (d : Draft α) : Result (Term α) := do
  let m := numPoints.getD d.numPoints
  let primary : MultiIndex := ⟨d.primaryDims⟩
  let secondary : MultiIndex := ⟨d.extents⟩
  let rules ← p.regions cell m
  let values ← rules.mapM (ReferenceTensor.checkedOnRegion cell.dim d.plans primary secondary)
  return {
    reference := ⟨primary, secondary, d.axes, values⟩
    geometry := ← GeometryEntry.checkedOfProduct p d secondary
    integral := p.integral
    numPoints := m }

end Product

section Plans

variable {cell : Cell} {d : Draft α} {P : Plan α} {i a : List ℕ}

namespace Plan.Bounded

open Plan

theorem checkedDof_eq (h : P.Bounded cell d) (hi : i ∈ MultiIndex.tuples d.primaryDims)
    (ha : a ∈ MultiIndex.tuples d.extents) :
    P.checkedDof i a = .ok (P.dofAt i a) ∧ P.dofAt i a < P.element.dimension := by
  unfold checkedDof dofAt
  cases hdof : P.dof with
  | primary position =>
    obtain ⟨k, hk, hread⟩ := MultiIndex.getElem?_of_mem_tuples hi (h.primary position hdof)
    simp [hread, hk]
  | secondary axis =>
    obtain ⟨k, hk, hread⟩ := MultiIndex.getElem?_of_mem_tuples ha (h.axes.dof axis hdof)
    simp [hread, hk]

theorem checkedComponent_eq (h : P.Bounded cell d) (ha : a ∈ MultiIndex.tuples d.extents) :
    P.checkedComponent a = .ok (P.referenceComponent a) ∧ P.referenceComponent a < P.element.valueSize := by
  unfold checkedComponent referenceComponent
  cases haxis : P.componentAxis with
  | none =>
    refine ⟨rfl, ?_⟩
    rw [h.scalar haxis]
    exact Nat.one_pos
  | some axis =>
    obtain ⟨k, hk, hread⟩ := MultiIndex.getElem?_of_mem_tuples ha (h.axes.component axis haxis)
    simp [hread, hk]

theorem countDirection_eq {dim direction : ℕ} {x : Index × ℕ} (hdirection : direction < dim)
    (hread : a[x.2]? = some direction) (f : ℕ → ℕ) :
    countDirection a ((List.range dim).map f) x =
      .ok ((List.range dim).map fun k => f k + if direction = k then 1 else 0) := by
  have hcount : ((List.range dim).map f)[direction]? = some (f direction) := by
    rw [List.getElem?_map, List.getElem?_range hdirection]
    rfl
  have hset : ((List.range dim).map f).set direction (f direction + 1) =
      (List.range dim).map fun k => f k + if direction = k then 1 else 0 := by
    refine List.ext_getElem (by simp) fun k hk hk' => ?_
    simp only [List.getElem_set, List.getElem_map, List.getElem_range]
    split_ifs with heq
    · rw [heq]
    · rfl
  rw [countDirection, hread, inRange_some, Result.ok_bind, hcount, inRange_some, Result.ok_bind, hset]
  rfl

/-- Counting one by one gives the numbers of occurrences. -/
theorem foldlM_countDirection {dim : ℕ} {xs : List (Index × ℕ)}
    (h : ∀ x ∈ xs, ∃ direction < dim, a[x.2]? = some direction) (f : ℕ → ℕ) :
    xs.foldlM (countDirection a) ((List.range dim).map f) =
      .ok ((List.range dim).map fun k => f k + xs.countP fun x => a.getD x.2 0 == k) := by
  induction xs generalizing f with
  | nil => rfl
  | cons x xs ih =>
    rw [List.forall_mem_cons] at h
    obtain ⟨⟨direction, hlt, hread⟩, hxs⟩ := h
    rw [List.foldlM_cons, countDirection_eq hlt hread, Result.ok_bind, ih hxs]
    congr 1
    refine List.map_congr_left fun k _ => ?_
    have hvalue : a.getD x.2 0 = direction := by rw [List.getD_eq_getElem?_getD, hread, Option.getD_some]
    rw [List.countP_cons, hvalue, Nat.add_assoc, Nat.add_comm (ite _ _ _)]
    simp only [beq_iff_eq]

theorem checkedDerivative_eq (h : P.Bounded cell d) (ha : a ∈ MultiIndex.tuples d.extents) :
    P.checkedDerivative cell.dim a = .ok (P.derivative cell.dim a) := by
  have hread : ∀ x ∈ P.derivatives, ∃ direction < cell.dim, a[x.2]? = some direction :=
    fun x hx => MultiIndex.getElem?_of_mem_tuples ha (h.axes.derivatives x hx)
  have hzero : List.replicate cell.dim 0 = (List.range cell.dim).map fun _ => 0 := by simp
  rw [checkedDerivative, hzero, foldlM_countDirection hread]
  simp only [Nat.zero_add]
  rfl

end Plan.Bounded

namespace ReferenceTensor

/-- The values of a factor over the points. -/
def picked (i a : List ℕ) (x : Plan α × Rows α) : List α :=
  ((x.2[x.1.dofAt i a]?).bind (·[x.1.referenceComponent a]?)).getD []

/-- Multiplying row by row is multiplying point by point. -/
theorem foldl_zipWith {weights : List α} {rows : List (List α)}
    (h : ∀ row ∈ rows, row.length = weights.length) :
    rows.foldl (List.zipWith (· * ·)) weights =
      weights.zipIdx.map fun x => rows.foldl (fun v row => v * row.getD x.2 0) x.1 := by
  induction rows generalizing weights with
  | nil => simp
  | cons row rows ih =>
    rw [List.forall_mem_cons] at h
    have hlength : (List.zipWith (· * ·) weights row).length = weights.length := by
      rw [List.length_zipWith, h.1, Nat.min_self]
    rw [List.foldl_cons, ih (fun r hr => (h.2 r hr).trans hlength.symm)]
    refine List.ext_getElem (by simp [hlength]) fun q hq hq' => ?_
    have hrow : q < row.length := by simpa [h.1] using hq'
    simp [hrow]

/-- Where all factors have a value at every point, the checked entry is the entry. -/
theorem checkedEntry_same {weights : List α} {fs : List (Plan α × Rows α)}
    (h : ∀ x ∈ fs, x.1.checkedDof i a = .ok (x.1.dofAt i a) ∧
      x.1.checkedComponent a = .ok (x.1.referenceComponent a) ∧
      ∃ row values, x.2[x.1.dofAt i a]? = some row ∧ row[x.1.referenceComponent a]? = some values ∧
        values.length = weights.length) :
    Result.Same (checkedEntry weights fs i a) (entry weights fs i a) := by
  have hrows : fs.mapM (fun (x : Plan α × Rows α) =>
      inRange ((x.2[x.1.dofAt i a]?).bind (·[x.1.referenceComponent a]?))) = .ok (fs.map (picked i a)) := by
    refine Result.mapM_of_forall fun x hx => ?_
    obtain ⟨-, -, row, values, hrow, hvalues, -⟩ := h x hx
    simp [picked, hrow, hvalues]
  have hvalue {q : ℕ} (hq : q < weights.length) {x : Plan α × Rows α} (hx : x ∈ fs) :
      checkedValue i a q x.1 x.2 = .ok ((picked i a x).getD q 0) := by
    obtain ⟨hdof, hcomponent, row, values, hrow, hvalues, hlength⟩ := h x hx
    have hread : values[q]? = some (values.getD q 0) := by
      rw [List.getElem?_eq_getElem (hlength ▸ hq), List.getD_eq_getElem _ _ (hlength ▸ hq)]
    simp only [checkedValue, hdof, hcomponent, Result.ok_bind, hrow, hvalues, hread, inRange_some, picked,
      Option.bind_some, Option.getD_some]
  have hpoints : weights.zipIdx.mapM (fun (w, q) =>
      fs.foldlM (fun v (p, table) => return v * (← checkedValue i a q p table)) w) =
      (.ok (weights.zipIdx.map fun x => fs.foldl (fun v y => v * (picked i a y).getD x.2 0) x.1) :
        Result (List α)) := by
    refine Result.mapM_of_forall fun ⟨w, q⟩ hmem => Result.foldlM_of_forall (fun x hx v => ?_) w
    rw [List.mem_zipIdx_iff_getElem?] at hmem
    have hq : q < weights.length := (List.getElem?_eq_some_iff.mp hmem).1
    change (checkedValue i a q x.1 x.2 >>= fun y => pure (v * y)) = _
    rw [hvalue hq hx]
    rfl
  have hlengths : ∀ row ∈ fs.map (picked i a), row.length = weights.length := by
    refine List.forall_mem_map.mpr fun x hx => ?_
    obtain ⟨-, -, row, values, hrow, hvalues, hlength⟩ := h x hx
    rw [picked, hrow, Option.bind_some, hvalues, Option.getD_some, hlength]
  have hentry : entry weights fs i a =
      .ok (Scalar.sum ((fs.map (picked i a)).foldl (List.zipWith (· * ·)) weights)) := by
    unfold entry
    rw [hrows]
    rfl
  have hchecked : checkedEntry weights fs i a = entry weights fs i a := by
    unfold checkedEntry
    rw [hpoints, hentry, foldl_zipWith hlengths]
    simp only [List.foldl_map]
    rfl
  refine ⟨hchecked, ?_⟩
  rw [hentry]
  nofun

section Region

variable (hplans : ∀ P ∈ d.plans, P.Bounded cell d)
include hplans

theorem checkedKeys_eq :
    checkedKeys cell.dim d.plans ⟨d.extents⟩ = .ok (keys cell.dim d.plans ⟨d.extents⟩) := by
  have hrow : ∀ a ∈ MultiIndex.indices ⟨d.extents⟩,
      d.plans.zipIdx.mapM (fun (p, b) => return (b, ← p.checkedDerivative cell.dim a)) =
        (.ok (d.plans.zipIdx.map fun (p, b) => (b, p.derivative cell.dim a)) : Result (List Key)) := by
    refine fun a ha => Result.mapM_of_forall fun ⟨p, b⟩ hmem => ?_
    have hp : p ∈ d.plans := List.fst_mem_of_mem_zipIdx hmem
    change (p.checkedDerivative cell.dim a >>= fun x => pure (b, x)) = _
    rw [(hplans p hp).checkedDerivative_eq ha]
    rfl
  unfold checkedKeys
  rw [Result.mapM_of_forall hrow, Result.ok_bind, ← List.flatMap_def]
  rfl

/-- Every derivative that is asked for is one of the element of a plan. -/
theorem tabulateKeys_safe {points : List (List α)} (hpoints : ∀ p ∈ points, p.length = cell.dim) :
    Result.Safe (fun _ => True)
      (tabulateKeys d.plans points (keys cell.dim d.plans ⟨d.extents⟩)) := by
  suffices hall : Result.Safe (∀ entry ∈ ·, True)
      (tabulateKeys d.plans points (keys cell.dim d.plans ⟨d.extents⟩)) from hall.mono fun _ _ => trivial
  refine .mapM_all fun key hkey => ?_
  rw [keys, List.mem_eraseDups, List.mem_flatMap] at hkey
  obtain ⟨a, -, hkey⟩ := hkey
  obtain ⟨⟨p, b⟩, hmem, rfl⟩ := List.mem_map.mp hkey
  rw [List.mem_zipIdx_iff_getElem?] at hmem
  have hp := hplans p (List.mem_of_getElem? hmem)
  refine Result.Safe.bind (.inRange hmem (Eq.refl p)) ?_
  rintro _ rfl
  have hcell := hp.onCell
  refine Result.Safe.bind (hp.table _ points ?_ ?_) fun _ _ => trivial
  · simp [Plan.derivative, hcell]
  · rwa [hcell]

section Tables

variable {points : List (List α)} (hpoints : ∀ p ∈ points, p.length = cell.dim)
  {tables : List (Key × Rows α)}
  (htables : tabulateKeys d.plans points (keys cell.dim d.plans ⟨d.extents⟩) = .ok tables)
include htables

theorem checkedFactors_eq (ha : a ∈ MultiIndex.tuples d.extents) :
    checkedFactors cell.dim d.plans tables a = .ok (factors cell.dim d.plans tables a) := by
  refine Result.mapM_of_forall fun ⟨p, b⟩ hmem => ?_
  have hp : p ∈ d.plans := List.fst_mem_of_mem_zipIdx hmem
  rw [List.mem_zipIdx_iff_getElem?] at hmem
  obtain ⟨-, table, -, -, hlookup⟩ := lookup_tabulateKeys htables (mem_keys cell.dim ha hmem)
  simp only [(hplans p hp).checkedDerivative_eq ha, Result.ok_bind, hlookup, inRange_some, Option.getD_some]
  rfl

include hpoints in
/-- The table of a factor has the shape of its element. -/
theorem mem_factors (ha : a ∈ MultiIndex.tuples d.extents) {x : Plan α × Rows α}
    (hx : x ∈ factors cell.dim d.plans tables a) : x.1.Bounded cell d ∧
      ∃ table : Table α, table.Shape x.1.element.dimension x.1.element.valueSize points.length ∧
        x.2 = (table.map List.toArray).toArray := by
  obtain ⟨⟨p, b⟩, hmem, rfl⟩ := List.mem_map.mp hx
  have hp : p ∈ d.plans := List.fst_mem_of_mem_zipIdx hmem
  rw [List.mem_zipIdx_iff_getElem?] at hmem
  obtain ⟨p', table, hp', htable, hlookup⟩ := lookup_tabulateKeys htables (mem_keys cell.dim ha hmem)
  obtain rfl : p = p' := Option.some.inj (hmem.symm.trans hp')
  have hbounded := hplans p hp
  have hcell := hbounded.onCell
  refine ⟨hbounded, table, ?_, by simp only [hlookup, Option.getD_some]⟩
  refine (hbounded.table _ points ?_ ?_).of_eq_ok htable
  · simp [Plan.derivative, hcell]
  · rwa [hcell]

end Tables

theorem checkedOnRegion_same {rule : Rule α} (hrule : rule.OfDim cell.dim) :
    Result.Same (checkedOnRegion cell.dim d.plans ⟨d.primaryDims⟩ ⟨d.extents⟩ rule)
      (onRegion cell.dim d.plans ⟨d.primaryDims⟩ ⟨d.extents⟩ rule) := by
  unfold checkedOnRegion onRegion
  rw [checkedKeys_eq hplans, Result.ok_bind]
  refine .bind (.of_safe (tabulateKeys_safe hplans hrule.coordinates)) fun tables htables => ?_
  have hcolumns : (MultiIndex.mk d.extents).indices.mapM
      (fun a => return (a, ← checkedFactors cell.dim d.plans tables a)) =
      (.ok ((MultiIndex.mk d.extents).indices.map fun a => (a, factors cell.dim d.plans tables a)) :
        Result (List (List ℕ × List (Plan α × Rows α)))) := by
    refine Result.mapM_of_forall fun a ha => ?_
    rw [checkedFactors_eq hplans htables ha]
    rfl
  rw [hcolumns, Result.ok_bind]
  refine .bind (.mapM fun i hi => .mapM fun x hx => ?_) fun rows _ => .pure _
  obtain ⟨a, ha, rfl⟩ := List.mem_map.mp hx
  refine checkedEntry_same fun x hx => ?_
  obtain ⟨hbounded, table, hshape, htable⟩ := mem_factors hplans hrule.coordinates htables ha hx
  obtain ⟨hdof, hdofLt⟩ := hbounded.checkedDof_eq hi ha
  obtain ⟨hcomponent, hcomponentLt⟩ := hbounded.checkedComponent_eq ha
  have hrow : x.1.dofAt i a < table.length := hshape.rows ▸ hdofLt
  have hvalues : x.1.referenceComponent a < (table[x.1.dofAt i a]).length :=
    hshape.components _ (List.getElem_mem hrow) ▸ hcomponentLt
  refine ⟨hdof, hcomponent, (table[x.1.dofAt i a]).toArray,
    (table[x.1.dofAt i a])[x.1.referenceComponent a], ?_, ?_, ?_⟩
  · rw [htable, List.getElem?_toArray, List.getElem?_map, List.getElem?_eq_getElem hrow]
    rfl
  · rw [List.getElem?_toArray, List.getElem?_eq_getElem hvalues]
  · rw [hshape.points _ (List.getElem_mem hrow) _ (List.getElem_mem hvalues), Rule.points, Rule.weights,
      List.length_map, List.length_map]

end Region
end ReferenceTensor

namespace GeometryEntry

variable {assignment : List (ℕ × ℕ)}

/-- An assignment has a value for every label with a range. -/
theorem exists_lookup {ranges : Ranges} (h : assignment ∈ assignments ranges) {l range : ℕ}
    (hl : (l, range) ∈ ranges) : ∃ value, assignment.lookup l = some value := by
  obtain ⟨values, hvalues, rfl⟩ := List.mem_map.mp h
  have hlength : (ranges.map (·.1)).length ≤ values.length := by
    rw [MultiIndex.length_of_mem_tuples hvalues, List.length_map, List.length_map]
  cases hlookup : (List.zip (ranges.map (·.1)) values).lookup l with
  | some value => exact ⟨value, rfl⟩
  | none =>
    have hmem : l ∈ (List.zip (ranges.map (·.1)) values).map Prod.fst := by
      rw [List.map_fst_zip hlength]
      exact List.mem_map_of_mem hl
    obtain ⟨x, hx, rfl⟩ := List.mem_map.mp hmem
    simpa using List.lookup_eq_none_iff.mp hlookup x hx

variable (h : P.Bounded cell d) (hassignment : assignment ∈ assignments d.ranges)
include h hassignment

theorem checkedIndexValue_eq {index : Index}
    (hindex : index ∈ P.component.toList ++ P.derivatives.map (·.1)) :
    checkedIndexValue assignment index = .ok (indexValue assignment index) := by
  cases index with
  | fixed n => rfl
  | free l =>
    obtain ⟨range, hrange⟩ := h.labels l hindex
    obtain ⟨value, hvalue⟩ := exists_lookup hassignment hrange
    simp [checkedIndexValue, indexValue, hvalue]

theorem checkedPlanFactor_eq (ha : a ∈ MultiIndex.tuples d.extents) :
    checkedPlanFactor assignment a P = .ok (planFactor? assignment a P) := by
  have hcoefficient : checkedCoefficient a P = .ok (coefficient a P) := by
    unfold checkedCoefficient coefficient
    split
    · rename_i hdof
      obtain ⟨k, -, hread⟩ := MultiIndex.getElem?_of_mem_tuples ha (h.axes.dof _ hdof)
      simp [hread]
    · rfl
  have hcomponent : P.component.elim (pure 0) (checkedIndexValue assignment) =
      .ok (P.component.elim 0 (indexValue assignment)) := by
    cases hindex : P.component with
    | none => rfl
    | some index =>
      exact checkedIndexValue_eq h hassignment (List.mem_append_left _ (by simp [hindex]))
  have hderivatives : P.derivatives.mapM (fun (x : Index × ℕ) => do
      let direction ← inRange a[x.2]?
      return Symbol.inverseJacobian direction (← checkedIndexValue assignment x.1)) =
      (.ok (P.derivatives.map fun x =>
        Symbol.inverseJacobian (a.getD x.2 0) (indexValue assignment x.1)) : Result (List Symbol)) := by
    refine Result.mapM_of_forall fun x hx => ?_
    obtain ⟨k, -, hread⟩ := MultiIndex.getElem?_of_mem_tuples ha (h.axes.derivatives x hx)
    have hindex := checkedIndexValue_eq h hassignment
      (List.mem_append_right _ (List.mem_map_of_mem hx))
    simp only [hread, inRange_some, Result.ok_bind, hindex, List.getD_eq_getElem?_getD, Option.getD_some]
    rfl
  unfold checkedPlanFactor planFactor?
  simp only [hcoefficient, hcomponent, hderivatives, Result.ok_bind, (h.checkedComponent_eq ha).1]
  split
  · rename_i hfactor
    rw [hfactor]
    rfl
  · rename_i value hfactor
    rw [hfactor]
    rfl

end GeometryEntry

namespace GeometryEntry

variable (hplans : ∀ P ∈ d.plans, P.Bounded cell d)
include hplans

theorem checkedMonomial_eq (p : Product α) {assignment : List (ℕ × ℕ)}
    (hassignment : assignment ∈ assignments d.ranges) (ha : a ∈ MultiIndex.tuples d.extents) :
    checkedMonomial p d.plans assignment a = .ok (monomial? p d.plans assignment a) := by
  have hfactors : ∀ ps : List (Plan α), (∀ P ∈ ps, P.Bounded cell d) →
      checkedPlanFactors assignment a ps = .ok (ps.mapM (planFactor? assignment a)) := by
    intro ps hps
    induction ps with
    | nil => rfl
    | cons P ps ih =>
      rw [List.forall_mem_cons] at hps
      rw [checkedPlanFactors, checkedPlanFactor_eq hps.1 hassignment ha, Result.ok_bind, ih hps.2,
        List.mapM_cons]
      cases planFactor? assignment a P with
      | none => rfl
      | some m => cases ps.mapM (planFactor? assignment a) <;> rfl
  unfold checkedMonomial monomial?
  rw [hfactors d.plans hplans]
  cases d.plans.mapM (planFactor? assignment a) <;> rfl

theorem checkedOfProduct_eq (p : Product α) :
    checkedOfProduct p d ⟨d.extents⟩ = .ok (ofProduct p d ⟨d.extents⟩) := by
  have hmonomials {a : List ℕ} (ha : a ∈ MultiIndex.tuples d.extents) :
      (assignments d.ranges).mapM (fun values => checkedMonomial p d.plans values a) =
        .ok ((assignments d.ranges).map fun values => monomial? p d.plans values a) :=
    Result.mapM_of_forall fun values hvalues => checkedMonomial_eq hplans p hvalues ha
  unfold checkedOfProduct ofProduct
  rw [Result.mapM_of_forall (g := fun (a, position) =>
    match Monomial.simplify ((assignments d.ranges).filterMap (monomial? p d.plans · a)) with
    | [] => none
    | ms => some ⟨position, ms⟩)]
  · rw [Result.ok_bind, List.filterMap_map]
    rfl
  · rintro ⟨a, position⟩ hmem
    have ha : a ∈ MultiIndex.tuples d.extents := List.fst_mem_of_mem_zipIdx hmem
    simp only [hmonomials ha, Result.ok_bind, List.filterMap_map]
    rfl

end GeometryEntry

namespace Product

theorem regions_safe (cell : Cell) (m : ℕ) (p : Product α) :
    Result.Safe (∀ r ∈ ·, Rule.OfDim r cell.dim) (p.regions cell m) := by
  unfold regions
  cases p.integral with
  | interior => exact Region.interior_safe cell m
  | boundary => exact Region.boundary_safe cell m

theorem checkedTerm_same (hplans : ∀ P ∈ d.plans, P.Bounded cell d) (numPoints : Option ℕ)
    (p : Product α) : Result.Same (p.checkedTerm cell numPoints d) (p.term cell numPoints d) := by
  have hterm : p.term cell numPoints d = (do
      let rules ← p.regions cell (numPoints.getD d.numPoints)
      let values ← rules.mapM (ReferenceTensor.onRegion cell.dim d.plans ⟨d.primaryDims⟩ ⟨d.extents⟩)
      return {
        reference := ⟨⟨d.primaryDims⟩, ⟨d.extents⟩, d.axes, values⟩
        geometry := GeometryEntry.ofProduct p d ⟨d.extents⟩
        integral := p.integral
        numPoints := numPoints.getD d.numPoints }) := by
    unfold term regions
    cases p.integral <;> rfl
  have hregions := regions_safe cell (numPoints.getD d.numPoints) p
  simp only [checkedTerm, GeometryEntry.checkedOfProduct_eq hplans p, Result.ok_bind]
  rw [hterm]
  refine .bind (.of_safe hregions) fun rules hrules => ?_
  refine .bind (.mapM fun rule hrule => ?_) fun values _ => .pure _
  exact ReferenceTensor.checkedOnRegion_same hplans (hregions.of_eq_ok hrules rule hrule)

end Product
end Plans

end Variational
