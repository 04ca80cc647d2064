import Variational.Proofs.Planning
import Variational.Proofs.PushForward

/-! The meaning of a product at a quadrature point. On the one side it is the product of the physical
values of its basis functions; on the other side the plans give one factor for each value of the
secondary indices. Summed over these, the factors of the plans are the physical values. -/
namespace Variational

namespace MultiIndex

theorem tuples_append (xs ys : List ℕ) :
    tuples (xs ++ ys) = (tuples xs).flatMap fun a => (tuples ys).map (a ++ ·) := by
  induction xs with
  | nil => simp [tuples]
  | cons x xs ih =>
    simp only [List.cons_append, tuples, ih, List.flatMap_assoc, List.map_flatMap, List.flatMap_map,
      List.map_map]
    rfl

theorem length_of_mem_tuples {ds a : List ℕ} (h : a ∈ tuples ds) : a.length = ds.length := by
  induction ds generalizing a with
  | nil => simpa [tuples] using h
  | cons d ds ih =>
    simp only [tuples, List.mem_flatMap, List.mem_map] at h
    obtain ⟨_, _, b, hb, rfl⟩ := h
    simp [ih hb]

variable {β : Type} [AddCommMonoid β]

theorem sum_tuples_append (xs ys : List ℕ) (f : List ℕ → β) :
    ((tuples (xs ++ ys)).map f).sum =
      ((tuples xs).map fun a => ((tuples ys).map fun b => f (a ++ b)).sum).sum := by
  rw [tuples_append, sum_flatMap]
  simp only [List.map_map]
  rfl

theorem sum_tuples_cons (d : ℕ) (ds : List ℕ) (f : List ℕ → β) :
    ((tuples (d :: ds)).map f).sum =
      ∑ i ∈ Finset.range d, ((tuples ds).map fun a => f (i :: a)).sum := by
  rw [tuples, sum_flatMap]
  simp only [List.map_map]
  rfl

theorem sum_tuples_nil (f : List ℕ → β) : ((tuples []).map f).sum = f [] := by simp [tuples]

end MultiIndex

open MultiIndex

/-- The value of an index, given values of the free ones. -/
def Index.value (ρ : ℕ → ℕ) : Index → ℕ
  | fixed n => n
  | free l => ρ l

section Direct

variable {α : Type} [ExactScalar α]

/-- How often a list of directions names each of the directions of a space. -/
def directionCounts (dim : ℕ) (rs : List ℕ) : List ℕ := (List.range dim).map fun d => rs.count d

/-- Component `s` of basis function `j` at point `q`, differentiated along reference directions. What
the table of the element does not have counts as zero. -/
def Element.sample (dim : ℕ) (points : List (List α)) (e : Element α) (rs : List ℕ) (j s q : ℕ) : α :=
  match e.tabulate (directionCounts dim rs) points with
  | .ok table => (((table[j]?).bind (·[s]?)).bind (·[q]?)).getD 0
  | .error _ => 0

/-- The derivative along physical directions of a function that is given by its derivatives along
reference directions: `∂_d` is the sum over `r` of `K r d` times the derivative along `r`. -/
def physicalDerivative (v : CellData α) (dim : ℕ) : List ℕ → (List ℕ → α) → α
  | [], f => f []
  | d :: ds, f =>
    ∑ r ∈ Finset.range dim, v.inverseJacobian r d * physicalDerivative v dim ds fun rs => f (r :: rs)

namespace BasisFunction

/-- The component that is asked for; without an index it is the only one. -/
def componentValue (ρ : ℕ → ℕ) (b : BasisFunction) : ℕ := b.components.head?.elim 0 (Index.value ρ)

/-- The component and derivative that are asked for, on the physical cell, of basis function `j` at
point `q`. -/
def physical (v : CellData α) (dim : ℕ) (points : List (List α)) (ρ : ℕ → ℕ) (q : ℕ)
    (b : BasisFunction) (e : Element α) (j : ℕ) : α :=
  e.pushForward v
    (fun s => physicalDerivative v dim (b.derivatives.map (Index.value ρ)) fun rs =>
      e.sample dim points rs j s q)
    (b.componentValue ρ)

/-- The factor in a product: one basis function for the test and the trial function, given by its dof,
and the combination of all of them for a coefficient function. -/
def factor (v : CellData α) (dim : ℕ) (points : List (List α)) (ρ : ℕ → ℕ) (test trial q : ℕ)
    (b : BasisFunction) (e : Element α) : α :=
  match b.argument with
  | .test => b.physical v dim points ρ q e test
  | .trial => b.physical v dim points ρ q e trial
  | .function n =>
    ∑ j ∈ Finset.range e.dimension, v.coefficient n j * b.physical v dim points ρ q e j

end BasisFunction

/-- All choices of reference directions at once. -/
theorem physicalDerivative_eq_sum (v : CellData α) (dim : ℕ) (ds : List ℕ) (f : List ℕ → α) :
    physicalDerivative v dim ds f =
      ((tuples (List.replicate ds.length dim)).map fun rs =>
        (List.zipWith (fun d r => v.inverseJacobian r d) ds rs).prod * f rs).sum := by
  induction ds generalizing f with
  | nil => simp [physicalDerivative, tuples]
  | cons d ds ih =>
    rw [List.length_cons, List.replicate_succ, sum_tuples_cons, physicalDerivative]
    refine Finset.sum_congr rfl fun r _ => ?_
    rw [ih, ← List.sum_map_mul_left]
    simp only [List.zipWith_cons_cons, List.prod_cons, mul_assoc]

end Direct

namespace Plan

variable {α : Type} [ExactScalar α]

/-- The tabulated value that a plan picks. -/
def sample (dim : ℕ) (points : List (List α)) (i : List ℕ) (q : ℕ) (p : Plan α) (a : List ℕ) : α :=
  p.element.sample dim points (p.derivatives.map fun x => a.getD x.2 0) (p.dofAt i a)
    (p.referenceComponent a) q

/-- The factor of the geometry that goes with it. -/
def geometry (v : CellData α) (ρ : ℕ → ℕ) (p : Plan α) (a : List ℕ) : α :=
  (match p.argument, p.dof with
    | .function n, .secondary axis => v.coefficient n (a.getD axis 0)
    | _, _ => 1) *
  Monomial.evalOption v
    (ValueBlock.factor? p.blocks (p.component.elim 0 (Index.value ρ)) (p.referenceComponent a)) *
  (p.derivatives.map fun x => v.inverseJacobian (a.getD x.2 0) (x.1.value ρ)).prod

/-- All axes that a plan reads lie below a bound. -/
structure Below (n : ℕ) (p : Plan α) : Prop where
  dof : ∀ axis, p.dof = .secondary axis → axis < n
  component : ∀ axis, p.componentAxis = some axis → axis < n
  derivatives : ∀ x ∈ p.derivatives, x.2 < n

theorem ofBasis_below (trialPosition n dim basis : ℕ) (b : BasisFunction) (e : Element α) :
    (ofBasis trialPosition n b e).Below (n + (b.segment dim basis e).length) := by
  rw [BasisFunction.length_segment]
  constructor
  · intro axis h
    cases hb : b.argument with
    | function m =>
      have hone : b.dofAxes = 1 := by simp [BasisFunction.dofAxes, hb]
      simp only [ofBasis, hb, DofSource.secondary.injEq] at h
      omega
    | test => simp [ofBasis, hb] at h
    | trial => simp [ofBasis, hb] at h
  · intro axis h
    by_cases hs : 1 < e.valueSize
    · simp only [ofBasis, hs, if_true, Option.some.injEq] at h
      simp only [Element.componentAxes, hs, if_true]
      omega
    · simp [ofBasis, hs] at h
  · intro x hx
    have hlt := List.snd_lt_of_mem_zipIdx hx
    omega

omit [ExactScalar α] in
/-- A plan reads no further than its axes go. -/
theorem Below.reads {p : Plan α} {n : ℕ} (h : p.Below n) {a : List ℕ} (ha : a.length = n)
    (a' : List ℕ) :
    (∀ i, p.dofAt i (a ++ a') = p.dofAt i a) ∧
      p.referenceComponent (a ++ a') = p.referenceComponent a ∧
      ∀ x ∈ p.derivatives, (a ++ a').getD x.2 0 = a.getD x.2 0 := by
  have hget (k : ℕ) (hk : k < n) : (a ++ a').getD k 0 = a.getD k 0 :=
    List.getD_append _ _ _ _ (by omega)
  refine ⟨fun i => ?_, ?_, fun x hx => hget x.2 (h.derivatives x hx)⟩
  · unfold dofAt
    split
    · rfl
    · exact hget _ (h.dof _ (by assumption))
  · unfold referenceComponent
    cases hc : p.componentAxis with
    | none => rfl
    | some axis => exact hget axis (h.component axis hc)

theorem Below.sample_append {p : Plan α} {n : ℕ} (h : p.Below n) {a : List ℕ} (ha : a.length = n)
    (a' : List ℕ) (dim : ℕ) (points : List (List α)) (i : List ℕ) (q : ℕ) :
    p.sample dim points i q (a ++ a') = p.sample dim points i q a := by
  obtain ⟨hdof, hcomponent, hderivatives⟩ := h.reads ha a'
  unfold sample
  rw [hdof, hcomponent, List.map_congr_left hderivatives]

theorem Below.geometry_append {p : Plan α} {n : ℕ} (h : p.Below n) {a : List ℕ} (ha : a.length = n)
    (a' : List ℕ) (v : CellData α) (ρ : ℕ → ℕ) :
    p.geometry v ρ (a ++ a') = p.geometry v ρ a := by
  obtain ⟨-, hcomponent, hderivatives⟩ := h.reads ha a'
  unfold geometry
  rw [hcomponent, List.map_congr_left fun x hx => by rw [hderivatives x hx]]
  congr 2
  split
  · rw [List.getD_append _ _ _ _ (by have := h.dof _ (by assumption); omega)]
  · rfl

/-- Reading a segment of a tuple by the numbers of its axes. -/
theorem map_zipIdx_getD {β γ : Type} (g : β → ℕ → γ) (xs : List β) (pre a : List ℕ)
    (h : a.length = xs.length) :
    ((xs.zipIdx pre.length).map fun x => g x.1 ((pre ++ a).getD x.2 0)) = List.zipWith g xs a := by
  induction xs generalizing pre a with
  | nil => simp
  | cons x xs ih =>
    cases a with
    | nil => simp at h
    | cons k a =>
      have hrest := ih (pre ++ [k]) a (by simpa using h)
      simp only [List.length_append, List.length_singleton, List.append_assoc,
        List.singleton_append] at hrest
      rw [List.zipIdx_cons, List.map_cons, List.zipWith_cons_cons, hrest]
      simp

section Segment

variable (b : BasisFunction) (e : Element α)

/-- The extents of a segment: the dof of a coefficient, the component, the directions. -/
def dofExtents : List ℕ :=
  match b.argument with
  | .function _ => [e.dimension]
  | _ => []

def componentExtents : List ℕ := if 1 < e.valueSize then [e.valueSize] else []

theorem segment_extents (dim basis : ℕ) : (b.segment dim basis e).map (·.2) =
    dofExtents b e ++ (componentExtents e ++ List.replicate b.derivatives.length dim) := by
  unfold BasisFunction.segment dofExtents componentExtents
  cases b.argument <;> by_cases h : 1 < e.valueSize <;> simp [h, Function.comp_def]

/-- The dof that a segment or a primary multi-index gives. -/
def dofOf (trialPosition : ℕ) (i x : List ℕ) : ℕ :=
  match b.argument with
  | .test => i.getD 0 0
  | .trial => i.getD trialPosition 0
  | .function _ => x.getD 0 0

/-- The value of the coefficient that goes with it. -/
def weightOf (v : CellData α) (x : List ℕ) : α :=
  match b.argument with
  | .function n => v.coefficient n (x.getD 0 0)
  | _ => 1

theorem length_dofExtents : (dofExtents b e).length = b.dofAxes := by
  unfold dofExtents BasisFunction.dofAxes
  cases b.argument <;> rfl

theorem length_componentExtents : (componentExtents e).length = e.componentAxes := by
  unfold componentExtents Element.componentAxes
  by_cases h : 1 < e.valueSize <;> simp [h]

variable {b e} {x y z : List ℕ} (pre : List ℕ) (hx : x.length = b.dofAxes)
  (hy : y.length = e.componentAxes) (hz : z.length = b.derivatives.length)
include hx

theorem ofBasis_dof (trialPosition : ℕ) (i : List ℕ) :
    (ofBasis trialPosition pre.length b e).dofAt i (pre ++ (x ++ (y ++ z))) =
      dofOf b trialPosition i x := by
  unfold BasisFunction.dofAxes at hx
  unfold dofAt ofBasis dofOf
  cases hb : b.argument with
  | function n =>
    simp only [hb] at hx
    simp only
    rw [List.getD_append_right _ _ _ _ le_rfl, Nat.sub_self, List.getD_append _ _ _ _ (by omega)]
  | test => rfl
  | trial => rfl

theorem ofBasis_weight (v : CellData α) (trialPosition : ℕ) :
    (match b.argument, (ofBasis trialPosition pre.length b e).dof with
      | .function n, .secondary axis => v.coefficient n ((pre ++ (x ++ (y ++ z))).getD axis 0)
      | _, _ => 1) = weightOf b v x := by
  unfold BasisFunction.dofAxes at hx
  unfold weightOf ofBasis
  cases hb : b.argument with
  | function n =>
    simp only [hb] at hx
    simp only
    rw [List.getD_append_right _ _ _ _ le_rfl, Nat.sub_self, List.getD_append _ _ _ _ (by omega)]
  | test => rfl
  | trial => rfl

include hy

theorem ofBasis_component (trialPosition : ℕ) :
    (ofBasis trialPosition pre.length b e).referenceComponent (pre ++ (x ++ (y ++ z))) =
      y.getD 0 0 := by
  unfold Element.componentAxes at hy
  unfold referenceComponent ofBasis
  by_cases h : 1 < e.valueSize
  · rw [if_pos h] at hy
    simp only [h, if_true, Option.elim_some]
    rw [← hx, List.getD_append_right _ _ _ _ (by omega), List.getD_append_right _ _ _ _ (by omega),
      List.getD_append _ _ _ _ (by omega)]
    congr 1
    omega
  · rw [if_neg h, List.length_eq_zero_iff] at hy
    simp [h, hy]

include hz

theorem ofBasis_derivatives {γ : Type} (trialPosition : ℕ) (g : Index → ℕ → γ) :
    ((ofBasis trialPosition pre.length b e).derivatives.map fun k =>
      g k.1 ((pre ++ (x ++ (y ++ z))).getD k.2 0)) = List.zipWith g b.derivatives z := by
  have h := map_zipIdx_getD g b.derivatives (pre ++ x ++ y) z hz
  rw [List.length_append, List.length_append, hx, hy, List.append_assoc, List.append_assoc] at h
  exact h

/-- The contribution of a plan for one value of the secondary indices of its segment. -/
theorem ofBasis_at (v : CellData α) (dim : ℕ) (points : List (List α)) (ρ : ℕ → ℕ) (i : List ℕ)
    (q trialPosition : ℕ) :
    (ofBasis trialPosition pre.length b e).sample dim points i q (pre ++ (x ++ (y ++ z))) *
        (ofBasis trialPosition pre.length b e).geometry v ρ (pre ++ (x ++ (y ++ z))) =
      weightOf b v x *
        (Monomial.evalOption v (ValueBlock.factor? e.blocks (b.componentValue ρ) (y.getD 0 0)) *
          ((List.zipWith (fun d r => v.inverseJacobian r d) (b.derivatives.map (Index.value ρ)) z).prod *
            e.sample dim points z (dofOf b trialPosition i x) (y.getD 0 0) q)) := by
  have hdirections := ofBasis_derivatives pre hx hy hz trialPosition fun _ r => r
  have hinverse := ofBasis_derivatives pre hx hy hz trialPosition
    fun d r => v.inverseJacobian r (d.value ρ)
  have hz' : List.zipWith (fun _ r => r) b.derivatives z = z := by
    rw [← List.map_uncurry_zip_eq_zipWith]
    exact List.map_snd_zip (by omega)
  have hweight := ofBasis_weight pre hx v trialPosition (e := e) (y := y) (z := z)
  unfold sample geometry
  rw [ofBasis_component pre hx hy, ofBasis_dof pre hx, hdirections, hinverse, hz',
    List.zipWith_map_left, show (ofBasis trialPosition pre.length b e).argument = b.argument from rfl,
    hweight]
  change e.sample dim points z _ _ q * (weightOf b v x *
    Monomial.evalOption v (ValueBlock.factor? e.blocks (b.componentValue ρ) _) * _) = _
  ring

end Segment

theorem sum_componentExtents (e : Element α) (h : 0 < e.valueSize) (g : ℕ → α) :
    ((tuples (componentExtents e)).map fun y => g (y.getD 0 0)).sum =
      ∑ s ∈ Finset.range e.valueSize, g s := by
  unfold componentExtents
  by_cases hs : 1 < e.valueSize
  · rw [if_pos hs, sum_tuples_cons]
    simp [tuples]
  · rw [if_neg hs, sum_tuples_nil, show e.valueSize = 1 by omega]
    simp

theorem sum_dofExtents (b : BasisFunction) (e : Element α) (v : CellData α) (dim : ℕ)
    (points : List (List α)) (ρ : ℕ → ℕ) (i : List ℕ) (q trialPosition : ℕ) :
    ((tuples (dofExtents b e)).map fun x =>
      weightOf b v x * b.physical v dim points ρ q e (dofOf b trialPosition i x)).sum =
      b.factor v dim points ρ (i.getD 0 0) (i.getD trialPosition 0) q e := by
  unfold dofExtents weightOf dofOf BasisFunction.factor
  cases b.argument with
  | test => simp [tuples]
  | trial => simp [tuples]
  | function n =>
    rw [sum_tuples_cons]
    simp [tuples]

/-- Summed over its segment, the contributions of a plan are the factor of its basis function. -/
theorem sum_segment {b : BasisFunction} {e : Element α} (v : CellData α) (dim basis : ℕ)
    (points : List (List α)) (ρ : ℕ → ℕ) (i pre : List ℕ) (q trialPosition : ℕ)
    (hc : b.componentValue ρ < e.valueSize) :
    ((tuples ((b.segment dim basis e).map (·.2))).map fun a =>
      (ofBasis trialPosition pre.length b e).sample dim points i q (pre ++ a) *
        (ofBasis trialPosition pre.length b e).geometry v ρ (pre ++ a)).sum =
      b.factor v dim points ρ (i.getD 0 0) (i.getD trialPosition 0) q e := by
  rw [segment_extents, sum_tuples_append, ← sum_dofExtents]
  congr 1
  apply List.map_congr_left
  intro x hx
  have hx := (length_of_mem_tuples hx).trans (length_dofExtents b e)
  rw [sum_tuples_append, BasisFunction.physical, ← Element.sum_factor_blocks v e hc,
    ← sum_componentExtents e (by omega), ← List.sum_map_mul_left]
  congr 1
  apply List.map_congr_left
  intro y hy
  have hy := (length_of_mem_tuples hy).trans (length_componentExtents e)
  rw [physicalDerivative_eq_sum, List.length_map, ← List.sum_map_mul_left, ← List.sum_map_mul_left]
  congr 1
  apply List.map_congr_left
  intro z hz
  have hz := (length_of_mem_tuples hz).trans (List.length_replicate)
  exact ofBasis_at pre hx hy hz v dim points ρ i q trialPosition

/-- Summed over all secondary indices, the products of the contributions of all plans are the product of
the factors of all basis functions. -/
theorem sum_segments (v : CellData α) (dim : ℕ) (points : List (List α)) (ρ : ℕ → ℕ) (i : List ℕ)
    (q trialPosition : ℕ) (bes : List (BasisFunction × Element α))
    (hc : ∀ x ∈ bes, x.1.componentValue ρ < x.2.valueSize) (basis : ℕ) (pre : List ℕ) :
    ((tuples ((segments dim basis bes).map (·.2))).map fun a =>
      ((ofAll trialPosition dim basis pre.length bes).map fun p =>
        p.sample dim points i q (pre ++ a) * p.geometry v ρ (pre ++ a)).prod).sum =
      (bes.map fun x =>
        x.1.factor v dim points ρ (i.getD 0 0) (i.getD trialPosition 0) q x.2).prod := by
  induction bes generalizing basis pre with
  | nil => simp [segments, ofAll, tuples]
  | cons x bes ih =>
    obtain ⟨b, e⟩ := x
    rw [List.forall_mem_cons] at hc
    have hbelow := ofBasis_below trialPosition pre.length dim basis b e
    rw [segments, List.map_append, sum_tuples_append, List.map_cons, List.prod_cons,
      ← sum_segment v dim basis points ρ i pre q trialPosition hc.1, ← List.sum_map_mul_right]
    congr 1
    apply List.map_congr_left
    intro a ha
    have ha : (pre ++ a).length = pre.length + (b.segment dim basis e).length := by
      rw [List.length_append, length_of_mem_tuples ha, List.length_map]
    have hrest := ih hc.2 (basis + 1) (pre ++ a)
    rw [ha] at hrest
    rw [← hrest, ← List.sum_map_mul_left]
    congr 1
    apply List.map_congr_left
    intro a' _
    rw [ofAll, List.map_cons, List.prod_cons, ← List.append_assoc, hbelow.sample_append ha,
      hbelow.geometry_append ha]

end Plan
end Variational
