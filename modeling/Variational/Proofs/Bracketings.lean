import Mathlib
import Variational.Form.Algebra
import Variational.Proofs.ExactScalar

/-! Products of many factors. However the factors of a form are bracketed, a multiplication that is defined puts the
numbers into one factor and keeps constants and basis functions in order. The domain of integration is lost in one
place: where two products are multiplied, the right one forgets its own. -/
namespace Variational

/-- A factor of a form: an operand that is not yet multiplied. -/
inductive Factor (α : Type) where
  | number (x : α)
  | constant (c : Constant)
  | integral (k : IntegralKind)
  | basis (b : BasisFunction)
  /-- Basis functions that are given as a product. -/
  | group (bs : List BasisFunction)

namespace Factor

variable {α : Type}

def operand [Scalar α] : Factor α → Operand α
  | number x => .number x
  | constant c => .constant c
  | integral k => .integral k
  | basis b => .basis b
  | group bs => .product (.ofBasis bs)

def number? : Factor α → Option α
  | number x => some x
  | _ => none

def constant? : Factor α → Option Constant
  | constant c => some c
  | _ => none

def integral? : Factor α → Option IntegralKind
  | integral k => some k
  | _ => none

def functions : Factor α → List BasisFunction
  | basis b => [b]
  | group bs => bs
  | _ => []

end Factor

/-- What an operand is. -/
inductive OperandKind where
  | number
  | constant
  | integral
  | basis
  | product
  | sum
  deriving DecidableEq

namespace OperandKind

/-- The kinds that have a multiplication, with the kind of the result. -/
def mul? : OperandKind → OperandKind → Option OperandKind
  | basis, basis => some product
  | basis, constant => some product
  | basis, integral => some product
  | number, basis => some product
  | number, product => some product
  | product, basis => some product
  | product, product => some product
  | product, constant => some product
  | product, number => some product
  | product, integral => some product
  | sum, integral => some sum
  | _, _ => none

end OperandKind

namespace Operand

variable {α : Type}

def kind : Operand α → OperandKind
  | number _ => .number
  | constant _ => .constant
  | integral _ => .integral
  | basis _ => .basis
  | product _ => .product
  | sum _ => .sum

theorem exists_product {x : Operand α} (h : x.kind = .product) : ∃ p, x = product p := by
  cases x <;> simp_all [kind]

def constants : Operand α → List Constant
  | constant c => [c]
  | product p => p.constants
  | _ => []

def functions : Operand α → List BasisFunction
  | basis b => [b]
  | product p => p.basis
  | _ => []

/-- An operand has been given a domain of integration, if any: a number, a constant or a basis function none. -/
def IntegratedAs (chosen? : Option IntegralKind) : Operand α → Prop
  | integral k => chosen? = some k
  | product p => p.integral = chosen?.getD .interior
  | sum _ => True
  | _ => chosen? = none

/-- Whether two operands can be multiplied depends on what they are alone. -/
theorem map_kind_mul? [Scalar α] (x y : Operand α) : (x.mul? y).map kind = x.kind.mul? y.kind := by
  cases x <;> cases y <;> rfl

/-- In a product of two products the left one decides, in all others the last domain that was given. -/
theorem IntegratedAs.mul? [Scalar α] {x y z : Operand α} {c d : Option IntegralKind} (hx : x.IntegratedAs c)
    (hy : y.IntegratedAs d) (h : x.mul? y = some z) :
    z.IntegratedAs (if x.kind = .product ∧ y.kind = .product then c else d.or c) := by
  cases x <;> cases y <;> simp only [Operand.mul?, reduceCtorEq, Option.some.injEq] at h <;> subst h <;>
    simp_all [IntegratedAs, kind, Product.ofBasis, Product.withConstant, Product.integrated, Product.scale,
      Product.withBasis]
  exact hx

variable [ExactScalar α]

/-- The number that an operand is multiplied by. -/
def scale : Operand α → α
  | number x => x
  | product p => p.factor
  | _ => 1

/-- No multiplication loses a number, a constant or a basis function. -/
theorem mul?_collects {x y z : Operand α} (h : x.mul? y = some z) :
    z.scale = x.scale * y.scale ∧ z.constants = x.constants ++ y.constants ∧
      z.functions = x.functions ++ y.functions := by
  cases x <;> cases y <;> simp only [mul?, reduceCtorEq, Option.some.injEq] at h <;> subst h <;>
    simp [scale, constants, functions, Product.ofBasis, Product.withConstant, Product.integrated, Product.scale,
      Product.withBasis, mul_comm]
  all_goals exact ⟨rfl, rfl, rfl⟩

end Operand

/-- Factors with brackets around each multiplication. -/
inductive Bracketing (α : Type) where
  | leaf (x : Factor α)
  | times (l r : Bracketing α)

namespace Bracketing

variable {α : Type}

/-- The factors from left to right. -/
def factors : Bracketing α → List (Factor α)
  | leaf x => [x]
  | times l r => l.factors ++ r.factors

/-- What the factors give when they are multiplied, if all multiplications are defined. -/
def value? [Scalar α] : Bracketing α → Option (Operand α)
  | leaf x => some x.operand
  | times l r => do (← l.value?).mul? (← r.value?)

/-- What the value is, from the kinds of the factors. -/
def kind? : Bracketing α → Option OperandKind
  | leaf (.number _) => some .number
  | leaf (.constant _) => some .constant
  | leaf (.integral _) => some .integral
  | leaf (.basis _) => some .basis
  | leaf (.group _) => some .product
  | times l r => do (← l.kind?).mul? (← r.kind?)

def numbers (t : Bracketing α) : List α := t.factors.filterMap Factor.number?

def constants (t : Bracketing α) : List Constant := t.factors.filterMap Factor.constant?

def integrals (t : Bracketing α) : List IntegralKind := t.factors.filterMap Factor.integral?

def functions (t : Bracketing α) : List BasisFunction := t.factors.flatMap Factor.functions

/-- The domain of integration that the value is given. A product of two products is integrated like the left one. -/
def chosen? : Bracketing α → Option IntegralKind
  | leaf x => x.integral?
  | times l r => if l.kind? = some .product ∧ r.kind? = some .product then l.chosen? else r.chosen?.or l.chosen?

/-- Where two products are multiplied, the right one is not given a domain of integration. -/
def KeepsIntegral : Bracketing α → Prop
  | leaf _ => True
  | times l r => l.KeepsIntegral ∧ r.KeepsIntegral ∧
      (l.kind? = some .product → r.kind? = some .product → r.integrals = [])

@[simp] theorem integrals_leaf (x : Factor α) : (leaf x).integrals = x.integral?.toList := by
  cases x <;> rfl

@[simp] theorem integrals_times (l r : Bracketing α) : (times l r).integrals = l.integrals ++ r.integrals :=
  List.filterMap_append

theorem chosen?_of_integrals_eq_nil {t : Bracketing α} (h : t.integrals = []) : t.chosen? = none ∧ t.KeepsIntegral := by
  induction t with
  | leaf x =>
    rw [integrals_leaf, Option.toList_eq_nil_iff] at h
    exact ⟨h, trivial⟩
  | times l r ihl ihr =>
    obtain ⟨hl, hr⟩ := List.append_eq_nil_iff.mp ((integrals_times l r).symm.trans h)
    refine ⟨?_, (ihl hl).2, (ihr hr).2, fun _ _ => hr⟩
    simp [chosen?, ihl hl, ihr hr]

/-- One domain of integration among the factors is the one that the value is given, unless it is lost. -/
theorem chosen?_of_integrals_eq_singleton {t : Bracketing α} {k : IntegralKind} (h : t.integrals = [k]) :
    (t.KeepsIntegral → t.chosen? = some k) ∧ (¬t.KeepsIntegral → t.chosen? = none) := by
  induction t with
  | leaf x =>
    rw [integrals_leaf, Option.toList_eq_singleton_iff] at h
    exact ⟨fun _ => h, fun hlost => (hlost trivial).elim⟩
  | times l r ihl ihr =>
    rcases List.append_eq_singleton_iff.mp ((integrals_times l r).symm.trans h) with ⟨hl, hr⟩ | ⟨hl, hr⟩
    · obtain ⟨hnone, hkeeps⟩ := chosen?_of_integrals_eq_nil hl
      by_cases hproducts : l.kind? = some .product ∧ r.kind? = some .product
      · simp [chosen?, KeepsIntegral, hproducts, hnone, hr]
      · have hsplit : (times l r).KeepsIntegral ↔ r.KeepsIntegral :=
          ⟨fun hk => hk.2.1, fun hk => ⟨hkeeps, hk, fun hl' hr' => (hproducts ⟨hl', hr'⟩).elim⟩⟩
        rw [hsplit, chosen?, if_neg hproducts, hnone, Option.or_none]
        exact ihr hr
    · obtain ⟨hnone, hkeeps⟩ := chosen?_of_integrals_eq_nil hr
      have hsplit : (times l r).KeepsIntegral ↔ l.KeepsIntegral :=
        ⟨fun hk => hk.1, fun hk => ⟨hk, hkeeps, fun _ _ => hr⟩⟩
      have hchosen : (times l r).chosen? = l.chosen? := by
        rw [chosen?, hnone, Option.none_or, ite_self]
      rw [hsplit, hchosen]
      exact ihl hl

section Values

variable [Scalar α]

theorem map_kind_value? (t : Bracketing α) : t.value?.map Operand.kind = t.kind? := by
  induction t with
  | leaf x => cases x <;> rfl
  | times l r ihl ihr =>
    rw [value?, kind?, ← ihl, ← ihr]
    cases l.value? with
    | none => rfl
    | some x =>
      cases r.value? with
      | none => rfl
      | some y => exact x.map_kind_mul? y

theorem kind?_of_value? {t : Bracketing α} {x : Operand α} (h : t.value? = some x) : t.kind? = some x.kind := by
  rw [← map_kind_value?, h, Option.map_some]

/-- Brackets that fit the kinds of the factors have a value. -/
theorem exists_product {t : Bracketing α} (h : t.kind? = some .product) : ∃ p, t.value? = some (.product p) := by
  rw [← map_kind_value?, Option.map_eq_some_iff] at h
  obtain ⟨x, hx, hkind⟩ := h
  obtain ⟨p, rfl⟩ := Operand.exists_product hkind
  exact ⟨p, hx⟩

theorem value?_times {l r : Bracketing α} {z : Operand α} (h : (times l r).value? = some z) :
    ∃ x y, l.value? = some x ∧ r.value? = some y ∧ x.mul? y = some z := by
  simpa only [value?, Option.bind_eq_bind, Option.bind_eq_some_iff, exists_and_left] using h

/-- A product is integrated over the cell until it is given a domain. -/
theorem integratedAs_chosen? {t : Bracketing α} {x : Operand α} (h : t.value? = some x) : x.IntegratedAs t.chosen? := by
  induction t generalizing x with
  | leaf y =>
    obtain rfl := Option.some.inj h
    cases y <;> rfl
  | times l r ihl ihr =>
    obtain ⟨y, z, hy, hz, hmul⟩ := value?_times h
    have hproduct := (ihl hy).mul? (ihr hz) hmul
    simpa only [chosen?, kind?_of_value? hy, kind?_of_value? hz, Option.some.injEq] using hproduct

end Values

section Exact

variable [ExactScalar α]

/-- However the factors are bracketed, their value has all of them, in order. -/
theorem value?_collects {t : Bracketing α} {x : Operand α} (h : t.value? = some x) :
    x.scale = t.numbers.prod ∧ x.constants = t.constants ∧ x.functions = t.functions := by
  induction t generalizing x with
  | leaf y =>
    obtain rfl := Option.some.inj h
    cases y <;> simp [Factor.operand, Operand.scale, Operand.constants, Operand.functions,
      numbers, constants, functions, factors, List.filterMap_cons, Factor.number?, Factor.constant?,
      Factor.functions, Product.ofBasis]
  | times l r ihl ihr =>
    obtain ⟨y, z, hy, hz, hmul⟩ := value?_times h
    obtain ⟨hscale, hconstants, hfunctions⟩ := Operand.mul?_collects hmul
    obtain ⟨hl, hlc, hlf⟩ := ihl hy
    obtain ⟨hr, hrc, hrf⟩ := ihr hz
    rw [hscale, hconstants, hfunctions, hl, hlc, hlf, hr, hrc, hrf]
    simp [numbers, constants, functions, factors]

theorem product_eq {t : Bracketing α} {p : Product α} (h : t.value? = some (.product p)) :
    p = ⟨t.numbers.prod, t.constants, t.functions, p.integral⟩ := by
  obtain ⟨hfactor, hconstants, hfunctions⟩ := value?_collects h
  rw [← hfactor, ← hconstants, ← hfunctions]
  rfl

open Classical in
theorem integral_of_value? {t : Bracketing α} {k : IntegralKind} (hk : t.integrals = [k]) {p : Product α}
    (hp : t.value? = some (.product p)) : p.integral = if t.KeepsIntegral then k else .interior := by
  obtain ⟨hkept, hlost⟩ := chosen?_of_integrals_eq_singleton hk
  have hchosen : p.integral = t.chosen?.getD .interior := integratedAs_chosen? hp
  split_ifs with hkeeps
  · rw [hchosen, hkept hkeeps, Option.getD_some]
  · rw [hchosen, hlost hkeeps, Option.getD_none]

/-- A product of factors with one domain of integration among them has all factors, and has the domain unless that
stands in the right one of two products that are multiplied. Two ways to bracket the factors give the same product
if neither or both keep the domain. -/
theorem product_collects {t : Bracketing α} (ht : t.kind? = some .product) {k : IntegralKind} (hk : t.integrals = [k]) :
    ∃ p, t.value? = some (.product p) ∧ p.factor = t.numbers.prod ∧ p.constants = t.constants ∧ p.basis = t.functions ∧
      (p.integral = k ↔ k = .interior ∨ t.KeepsIntegral) ∧
      ∀ u : Bracketing α, u.kind? = some .product → u.factors = t.factors →
        (u.value? = t.value? ↔ (k = .interior ∨ (u.KeepsIntegral ↔ t.KeepsIntegral))) := by
  obtain ⟨p, hp⟩ := exists_product ht
  obtain ⟨hfactor, hconstants, hfunctions⟩ := value?_collects hp
  have hintegral := integral_of_value? hk hp
  refine ⟨p, hp, hfactor, hconstants, hfunctions, ?_, fun u hu hfactors => ?_⟩
  · rw [hintegral]
    by_cases hkeeps : t.KeepsIntegral <;> simp [hkeeps, eq_comm]
  · obtain ⟨q, hq⟩ := exists_product hu
    have hk' : u.integrals = [k] := by rw [integrals, hfactors, ← hk, integrals]
    -- All but the domains of integration agree, because they are read off the factors.
    have hsame : u.value? = t.value? ↔ q.integral = p.integral := by
      rw [hq, hp, product_eq hq, product_eq hp]
      simp [numbers, constants, functions, hfactors]
    rw [hsame, hintegral, integral_of_value? hk' hq]
    by_cases hkeeps : t.KeepsIntegral <;> by_cases hkeeps' : u.KeepsIntegral <;> simp [hkeeps, hkeeps', eq_comm]

end Exact

/-- A value at a point, as the test or the trial function of a form. -/
def pointValue (a : Argument) : BasisFunction := .ofArgument (.simple "Quadrature" (.simple .point) (some 1)) a

/-- A number on each side, a constant, and the domain in the left one of two products. -/
def boundaryOnLeft (α : Type) [Scalar α] : Bracketing α :=
  .times (.times (.leaf (.number 2)) (.times (.times (.leaf (.basis (pointValue .test))) (.leaf (.constant ⟨1⟩)))
    (.leaf (.integral .boundary)))) (.times (.leaf (.number 3)) (.leaf (.basis (pointValue .trial))))

theorem product_collects_boundaryOnLeft : (boundaryOnLeft ℝ).kind? = some .product ∧
    (boundaryOnLeft ℝ).integrals = [.boundary] ∧ (boundaryOnLeft ℝ).KeepsIntegral ∧
    ∃ p, (boundaryOnLeft ℝ).value? = some (.product p) ∧ p.factor = 6 ∧ p.constants = [⟨1⟩] ∧
      p.basis = [pointValue .test, pointValue .trial] ∧ p.integral = .boundary := by
  have hkeeps : (boundaryOnLeft ℝ).KeepsIntegral := by
    simp [boundaryOnLeft, KeepsIntegral, kind?, OperandKind.mul?, integrals, factors, Factor.integral?]
  obtain ⟨p, hp, hfactor, hconstants, hbasis, hintegral, -⟩ :=
    product_collects (t := boundaryOnLeft ℝ) rfl (k := .boundary) rfl
  have hnumbers : (boundaryOnLeft ℝ).numbers = [((2 : ℕ) : ℝ), ((3 : ℕ) : ℝ)] := rfl
  refine ⟨rfl, rfl, hkeeps, p, hp, ?_, hconstants, hbasis, hintegral.mpr (.inr hkeeps)⟩
  rw [hfactor, hnumbers]
  norm_num

/-- Two products, the right one integrated over the boundary. -/
def boundaryOnRight : Bracketing Float :=
  .times (.times (.leaf (.basis (pointValue .test))) (.leaf (.constant ⟨0⟩)))
    (.times (.leaf (.basis (pointValue .trial))) (.leaf (.integral .boundary)))

/-- The same factors, each multiplied from the right. -/
def boundaryLast : Bracketing Float :=
  .times (.times (.times (.leaf (.basis (pointValue .test))) (.leaf (.constant ⟨0⟩)))
    (.leaf (.basis (pointValue .trial)))) (.leaf (.integral .boundary))

/-- The domain of the right product is lost, so the brackets matter. -/
theorem boundaryOnRight_loses : boundaryOnRight.integrals = [.boundary] ∧
    boundaryLast.factors = boundaryOnRight.factors ∧
    ∃ p q, boundaryOnRight.value? = some (.product p) ∧ boundaryLast.value? = some (.product q) ∧
      p.integral = .interior ∧ q.integral = .boundary :=
  ⟨rfl, rfl, _, _, rfl, rfl, rfl, rfl⟩

end Bracketing
end Variational
