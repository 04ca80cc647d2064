import Variational.Proofs.ExactScalar
import Variational.Tensor.Monomial

/-! What the entries of geometry tensors mean: the value of a polynomial in the symbols on a cell where
each symbol has a value. Collecting like terms keeps it. -/
namespace Variational

/-- The values of the symbols on a physical cell. -/
structure CellData (α : Type) where
  jacobian : ℕ → ℕ → α
  inverseJacobian : ℕ → ℕ → α
  inverseDet : α
  constant : ℕ → α
  coefficient : ℕ → ℕ → α

def Symbol.eval {α : Type} (v : CellData α) : Symbol → α
  | jacobian i j => v.jacobian i j
  | inverseJacobian i j => v.inverseJacobian i j
  | constant n => v.constant n
  | coefficient n j => v.coefficient n j

theorem Symbol.compare_eq_iff (s t : Symbol) : s.compare t = .eq ↔ s = t := by
  have h : s.compare t = .eq ↔ s.key = t.key := by
    simp only [compare, Ordering.then_eq_eq, Nat.compare_eq_eq, Prod.ext_iff]
  rw [h]
  cases s <;> cases t <;> simp [key]

namespace Monomial

theorem compareSymbols_eq_iff (ss ts : List Symbol) : compareSymbols ss ts = .eq ↔ ss = ts := by
  induction ss generalizing ts with
  | nil => cases ts <;> simp [compareSymbols]
  | cons s ss ih =>
    cases ts with
    | nil => simp [compareSymbols]
    | cons t ts =>
      simp only [compareSymbols, Ordering.then_eq_eq, Symbol.compare_eq_iff, ih, List.cons.injEq]

theorem insertSymbol_perm (s : Symbol) (ss : List Symbol) : (insertSymbol s ss).Perm (s :: ss) := by
  induction ss with
  | nil => exact List.Perm.refl _
  | cons t ts ih =>
    unfold insertSymbol
    split
    · exact (ih.cons t).trans (List.Perm.swap s t ts)
    · exact List.Perm.refl _

theorem sortSymbols_perm (ss : List Symbol) : (sortSymbols ss).Perm ss := by
  induction ss with
  | nil => exact List.Perm.refl _
  | cons s ss ih => exact (insertSymbol_perm s _).trans (ih.cons s)

variable {α : Type} [ExactScalar α]

def eval (v : CellData α) (m : Monomial α) : α :=
  m.coefficient * v.inverseDet ^ m.detPower * (m.symbols.map (·.eval v)).prod

/-- The value of a sum of monomials. -/
def evalSum (v : CellData α) (ms : List (Monomial α)) : α := (ms.map (eval v)).sum

/-- The value of a monomial that may be missing; a missing one stands for zero. -/
def evalOption (v : CellData α) (m : Option (Monomial α)) : α := m.elim 0 (eval v)

@[simp] theorem evalOption_some (v : CellData α) (m : Monomial α) :
    evalOption v (some m) = m.eval v := rfl

@[simp] theorem evalOption_none (v : CellData α) :
    evalOption v (none : Option (Monomial α)) = 0 := rfl

@[simp] theorem evalSum_nil (v : CellData α) : evalSum v ([] : List (Monomial α)) = 0 := rfl

@[simp] theorem evalSum_cons (v : CellData α) (m : Monomial α) (ms : List (Monomial α)) :
    evalSum v (m :: ms) = m.eval v + evalSum v ms := by simp [evalSum]

@[simp] theorem eval_one (v : CellData α) : (one : Monomial α).eval v = 1 := by
  simp [eval, one]

@[simp] theorem eval_mul (v : CellData α) (m n : Monomial α) :
    (m * n).eval v = m.eval v * n.eval v := by
  change m.coefficient * n.coefficient * v.inverseDet ^ (m.detPower + n.detPower) *
    ((m.symbols ++ n.symbols).map (·.eval v)).prod = _
  rw [List.map_append, List.prod_append, pow_add]
  unfold eval
  ring

/-- What monomials stand for depends on the coefficient additively, and not on the order of the symbols. -/
structure IsAdditive {M : Type*} [AddCommMonoid M] (e : Monomial α → M) : Prop where
  zero : ∀ p ss, e ⟨0, p, ss⟩ = 0
  add : ∀ c d p ss, e ⟨c + d, p, ss⟩ = e ⟨c, p, ss⟩ + e ⟨d, p, ss⟩
  perm : ∀ c p {ss ts}, ss.Perm ts → e ⟨c, p, ss⟩ = e ⟨c, p, ts⟩

namespace IsAdditive

variable {M : Type*} [AddCommMonoid M] {e : Monomial α → M} (he : IsAdditive e)
include he

/-- A collected monomial starts from zero, and like terms differ by their coefficients alone. -/
theorem sum_collect (ms : List (Monomial α)) (m : Monomial α) :
    ((collect ms m).map e).sum = (ms.map e).sum + e m := by
  induction ms with
  | nil => simp [collect]
  | cons n ns ih =>
    unfold collect
    split
    · simp only [Scalar.numeral_zero, zero_add, List.map_cons, List.sum_cons]
      exact add_comm _ _
    · rename_i h
      obtain ⟨hd, hs⟩ : m.detPower = n.detPower ∧ m.symbols = n.symbols := by
        simpa [compare, Ordering.then_eq_eq, compareSymbols_eq_iff] using h
      obtain ⟨c, p, ss⟩ := m
      subst hd hs
      rw [List.map_cons, List.sum_cons, he.add, List.map_cons, List.sum_cons]
      exact add_right_comm _ _ _
    · rw [List.map_cons, List.sum_cons, ih, List.map_cons, List.sum_cons, add_assoc]

theorem sum_foldl_collect (ms acc : List (Monomial α)) :
    ((ms.foldl collect acc).map e).sum = (acc.map e).sum + (ms.map e).sum := by
  induction ms generalizing acc with
  | nil => simp
  | cons m ms ih => rw [List.foldl_cons, ih, he.sum_collect, List.map_cons, List.sum_cons, add_assoc]

/-- Monomials with the coefficient zero may be dropped. -/
theorem sum_filter (keep : Monomial α → Bool) (hkeep : ∀ m, keep m = false → m.coefficient = 0)
    (ms : List (Monomial α)) : ((ms.filter keep).map e).sum = (ms.map e).sum := by
  induction ms with
  | nil => rfl
  | cons m ms ih =>
    cases h : keep m with
    | true => simp [h, ih]
    | false =>
      obtain ⟨c, p, ss⟩ := m
      obtain rfl : c = 0 := hkeep _ h
      simp [h, ih, he.zero]

theorem sum_simplify (ms : List (Monomial α)) : ((simplify ms).map e).sum = (ms.map e).sum := by
  unfold simplify
  rw [he.sum_filter, he.sum_foldl_collect, List.map_nil, List.sum_nil, zero_add, List.map_map]
  · exact congrArg _ (List.map_congr_left fun m _ => he.perm _ _ (sortSymbols_perm m.symbols))
  · intro m hm
    rw [Bool.not_eq_false'] at hm
    simpa using ExactScalar.eq_of_beq hm

end IsAdditive

theorem isAdditive_eval (v : CellData α) : IsAdditive (eval v) where
  zero p ss := by simp [eval]
  add c d p ss := by simp only [eval, add_mul]
  perm c p ss ts h := by simp only [eval, (h.map (·.eval v)).prod_eq]

theorem evalSum_simplify (v : CellData α) (ms : List (Monomial α)) :
    evalSum v (simplify ms) = evalSum v ms := (isAdditive_eval v).sum_simplify ms

theorem evalSum_filterMap {β : Type} (v : CellData α) (f : β → Option (Monomial α)) (xs : List β) :
    evalSum v (xs.filterMap f) = (xs.map fun x => evalOption v (f x)).sum := by
  induction xs with
  | nil => rfl
  | cons x xs ih => cases h : f x <;> simp [h, ih]

/-- A product of monomials one of which is missing has the value zero. -/
theorem evalOption_mapM {β : Type} (v : CellData α) (f : β → Option (Monomial α)) (xs : List β)
    (m : Monomial α) :
    evalOption v ((xs.mapM f).map fun ms => ms.foldl (· * ·) m) =
      m.eval v * (xs.map fun x => evalOption v (f x)).prod := by
  induction xs generalizing m with
  | nil => simp
  | cons x xs ih =>
    cases h : f x with
    | none => simp [h]
    | some n =>
      have hx := ih (m * n)
      cases hs : xs.mapM f with
      | none => simp_all [mul_assoc]
      | some ns => simp_all [mul_assoc]

end Monomial
end Variational
