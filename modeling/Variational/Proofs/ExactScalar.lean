import Mathlib
import Variational.Scalar

/-! Exact arithmetic. A scalar is exact when its sums and products form a commutative ring and its test
for equality finds equal numbers only. Nothing is asked of division, roots or comparison, so what is
proved for all exact scalars rests on the ring laws alone. The real numbers are the exact scalars in
which the other operations have their usual meaning too. -/
namespace Variational

class ExactScalar (α : Type) extends CommRing α, Scalar α where
  eq_of_beq {x y : α} : (x == y) = true → x = y

noncomputable instance : ExactScalar ℝ where
  __ := (inferInstance : CommRing ℝ)
  div := (· / ·)
  beq x y := decide (x = y)
  sqrt := Real.sqrt
  cos := Real.cos
  pow := (· ^ ·)
  pi := Real.pi
  abs := abs
  below x y := decide (x < y)
  eq_of_beq h := by simpa using h

section Lists

theorem getD_zipWith_mul {β : Type} [CommRing β] (xs ys : List β) (q : ℕ) :
    (List.zipWith (· * ·) xs ys).getD q 0 = xs.getD q 0 * ys.getD q 0 := by
  simp only [List.getD_eq_getElem?_getD, List.getElem?_zipWith]
  cases xs[q]? <;> cases ys[q]? <;> simp

theorem getD_zipWith {β : Type} [Zero β] {f : β → β → β} (hf : f 0 0 = 0) {xs ys : List β}
    (h : xs.length = ys.length) (q : ℕ) : (List.zipWith f xs ys).getD q 0 = f (xs.getD q 0) (ys.getD q 0) := by
  simp only [List.getD_eq_getElem?_getD, List.getElem?_zipWith]
  by_cases hq : q < xs.length
  · simp [h ▸ hq, hq]
  · have hq := not_lt.mp hq
    simp [h ▸ hq, hq, hf]

theorem exists_pair_of_length {β : Type} {xs : List β} (h : 2 ≤ xs.length) : ∃ x y rest, xs = x :: y :: rest := by
  obtain ⟨x, tail, rfl⟩ := List.exists_cons_of_length_pos (Nat.zero_lt_of_lt h)
  obtain ⟨y, rest, rfl⟩ := List.exists_cons_of_length_pos (Nat.lt_of_succ_lt_succ h)
  exact ⟨x, y, rest, rfl⟩

theorem exists_triple_of_length {β : Type} {xs : List β} (h : 3 ≤ xs.length) :
    ∃ x y z rest, xs = x :: y :: z :: rest := by
  obtain ⟨x, tail, rfl⟩ := List.exists_cons_of_length_pos (Nat.zero_lt_of_lt h)
  obtain ⟨y, z, rest, rfl⟩ := exists_pair_of_length (Nat.le_of_succ_le_succ h)
  exact ⟨x, y, z, rest, rfl⟩

theorem sum_eq_getD {β : Type} [AddCommMonoid β] (xs : List β) :
    xs.sum = ∑ q ∈ Finset.range xs.length, xs.getD q 0 := by
  induction xs with
  | nil => simp
  | cons x xs ih => simp [Finset.sum_range_succ', ih, add_comm]

theorem sum_flatMap {β γ δ : Type} [AddCommMonoid β] (xs : List γ) (g : γ → List δ) (f : δ → β) :
    ((xs.flatMap g).map f).sum = (xs.map fun x => ((g x).map f).sum).sum := by
  induction xs with
  | nil => rfl
  | cons x xs ih => simp [ih]

theorem sum_map_sum_comm {β γ δ : Type} [AddCommMonoid β] (xs : List γ) (ys : List δ) (f : γ → δ → β) :
    (xs.map fun x => (ys.map fun y => f x y).sum).sum = (ys.map fun y => (xs.map fun x => f x y).sum).sum := by
  induction xs with
  | nil => simp
  | cons x xs ih => simp only [List.map_cons, List.sum_cons, ih, ← List.sum_map_add]

end Lists

namespace Scalar

variable {α : Type} [ExactScalar α]

/-- Numerals of the scalar class are the casts that the ring has. -/
theorem numeral_eq_cast (n : ℕ) : @OfNat.ofNat α n (numeral α n) = (n : α) := rfl

@[simp] theorem numeral_zero : @OfNat.ofNat α 0 (numeral α 0) = 0 := by
  rw [numeral_eq_cast, Nat.cast_zero]

@[simp] theorem numeral_one : @OfNat.ofNat α 1 (numeral α 1) = 1 := by
  rw [numeral_eq_cast, Nat.cast_one]

theorem sum_eq (xs : List α) : sum xs = xs.sum := by
  rw [List.sum_eq_foldl]
  simp only [sum, numeral_zero]

theorem dot_eq (xs ys : List α) (h : xs.length = ys.length) :
    dot xs ys = ∑ q ∈ Finset.range xs.length, xs.getD q 0 * ys.getD q 0 := by
  have hlength : (List.zipWith (· * ·) xs ys).length = xs.length := by
    rw [List.length_zipWith, ← h, Nat.min_self]
  rw [dot, sum_eq, sum_eq_getD, hlength]
  exact Finset.sum_congr rfl fun q _ => getD_zipWith_mul xs ys q

theorem dot_cons (x y : α) (xs ys : List α) : dot (x :: xs) (y :: ys) = x * y + dot xs ys := by
  simp only [dot, sum_eq, List.zipWith_cons_cons, List.sum_cons]

theorem dot_nil_right (xs : List α) : dot xs [] = 0 := by
  rw [dot, List.zipWith_nil_right, sum_nil, numeral_zero]

theorem dot_replicate_zero (n : ℕ) (ys : List α) : dot (List.replicate n 0) ys = 0 := by
  induction n generalizing ys with
  | zero => exact numeral_zero
  | succ n ih =>
    cases ys with
    | nil => exact dot_nil_right _
    | cons y ys => rw [List.replicate_succ, dot_cons, ih, zero_mul, zero_add]

theorem dot_comm (xs ys : List α) : dot xs ys = dot ys xs := by
  rw [dot, dot, List.zipWith_comm_of_comm fun x y => mul_comm x y]

end Scalar

/-- A finite sum and the sum of a list may change places. -/
theorem sum_map_finset_sum {ι β α : Type} [AddCommMonoid α] (s : Finset ι) (xs : List β)
    (f : β → ι → α) :
    (xs.map fun x => ∑ i ∈ s, f x i).sum = ∑ i ∈ s, (xs.map fun x => f x i).sum := by
  induction xs with
  | nil => simp
  | cons x xs ih => simp only [List.map_cons, List.sum_cons, ih, Finset.sum_add_distrib]

end Variational
