/-! Multi-indices: all tuples below a list of ranges, the last index fastest. -/
namespace Variational

/-- The ranges of a tuple of indices. -/
structure MultiIndex where
  dims : List Nat
  deriving DecidableEq, Repr

namespace MultiIndex

def tuples : List Nat → List (List Nat)
  | [] => [[]]
  | d :: ds => (List.range d).flatMap fun i => (tuples ds).map (i :: ·)

def rank (m : MultiIndex) : Nat := m.dims.length

/-- All values, in row-major order. -/
def indices (m : MultiIndex) : List (List Nat) := tuples m.dims

/-- The number of values. -/
def size (m : MultiIndex) : Nat := m.dims.foldr (· * ·) 1

/-- Entries joined by a separator. -/
def label (separator : String) (index : List Nat) : String :=
  separator.intercalate (index.map toString)

/-- Lists of one length joined end to end. -/
theorem length_flatMap_of_length {β γ : Type} (f : β → List γ) (n : Nat) (h : ∀ x, (f x).length = n)
    (xs : List β) : (xs.flatMap f).length = xs.length * n := by
  induction xs with
  | nil => simp
  | cons x xs ih =>
    rw [List.flatMap_cons, List.length_append, ih, h x, List.length_cons, Nat.succ_mul, Nat.add_comm]

/-- Row-major order: an entry of lists of one length joined end to end. -/
theorem getElem?_flatMap_of_length {β γ : Type} {f : β → List γ} {n : Nat} {xs : List β}
    (h : ∀ x ∈ xs, (f x).length = n) (k : Nat) {j : Nat} (hj : j < n) :
    (xs.flatMap f)[k * n + j]? = xs[k]?.bind fun x => (f x)[j]? := by
  induction xs generalizing k with
  | nil => rfl
  | cons x xs ih =>
    rw [List.forall_mem_cons] at h
    rw [List.flatMap_cons]
    cases k with
    | zero =>
      rw [Nat.zero_mul, Nat.zero_add, List.getElem?_append_left (h.1.symm ▸ hj)]
      rfl
    | succ k =>
      have hplace : (k + 1) * n + j = (f x).length + (k * n + j) := by
        rw [h.1, Nat.succ_mul, Nat.add_comm (k * n), Nat.add_assoc]
      rw [hplace, List.getElem?_append_right (Nat.le_add_right _ _), Nat.add_sub_cancel_left,
        ih h.2, List.getElem?_cons_succ]

theorem length_tuples (dims : List Nat) : (tuples dims).length = dims.foldr (· * ·) 1 := by
  induction dims with
  | nil => rfl
  | cons d ds ih =>
    rw [tuples, length_flatMap_of_length _ (tuples ds).length (fun i => List.length_map _),
      List.length_range, ih]
    rfl

@[simp] theorem length_indices (m : MultiIndex) : m.indices.length = m.size :=
  length_tuples m.dims

end MultiIndex
end Variational
