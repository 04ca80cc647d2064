import Mathlib
import Variational.Code.Statement

/-! What generated code computes with natural numbers. A run is the list of its writes to places; code that
reads a place which holds nothing, or whose text would be read in another way than its structure says, has
no meaning. -/
namespace Variational.Code

/-- A name with indices. -/
abbrev Place := String × List ℕ

/-- The writes of a run, the last one first. -/
abbrev Writes := List (Place × ℕ)

namespace Writes

/-- What a place holds: the number last written to it, or else what is given. -/
def read (given : Place → Option ℕ) (w : Writes) (p : Place) : Option ℕ := (w.lookup p).or (given p)

/-- The writes to the places of one name. -/
def under (s : String) (w : Writes) : Writes := w.filter fun x => x.1.1 = s

end Writes

variable {α : Type}

namespace Expr

/-- How tightly the text of an expression holds together: sums, products, and operands. -/
def bond : Expr α → ℕ
  | binary .mul _ _ _ => 1
  | binary _ _ _ _ => 0
  | _ => 2

/-- The place that is named, with numbers as indices. -/
def named? : Expr α → Option Place
  | name s => some (s, [])
  | entry a (natural k) => a.named?.map fun p => (p.1, p.2 ++ [k])
  | _ => none

/-- The value of an expression. Sums and products group to the left, and products bind tighter. -/
def count? (memory : Place → Option ℕ) : Expr α → Option ℕ
  | natural n => some n
  | binary .add _ a b => do
    let x ← a.count? memory
    let y ← b.count? memory
    if 1 ≤ b.bond then some (x + y) else none
  | binary .mul _ a b => do
    let x ← a.count? memory
    let y ← b.count? memory
    if 1 ≤ a.bond ∧ b.bond = 2 then some (x * y) else none
  | e => e.named?.bind memory

end Expr

namespace Statement

/-- Run a statement; the one declaration that has a meaning is that of the offset. -/
def trace (given : Place → Option ℕ) : Statement α → Writes → Option Writes
  | blank, w => some w
  | verbatim line, w => if line = "unsigned int offset = 0;" then some ((("offset", []), 0) :: w) else none
  | loop [] target increase e, w => do
    let p ← target.named?
    let x ← e.count? (w.read given)
    let old ← if increase then w.read given p else some 0
    return (p, old + x) :: w
  | _, _ => none

end Statement

/-- Statements one after the other. -/
def traceAll (given : Place → Option ℕ) (body : List (Statement α)) (w : Writes) : Option Writes :=
  body.foldlM (fun w s => s.trace given w) w

variable {given : Place → Option ℕ}

theorem traceAll_cons (s : Statement α) (body : List (Statement α)) (w : Writes) :
    traceAll given (s :: body) w = (s.trace given w).bind (traceAll given body) := rfl

theorem traceAll_append (body rest : List (Statement α)) (w : Writes) :
    traceAll given (body ++ rest) w = (traceAll given body w).bind (traceAll given rest) :=
  List.foldlM_append

namespace Expr

variable {memory : Place → Option ℕ} {a b : Expr α} {x y : ℕ} (ha : a.count? memory = some x)
  (hb : b.count? memory = some y)
include ha hb

theorem count?_plus (hbond : 1 ≤ b.bond) : (plus a b).count? memory = some (x + y) := by
  simp [plus, count?, ha, hb, hbond]

theorem count?_times (hleft : 1 ≤ a.bond) (hright : b.bond = 2) :
    (times a b).count? memory = some (x * y) := by
  simp [times, count?, ha, hb, hleft, hright]

end Expr

theorem Statement.trace_assign {target e : Expr α} {w : Writes} {p : Place} {x : ℕ}
    (hp : target.named? = some p) (hx : e.count? (w.read given) = some x) :
    (assign target e).trace given w = some ((p, x) :: w) := by
  simp [assign, trace, hp, hx]

theorem Statement.trace_increase {target e : Expr α} {w : Writes} {p : Place} {x old : ℕ}
    (hp : target.named? = some p) (hx : e.count? (w.read given) = some x)
    (hold : w.read given p = some old) :
    (loop [] target true e).trace given w = some ((p, old + x) :: w) := by
  simp [trace, hp, hx, hold]

namespace Writes

variable {w : Writes} {p : Place} {n : ℕ}

@[simp] theorem read_nil : read given [] p = given p := rfl

@[simp] theorem read_cons_self : read given ((p, n) :: w) p = some n := by
  simp [read, List.lookup]

theorem read_cons_of_ne {q : Place} (h : p ≠ q) : read given ((q, n) :: w) p = read given w p := by
  simp [read, List.lookup, beq_eq_false_iff_ne.mpr h]

theorem mem_under {s : String} {x : Place × ℕ} : x ∈ w.under s ↔ x ∈ w ∧ x.1.1 = s := by simp [under]

/-- A place under a name that is never written holds what is given. -/
theorem read_of_under_nil (h : w.under p.1 = []) : w.read given p = given p := by
  have hlookup : w.lookup p = none := by
    rw [List.lookup_eq_none_iff]
    intro x hx
    rw [bne_iff_ne]
    rintro rfl
    have hmem := mem_under.mpr ⟨hx, rfl⟩
    rw [h] at hmem
    cases hmem
  simp [read, hlookup]

/-- When no place of a name is written twice, each holds what was written to it. -/
theorem read_of_mem (hdistinct : ((w.under p.1).map (·.1)).Nodup) (h : (p, n) ∈ w) :
    w.read given p = some n := by
  induction w with
  | nil => cases h
  | cons x w ih =>
    obtain ⟨q, k⟩ := x
    rcases List.mem_cons.mp h with heq | h
    · obtain ⟨rfl, rfl⟩ := Prod.mk.inj heq
      exact read_cons_self
    · have hmem : p ∈ (under p.1 w).map (·.1) := List.mem_map_of_mem (mem_under.mpr ⟨h, rfl⟩)
      by_cases hname : q.1 = p.1
      · rw [under, List.filter_cons_of_pos (by simpa using hname), List.map_cons,
          List.nodup_cons] at hdistinct
        have hne : p ≠ q := by
          rintro rfl
          exact hdistinct.1 hmem
        rw [read_cons_of_ne hne]
        exact ih hdistinct.2 h
      · rw [under, List.filter_cons_of_neg (by simpa using hname)] at hdistinct
        have hne : p ≠ q := by
          rintro rfl
          exact hname rfl
        rw [read_cons_of_ne hne]
        exact ih hdistinct h

end Writes
end Variational.Code
