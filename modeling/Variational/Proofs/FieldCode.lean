import Variational.Proofs.IntegerCode

/-! What declarations of constants compute with numbers of a field. A constant is declared once; code that reads a place
which holds nothing, divides by zero, or whose text would be read in another way than its structure says has no
meaning. As nothing is ever overwritten, what an expression gives it also gives later. -/
namespace Variational.Code

/-- The numbers that places hold. -/
abbrev Store (K : Type) := Place → Option K

namespace Expr

variable {α : Type}

/-- How tightly the text of an expression holds together: sums, products, numbers that may have a sign, and operands
that no operation can tear apart. -/
def grip : Expr α → ℕ
  | binary .add _ _ _ => 0
  | binary .sub _ _ _ => 0
  | binary .mul _ _ _ => 1
  | binary .div _ _ _ => 1
  | neg _ => 2
  | literal _ => 2
  | halves n => if n < 0 then 2 else 3
  | _ => 3

/-- An operation between two texts is read as the operation between the two expressions: sums and products group to the
left, and products bind tighter. -/
def groups (op : Op) (spaced : Bool) (a b : Expr α) : Bool :=
  match op with
  | .add => spaced && 1 ≤ b.grip
  | .sub => spaced && 1 ≤ b.grip
  | .mul => 1 ≤ a.grip && b.grip == 3
  | .div => 1 ≤ a.grip && b.grip == 3

end Expr

variable {K : Type} [Field K] [DecidableEq K]

/-- The result of an operation in a field; nothing is divided by zero. -/
def Op.applyIn : Op → K → K → Option K
  | add, x, y => some (x + y)
  | sub, x, y => some (x - y)
  | mul, x, y => some (x * y)
  | div, x, y => if y = 0 then none else some (x / y)

namespace Expr

/-- The value of an expression in a field. A text such as `1.5` has a value only where there are halves. -/
def valueIn? (m : Store K) : Expr K → Option K
  | literal x => some x
  | halves n => if n % 2 = 0 then some (n / 2 : ℤ) else Op.div.applyIn (n : K) 2
  | neg e => (e.valueIn? m).map (- ·)
  | binary op spaced a b => do
    let x ← a.valueIn? m
    let y ← b.valueIn? m
    if groups op spaced a b then op.applyIn x y else none
  | parens e => e.valueIn? m
  | e => e.named?.bind m

variable {m m' : Store K} {a b : Expr K} {x y : K}

/-- What a store gives, a store with further numbers gives too. -/
theorem valueIn?_mono (h : ∀ p x, m p = some x → m' p = some x) {e : Expr K} (he : e.valueIn? m = some x) :
    e.valueIn? m' = some x := by
  induction e generalizing x with
  | literal | halves => exact he
  | natural | call => cases he
  | name s => exact h _ _ he
  | entry a i =>
    obtain ⟨p, hp, hx⟩ := Option.bind_eq_some_iff.mp he
    exact Option.bind_eq_some_iff.mpr ⟨p, hp, h p x hx⟩
  | neg e ih =>
    obtain ⟨y, hy, rfl⟩ := Option.map_eq_some_iff.mp he
    exact Option.map_eq_some_iff.mpr ⟨y, ih hy, rfl⟩
  | binary op spaced a b iha ihb =>
    obtain ⟨y, hy, he⟩ := Option.bind_eq_some_iff.mp he
    obtain ⟨z, hz, he⟩ := Option.bind_eq_some_iff.mp he
    exact Option.bind_eq_some_iff.mpr ⟨y, iha hy, Option.bind_eq_some_iff.mpr ⟨z, ihb hz, he⟩⟩
  | parens e ih => exact ih he

@[simp] theorem valueIn?_entry2 (s : String) (i j : ℕ) : (entry2 s i j).valueIn? m = m (s, [i, j]) := rfl

@[simp] theorem valueIn?_one : (one : Expr K).valueIn? m = some 1 := by
  simp [one, valueIn?]

section Operations

variable (ha : a.valueIn? m = some x) (hb : b.valueIn? m = some y)
include ha hb

theorem valueIn?_plus (hgrip : 1 ≤ b.grip) : (plus a b).valueIn? m = some (x + y) := by
  simp [plus, valueIn?, ha, hb, groups, hgrip, Op.applyIn]

theorem valueIn?_minus (hgrip : 1 ≤ b.grip) : (minus a b).valueIn? m = some (x - y) := by
  simp [minus, valueIn?, ha, hb, groups, hgrip, Op.applyIn]

theorem valueIn?_times (hleft : 1 ≤ a.grip) (hright : b.grip = 3) : (times a b).valueIn? m = some (x * y) := by
  simp [times, valueIn?, ha, hb, groups, hleft, hright, Op.applyIn]

theorem valueIn?_quotient (spaced : Bool) (hleft : 1 ≤ a.grip) (hright : b.grip = 3) (hy : y ≠ 0) :
    (binary .div spaced a b).valueIn? m = some (x / y) := by
  simp [valueIn?, ha, hb, groups, hleft, hright, Op.applyIn, hy]

end Operations
end Expr

/-- The coordinates of the vertices of a cell, by vertex and direction. -/
def Store.withVertices (vertices : List (List K)) (m : Store K) : Store K
  | ("x", [v, i]) => (vertices[v]?).bind (·[i]?)
  | p => m p

namespace Statement

/-- Run a statement for a cell with the given vertices. The coordinates are made known under a name of their own, and a
constant gets a name that is not in use. -/
def declareIn? (vertices : List (List K)) : Statement K → Store K → Option (Store K)
  | comment _, m => some m
  | blank, m => some m
  | verbatim line, m =>
    if line = "const double * const * x = c.coordinates;" then some (m.withVertices vertices) else none
  | constant s e, m =>
    if m (s, []) = none then (e.valueIn? m).map fun x => Function.update m (s, []) (some x) else none
  | _, _ => none

end Statement

/-- Statements one after the other. -/
def declareAll? (vertices : List (List K)) (body : List (Statement K)) (m : Store K) : Option (Store K) :=
  body.foldlM (fun m s => s.declareIn? vertices m) m

variable (vertices : List (List K)) {m : Store K}

theorem declareAll?_append_of {vertices : List (List K)} {body rest : List (Statement K)} {m' m'' : Store K}
    (h : declareAll? vertices body m = some m') (h' : declareAll? vertices rest m' = some m'') :
    declareAll? vertices (body ++ rest) m = some m'' := by
  rw [declareAll?, List.foldlM_append]
  exact Option.bind_eq_some_iff.mpr ⟨m', h, h'⟩

/-- Constants with different names that are not in use hold the values of their expressions, and nothing else
changes. -/
theorem declareAll?_constants {ι : Type} {name : ι → String} {e : ι → Expr K} {f : ι → K} {is : List ι}
    (hnodup : (is.map name).Nodup) (hfree : ∀ i ∈ is, m (name i, []) = none)
    (hvalue : ∀ i ∈ is, (e i).valueIn? m = some (f i)) :
    ∃ m', declareAll? vertices (is.map fun i => .constant (name i) (e i)) m = some m' ∧
      (∀ i ∈ is, m' (name i, []) = some (f i)) ∧ ∀ p, (∀ i ∈ is, p ≠ (name i, [])) → m' p = m p := by
  induction is generalizing m with
  | nil => exact ⟨m, rfl, List.forall_mem_nil _, fun _ _ => rfl⟩
  | cons i is ih =>
    rw [List.map_cons, List.nodup_cons] at hnodup
    rw [List.forall_mem_cons] at hfree hvalue
    have hne : ∀ j ∈ is, name j ≠ name i := fun j hj heq => hnodup.1 (heq ▸ List.mem_map_of_mem hj)
    let m₁ : Store K := Function.update m (name i, []) (some (f i))
    have hother {p : Place} (hp : p ≠ (name i, [])) : m₁ p = m p := Function.update_of_ne hp _ _
    have hgrows : ∀ p x, m p = some x → m₁ p = some x := by
      intro p x hx
      rw [hother fun hp => ?_, hx]
      rw [hp, hfree.1] at hx
      cases hx
    have hplace : ∀ j ∈ is, (name j, []) ≠ ((name i, []) : Place) := fun j hj heq =>
      hne j hj (congrArg Prod.fst heq)
    obtain ⟨m', hrun, hvalues, hframe⟩ := ih hnodup.2 (fun j hj => (hother (hplace j hj)).trans (hfree.2 j hj))
      fun j hj => Expr.valueIn?_mono hgrows (hvalue.2 j hj)
    have hstep : (Statement.constant (name i) (e i)).declareIn? vertices m = some m₁ := by
      rw [Statement.declareIn?, if_pos hfree.1, hvalue.1, Option.map_some]
    refine ⟨m', Option.bind_eq_some_iff.mpr ⟨m₁, hstep, hrun⟩, List.forall_mem_cons.mpr ⟨?_, hvalues⟩, fun p hp => ?_⟩
    · rw [hframe _ fun j hj => (hplace j hj).symm]
      exact Function.update_self _ _ _
    · rw [List.forall_mem_cons] at hp
      rw [hframe p hp.2, hother hp.1]

end Variational.Code
