import Variational.Proofs.ExactScalar
import Variational.Code.Statement

/-! What generated code computes over the real numbers. Running a statement changes the numbers that are
stored under names; code that reads what is not stored, divides by zero, or whose text would be read in
another way than its structure says has no meaning. -/
namespace Variational.Code

/-- The numbers stored under names, by their indices, and the values of loop counters. -/
structure Memory where
  number : String → List ℕ → Option ℝ
  counter : String → Option ℕ

namespace Memory

/-- Replace what is stored under one name. -/
def define (m : Memory) (s : String) (f : List ℕ → Option ℝ) : Memory :=
  { m with number := Function.update m.number s f }

def write (m : Memory) (s : String) (is : List ℕ) (x : ℝ) : Memory :=
  m.define s (Function.update (m.number s) is (some x))

def setCounter (m : Memory) (s : String) (n : ℕ) : Memory :=
  { m with counter := Function.update m.counter s (some n) }

end Memory

/-- The result of an operation; nothing is divided by zero. -/
noncomputable def Op.apply : Op → ℝ → ℝ → Option ℝ
  | add, x, y => some (x + y)
  | sub, x, y => some (x - y)
  | mul, x, y => some (x * y)
  | div, x, y => if y = 0 then none else some (x / y)

namespace Expr

/-- How tightly the text of an expression holds together: sums, products, numbers with a sign, and
operands that no operation can tear apart. -/
noncomputable def tightness : Expr ℝ → ℕ
  | binary op _ _ _ => match op with
    | .add => 0
    | .sub => 0
    | .mul => 1
    | .div => 1
  | neg _ => 2
  | literal x => if x < 0 then 2 else 3
  | halves n => if n < 0 then 2 else 3
  | _ => 3

/-- An operation between two texts is read as the operation between the two expressions: sums and
products group to the left, and products bind tighter. -/
noncomputable def readsAs (op : Op) (spaced : Bool) (a b : Expr ℝ) : Bool :=
  match op with
  | .add => spaced && 1 ≤ b.tightness
  | .sub => spaced && 1 ≤ b.tightness
  | .mul => 1 ≤ a.tightness && b.tightness == 3
  | .div => 1 ≤ a.tightness && b.tightness == 3

/-- The value of an index. -/
def index? (m : Memory) : Expr ℝ → Option ℕ
  | natural n => some n
  | name s => m.counter s
  | _ => none

/-- The place that is read or written: a name with indices. A pointer stands for the first place it
points to. -/
def place? (m : Memory) : Expr ℝ → Option (String × List ℕ)
  | name s => if s = "*values" then some ("values", [0]) else some (s, [])
  | entry a i => do
    let (s, is) ← a.place? m
    let k ← i.index? m
    return (s, is ++ [k])
  | _ => none

noncomputable def eval (m : Memory) : Expr ℝ → Option ℝ
  | literal x => some x
  | halves n => some (n / 2)
  | natural _ => none
  | name s => do
    let (s, is) ← (name s).place? m
    m.number s is
  | entry a i => do
    let (s, is) ← (entry a i).place? m
    m.number s is
  | neg e => (e.eval m).map (- ·)
  | binary op spaced a b => do
    let x ← a.eval m
    let y ← b.eval m
    if readsAs op spaced a b then op.apply x y else none
  | parens e => e.eval m
  | call _ _ => none

end Expr

namespace Piece

/-- A term after others has a sign in front: that of its separator, or after a blank its own. -/
noncomputable def hasSign (p : Piece ℝ (Weighted ℝ)) : Bool :=
  p.separator = "+" || p.separator = " + " || (p.separator = "-" && decide (0 ≤ p.number)) ||
    (p.separator = " " && decide (p.number < 0))

noncomputable def eval (m : Memory) (p : Piece ℝ (Weighted ℝ)) : Option ℝ := do
  let factors ← p.term.factors.mapM fun e => if e.tightness = 3 then e.eval m else none
  let x := p.number * factors.prod
  return if p.separator = "-" then -x else x

/-- The sum that the texts of some terms make; an empty text is no number. -/
noncomputable def evalSum (m : Memory) : List (Piece ℝ (Weighted ℝ)) → Option ℝ
  | [] => none
  | p :: ps =>
    if (p.separator = "" || p.hasSign) && ps.all hasSign then do
      let x ← p.eval m
      let xs ← ps.mapM (eval m)
      return x + xs.sum
    else none

end Piece

noncomputable def Initial.eval (m : Memory) : Initial ℝ → Option ℝ
  | expr e => e.eval m
  | joined ts => Piece.evalSum m (Piece.joined Weighted.coefficient ts)
  | folded ts => Piece.evalSum m (Piece.folded Weighted.coefficient ts)

namespace Row

def number? : Row ℝ → List ℕ → Option ℝ
  | flat xs, [k] => xs[k]?
  | stacked rows, [j, k] => (rows[j]?).bind (·[k]?)
  | _, _ => none

/-- A row may give fewer numbers than it has places, never more. -/
def fits : Row ℝ → List ℕ → Bool
  | flat xs, [w] => xs.length ≤ w
  | stacked rows, [h, w] => rows.length ≤ h && rows.all (·.length ≤ w)
  | _, _ => false

end Row

/-- The numbers of a table; places that its rows do not give hold zero. -/
def tableNumber (dims : List ℕ) (rows : List (Row ℝ)) (is : List ℕ) : Option ℝ :=
  if is.length = dims.length ∧ (List.zip is dims).all (fun x => x.1 < x.2) then
    some ((match is with
      | r :: js => (rows[r]?).bind (·.number? js)
      | [] => none).getD 0)
  else none

namespace Statement

/-- Initialize an array; each value may read those before it. -/
noncomputable def runArray (s : String) : (k : ℕ) → List (Initial ℝ) → Memory → Option Memory
  | _, [], m => some m
  | k, v :: vs, m => do
    let x ← v.eval m
    runArray s (k + 1) vs (m.write s [k] x)

noncomputable def runAssignment (target : Expr ℝ) (increase : Bool) (e : Expr ℝ) (m : Memory) :
    Option Memory := do
  let (s, is) ← target.place? m
  let x ← e.eval m
  if increase then
    let old ← m.number s is
    return m.write s is (old + x)
  else return m.write s is x

noncomputable def runLoop (target : Expr ℝ) (increase : Bool) (e : Expr ℝ) :
    List (String × ℕ) → Memory → Option Memory
  | [], m => runAssignment target increase e m
  | (s, n) :: rest, m => do
    let m' ← (List.range n).foldlM (fun m k => runLoop target increase e rest (m.setCounter s k)) m
    return { m' with counter := m.counter }

noncomputable def run : Statement ℝ → Memory → Option Memory
  | comment _, m => some m
  | blank, m => some m
  | verbatim _, _ => none
  | constant s e, m => (e.eval m).map (m.write s [])
  | declare s e, m => (e.eval m).map (m.write s [])
  | array s vs, m => runArray s 0 vs (m.define s fun _ => none)
  | table _ s dims rows, m =>
    if dims.headD 0 < rows.length || !rows.all (·.fits dims.tail) then none
    else some (m.define s (tableNumber dims rows))
  | choose e bound s small large, m => do
    let x ← e.eval m
    let b ← m.number bound []
    let y ← if |x| < b then small.eval m else large.eval m
    return m.write s [] y
  | loop counters target increase e, m => runLoop target increase e counters m

end Statement

/-- Statements one after the other. -/
noncomputable def runAll (body : List (Statement ℝ)) (m : Memory) : Option Memory :=
  body.foldlM (fun m s => s.run m) m

namespace Memory

@[simp] theorem define_number (m : Memory) (s : String) (f : List ℕ → Option ℝ) :
    (m.define s f).number s = f := by simp [define]

theorem define_number_of_ne (m : Memory) {s t : String} (h : t ≠ s) (f : List ℕ → Option ℝ) :
    (m.define s f).number t = m.number t := by simp [define, h]

@[simp] theorem write_number (m : Memory) (s : String) (is : List ℕ) (x : ℝ) :
    (m.write s is x).number s is = some x := by simp [write]

theorem write_number_of_ne (m : Memory) {s t : String} (h : t ≠ s) (is : List ℕ) (x : ℝ) :
    (m.write s is x).number t = m.number t := define_number_of_ne m h _

theorem write_number_of_index_ne (m : Memory) (s : String) {is js : List ℕ} (h : js ≠ is) (x : ℝ) :
    (m.write s is x).number s js = m.number s js := by simp [write, h]

/-- Only numbers under the given names differ. -/
structure Frame (names : Set String) (m m' : Memory) : Prop where
  counter : m'.counter = m.counter
  number : ∀ s, s ∉ names → m'.number s = m.number s

theorem Frame.refl (names : Set String) (m : Memory) : Frame names m m := ⟨rfl, fun _ _ => rfl⟩

theorem Frame.trans {names names' : Set String} {m₁ m₂ m₃ : Memory} (h : Frame names m₁ m₂)
    (h' : Frame names' m₂ m₃) : Frame (names ∪ names') m₁ m₃ := by
  refine ⟨h'.counter.trans h.counter, fun s hs => ?_⟩
  rw [Set.mem_union, not_or] at hs
  rw [h'.number s hs.2, h.number s hs.1]

theorem Frame.mono {names names' : Set String} {m m' : Memory} (h : Frame names m m')
    (hsub : names ⊆ names') : Frame names' m m' :=
  ⟨h.counter, fun s hs => h.number s fun hmem => hs (hsub hmem)⟩

theorem frame_define (m : Memory) (s : String) (f : List ℕ → Option ℝ) :
    Frame {s} m (m.define s f) := ⟨rfl, fun _ ht => define_number_of_ne m ht f⟩

theorem frame_write (m : Memory) (s : String) (is : List ℕ) (x : ℝ) :
    Frame {s} m (m.write s is x) := frame_define m s _

end Memory

open Memory

namespace Expr

variable {m : Memory}

theorem eval_name {s : String} (hs : s ≠ "*values") : (name s).eval m = m.number s [] := by
  simp [eval, place?, hs]

theorem eval_entry {s : String} (hs : s ≠ "*values") (k : ℕ) :
    (entry (name s) (natural k)).eval m = m.number s [k] := by
  simp [eval, place?, index?, hs]

@[simp] theorem eval_one : (one : Expr ℝ).eval m = some 1 := by
  simp [one, eval]

section Operations

variable {a b : Expr ℝ} {x y : ℝ} (ha : a.eval m = some x) (hb : b.eval m = some y)
include ha hb

theorem eval_plus (ht : 1 ≤ b.tightness) : (plus a b).eval m = some (x + y) := by
  simp [plus, eval, ha, hb, readsAs, ht, Op.apply]

theorem eval_minus (ht : 1 ≤ b.tightness) : (minus a b).eval m = some (x - y) := by
  simp [minus, eval, ha, hb, readsAs, ht, Op.apply]

theorem eval_times (spaced : Bool) (hta : 1 ≤ a.tightness) (htb : b.tightness = 3) :
    (binary .mul spaced a b).eval m = some (x * y) := by
  simp [eval, ha, hb, readsAs, hta, htb, Op.apply]

theorem eval_divide (hta : 1 ≤ a.tightness) (htb : b.tightness = 3) (hy : y ≠ 0) :
    (divide a b).eval m = some (x / y) := by
  simp [divide, eval, ha, hb, readsAs, hta, htb, Op.apply, hy]

end Operations
end Expr

theorem runAll_nil (m : Memory) : runAll [] m = some m := rfl

theorem runAll_cons (s : Statement ℝ) (body : List (Statement ℝ)) (m : Memory) :
    runAll (s :: body) m = (s.run m).bind (runAll body) := List.foldlM_cons

theorem runAll_append (xs ys : List (Statement ℝ)) (m : Memory) :
    runAll (xs ++ ys) m = (runAll xs m).bind (runAll ys) := List.foldlM_append

theorem runAll_cons_of {s : Statement ℝ} {m m₁ : Memory} (h : s.run m = some m₁)
    (body : List (Statement ℝ)) : runAll (s :: body) m = runAll body m₁ := by
  rw [runAll_cons, h, Option.bind_some]

@[simp] theorem runAll_comment (text : String) (body : List (Statement ℝ)) (m : Memory) :
    runAll (.comment text :: body) m = runAll body m := rfl

@[simp] theorem runAll_blank (body : List (Statement ℝ)) (m : Memory) :
    runAll (.blank :: body) m = runAll body m := rfl

/-- A run of some statements leads to a run of these and further ones. -/
theorem runAll_append_of {xs ys : List (Statement ℝ)} {m m₁ m₂ : Memory} (hx : runAll xs m = some m₁)
    (hy : runAll ys m₁ = some m₂) : runAll (xs ++ ys) m = some m₂ := by
  rw [runAll_append, hx]
  exact hy

/-- What each part of some code carries on holds after all of it. -/
theorem runAll_rounds {body : ℕ → List (Statement ℝ)} {P : ℕ → Memory → Prop} {m : Memory} {n : ℕ}
    (hstart : P 0 m) (hround : ∀ k < n, ∀ m', P k m' →
      ∃ m'', runAll (body k) m' = some m'' ∧ P (k + 1) m'') :
    ∃ m', runAll ((List.range n).flatMap body) m = some m' ∧ P n m' := by
  induction n with
  | zero => exact ⟨m, rfl, hstart⟩
  | succ n ih =>
    obtain ⟨m₁, hrun₁, hm₁⟩ := ih fun k hk => hround k (by omega)
    obtain ⟨m₂, hrun₂, hm₂⟩ := hround n (by omega) m₁ hm₁
    refine ⟨m₂, ?_, hm₂⟩
    rw [List.range_succ, List.flatMap_append, List.flatMap_singleton]
    exact runAll_append_of hrun₁ hrun₂

theorem tableNumber_flat (rows : List (List ℝ)) {h w r k : ℕ} (hr : r < h) (hk : k < w) :
    tableNumber [h, w] (rows.map .flat) [r, k] = some ((rows.getD r []).getD k 0) := by
  have hplace : [r, k].length = [h, w].length ∧ (List.zip [r, k] [h, w]).all (fun x => x.1 < x.2) :=
    ⟨rfl, by simp [hr, hk]⟩
  rw [tableNumber, if_pos hplace]
  simp only [List.getElem?_map, List.getD_eq_getElem?_getD]
  cases rows[r]? <;> simp [Row.number?]

namespace Statement

/-- A table whose rows have one length. -/
theorem run_table {rows : List (List ℝ)} {w : ℕ} (hrows : ∀ row ∈ rows, row.length = w)
    (qualifiers s : String) (m : Memory) :
    (table qualifiers s [rows.length, w] (rows.map .flat)).run m =
      some (m.define s (tableNumber [rows.length, w] (rows.map .flat))) := by
  have hfits : (rows.map Row.flat).all (·.fits [w]) = true := by
    rw [List.all_map, List.all_eq_true]
    intro row hrow
    exact decide_eq_true (hrows row hrow).le
  rw [run, List.tail_cons, hfits, List.length_map]
  simp

theorem run_declare {m : Memory} {e : Expr ℝ} {x : ℝ} (he : e.eval m = some x) (s : String) :
    (declare s e).run m = some (m.write s [] x) := by
  rw [run, he, Option.map_some]

section Choice

variable {m : Memory} {e small large : Expr ℝ} {bound s : String} {x b y : ℝ}
  (he : e.eval m = some x) (hb : m.number bound [] = some b)
include he hb

theorem run_choose_small (h : |x| < b) (hy : small.eval m = some y) :
    (choose e bound s small large).run m = some (m.write s [] y) := by
  simp [run, he, hb, h, hy]

theorem run_choose_large (h : b ≤ |x|) (hy : large.eval m = some y) :
    (choose e bound s small large).run m = some (m.write s [] y) := by
  simp [run, he, hb, not_lt.mpr h, hy]

end Choice

/-- An array holds the values of its initializers, each evaluated where those before it are known. -/
theorem runArray_ok {s : String} {f : ℕ → ℝ} {vs : List (Initial ℝ)} {k : ℕ} {m : Memory}
    (hm : ∀ l < k, m.number s [l] = some (f l))
    (hvs : ∀ j v, vs[j]? = some v → ∀ m', Frame {s} m m' →
      (∀ l < k + j, m'.number s [l] = some (f l)) → v.eval m' = some (f (k + j))) :
    ∃ m', runArray s k vs m = some m' ∧ Frame {s} m m' ∧
      ∀ l < k + vs.length, m'.number s [l] = some (f l) := by
  induction vs generalizing k m with
  | nil => exact ⟨m, rfl, Frame.refl _ m, hm⟩
  | cons v vs ih =>
    have hv := hvs 0 v rfl m (Frame.refl _ m) hm
    rw [Nat.add_zero] at hv
    have hwrite := frame_write m s [k] (f k)
    have hnext : ∀ l < k + 1, (m.write s [k] (f k)).number s [l] = some (f l) := by
      intro l hl
      by_cases hlk : l = k
      · subst hlk
        exact write_number m s [l] (f l)
      · rw [write_number_of_index_ne m s (by simpa using hlk)]
        exact hm l (by omega)
    obtain ⟨m', hrun, hframe, hm'⟩ := ih hnext fun j v' hj m' hframe hl => by
      have h := hvs (j + 1) v' (by simpa using hj) m' ((hwrite.trans hframe).mono (by simp))
      rw [show k + (j + 1) = k + 1 + j by omega] at h
      exact h hl
    refine ⟨m', ?_, (hwrite.trans hframe).mono (by simp), ?_⟩
    · simp only [runArray, hv, Option.bind_eq_bind, Option.bind_some, hrun]
    · intro l hl
      exact hm' l (by simp only [List.length_cons] at hl; omega)

theorem run_array {s : String} {f : ℕ → ℝ} {vs : List (Initial ℝ)} {m : Memory}
    (hvs : ∀ j v, vs[j]? = some v → ∀ m', Frame {s} m m' →
      (∀ l < j, m'.number s [l] = some (f l)) → v.eval m' = some (f j)) :
    ∃ m', (array s vs).run m = some m' ∧ Frame {s} m m' ∧
      ∀ l < vs.length, m'.number s [l] = some (f l) := by
  have hdefine := frame_define m s fun _ => none
  obtain ⟨m', hrun, hframe, hm'⟩ : ∃ m', runArray s 0 vs (m.define s fun _ => none) = some m' ∧
      Frame {s} (m.define s fun _ => none) m' ∧
      ∀ l < 0 + vs.length, m'.number s [l] = some (f l) := by
    apply runArray_ok (by omega)
    intro j v hj m' hframe hl
    rw [Nat.zero_add] at hl ⊢
    exact hvs j v hj m' ((hdefine.trans hframe).mono (by simp)) hl
  refine ⟨m', hrun, (hdefine.trans hframe).mono (by simp), ?_⟩
  simpa using hm'

theorem run_assign {s : String} {is : List ℕ} {target e : Expr ℝ} {m : Memory} {x : ℝ}
    (htarget : target.place? m = some (s, is)) (he : e.eval m = some x) :
    (assign target e).run m = some (m.write s is x) := by
  simp [assign, run, runLoop, runAssignment, htarget, he]

/-- One round of a loop that adds up numbers in a place. -/
theorem run_increase {s : String} {is : List ℕ} {target e : Expr ℝ} {m : Memory} {x y : ℝ}
    (hx : m.number s is = some x) (htarget : target.place? m = some (s, is))
    (he : e.eval m = some y) :
    runAssignment target true e m = some (m.write s is (x + y)) := by
  simp [runAssignment, htarget, he, hx]

/-- A loop that adds up numbers in a place changes this place only. -/
theorem run_loop_sum {counter s : String} {is : List ℕ} {target e : Expr ℝ} {n : ℕ} {f : ℕ → ℝ}
    {m : Memory} {x : ℝ} (hx : m.number s is = some x)
    (htarget : ∀ m' : Memory, target.place? m' = some (s, is))
    (he : ∀ j < n, ∀ m' : Memory, (∀ t, t ≠ s → m'.number t = m.number t) →
      m'.counter = Function.update m.counter counter (some j) → e.eval m' = some (f j)) :
    ∃ m', (loop [(counter, n)] target true e).run m = some m' ∧ Frame {s} m m' ∧
      (∀ js, js ≠ is → m'.number s js = m.number s js) ∧
      m'.number s is = some (x + ∑ j ∈ Finset.range n, f j) := by
  have hrounds : ∃ m', (List.range n).foldlM
        (fun m k => runLoop target true e [] (m.setCounter counter k)) m = some m' ∧
      (∀ t, t ≠ s → m'.number t = m.number t) ∧
      (∀ js, js ≠ is → m'.number s js = m.number s js) ∧
      m'.number s is = some (x + ∑ j ∈ Finset.range n, f j) ∧
      ∀ k, Function.update m'.counter counter k = Function.update m.counter counter k := by
    -- Rounds leave the counter at any value; the next round sets it anew.
    induction n with
    | zero => exact ⟨m, rfl, fun _ _ => rfl, fun _ _ => rfl, by simpa using hx, fun _ => rfl⟩
    | succ n ih =>
      obtain ⟨m₁, hrun, hother, hindex, hsum, hcounter⟩ := ih fun j hj => he j (by omega)
      have hstep : (m₁.setCounter counter n).number s is = some (x + ∑ j ∈ Finset.range n, f j) := hsum
      have hvalue := he n (by omega) (m₁.setCounter counter n) hother (hcounter _)
      refine ⟨(m₁.setCounter counter n).write s is (x + ∑ j ∈ Finset.range n, f j + f n), ?_,
        fun t ht => ?_, fun js hjs => ?_, ?_, fun k => ?_⟩
      · have hround := run_increase hstep (htarget _) hvalue
        rw [List.range_succ, List.foldlM_append, hrun]
        simp [runLoop, hround]
      · rw [write_number_of_ne _ ht]
        exact hother t ht
      · rw [write_number_of_index_ne _ _ hjs]
        exact hindex js hjs
      · rw [write_number, Finset.sum_range_succ, add_assoc]
      · exact (Function.update_idem _ _ _).trans (hcounter k)
  obtain ⟨m', hrun, hother, hindex, hsum, -⟩ := hrounds
  refine ⟨{ m' with counter := m.counter }, ?_, ⟨rfl, fun t ht => hother t ht⟩, hindex, hsum⟩
  rw [run, runLoop, hrun]
  rfl

end Statement
end Variational.Code
