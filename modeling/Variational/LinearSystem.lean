import Variational.Scalar

/-! Square linear systems, with matrices as lists of rows. A system of any size is solved by elimination
with row pivoting and back substitution. A matrix with at most four rows is inverted by its cofactors,
so it counts as singular exactly when its determinant comes out as zero. -/
namespace Variational.LinearSystem

variable {α : Type} [Scalar α]

def identity (n : Nat) : List (List α) :=
  (List.range n).map fun i => (List.range n).map fun j => if i = j then 1 else 0

/-- Row lists to column lists, for `n` columns. -/
def columns {β : Type} (n : Nat) (rows : List (List β)) : List (List β) :=
  match rows with
  | [] => List.replicate n []
  | r :: rows => List.zipWith (· :: ·) r (columns n rows)

/-- An equation in the unknowns that are left, with a value on the right for each system. -/
structure Equation (α : Type) where
  entries : List α
  rhs : List α

/-- The size of the leading entry. -/
@[specialize] def Equation.lead (e : Equation α) : α := Scalar.abs (e.entries.headD 0)

/-- The position of the largest number, the first of equals. A candidate has to lie strictly above all
before it. -/
@[specialize] def largest : List α → Nat
  | [] => 0
  | x :: xs =>
    ((xs.zipIdx 1).foldl (fun best c => if Scalar.below best.1 c.1 then c else best) (x, 0)).2

/-- The equation with the largest leading entry, and the others with the first one in its place. -/
@[specialize] def takePivot : List (Equation α) → Option (Equation α × List (Equation α))
  | [] => none
  | e :: es =>
    match largest ((e :: es).map Equation.lead) with
    | 0 => some (e, es)
    | k + 1 => (es[k]?).map fun p => (p, es.set k e)

/-- Subtract the multiple of the pivot equation that clears the leading entry, and drop that entry.
The pivot equation comes without its own leading entry, whose reciprocal is `scale`. -/
@[specialize] def Equation.clear (scale : α) (pivot e : Equation α) : Equation α :=
  let l := e.entries.headD 0 * scale
  ⟨List.zipWith (fun y p => y - l * p) e.entries.tail pivot.entries,
    List.zipWith (fun y p => y - l * p) e.rhs pivot.rhs⟩

/-- The leading unknown of an equation, from the values of the others. They are put in from the last
to the first. -/
@[specialize] def Equation.substitute (e : Equation α) (lead : α) (others : List (List α)) : List α :=
  ((List.zip e.entries others).foldr
    (fun (a, x) acc => List.zipWith (fun y v => y - v * a) acc x) e.rhs).map (· / lead)

/-- The values of `n` unknowns, or nothing when a pivot vanishes. -/
@[specialize] def eliminate : Nat → List (Equation α) → Option (List (List α))
  | 0, _ => some []
  | n + 1, es =>
    match takePivot es with
    | some (⟨x :: xs, rhs⟩, others) =>
      if x == 0 then none
      else
        let pivot := ⟨xs, rhs⟩
        (eliminate n (others.map (Equation.clear (1 / x) pivot))).map fun rest =>
          pivot.substitute x rest :: rest
    | _ => none

/-- The solution of `matrix * x = rhs`, or nothing when a pivot vanishes. -/
@[specialize] def solve (matrix rhs : List (List α)) : Option (List (List α)) :=
  eliminate matrix.length (List.zipWith Equation.mk matrix rhs)

/-- The determinant of at most three rows. -/
@[specialize] def minor : List (List α) → α
  | [] => 1
  | [[a]] => a
  | [[a, b], [c, d]] => a * d - b * c
  | [[a, b, c], [d, e, f], [g, h, i]] =>
    a * e * i - a * h * f - b * d * i + b * g * f + c * d * h - c * g * e
  | _ => 0

/-- The cofactor of entry `(i, j)` of a matrix with at most four rows. -/
@[specialize] def cofactor (matrix : List (List α)) (i j : Nat) : α :=
  let d := minor ((matrix.eraseIdx i).map (·.eraseIdx j))
  if (i + j) % 2 = 0 then d else -d

/-- The cofactors of a matrix with at most four rows, transposed. -/
@[specialize] def adjugate (matrix : List (List α)) : List (List α) :=
  (List.range matrix.length).map fun i => (List.range matrix.length).map fun j => cofactor matrix j i

/-- The inverse of a matrix with one to three rows. The determinant is expanded along the first
row. -/
@[specialize] def inverseSmall (matrix : List (List α)) : Option (List (List α)) :=
  let adj := adjugate matrix
  let det := Scalar.dot (matrix.headD []) (adj.map (·.headD 0))
  if det == 0 then none else some (adj.map (·.map (· / det)))

/-- The inverse of a matrix with four rows. The determinant is expanded along the first column. -/
@[specialize] def inverseFour (matrix : List (List α)) : Option (List (List α)) :=
  let adj := adjugate matrix
  let det := Scalar.dot (matrix.map (·.headD 0)) (adj.headD [])
  if det == 0 then none
  else
    let scale := 1 / det
    some (adj.map (·.map (· * scale)))

/-- The inverse of a square matrix, or nothing when it is found to be singular. -/
@[specialize] def inverse (matrix : List (List α)) : Option (List (List α)) :=
  match matrix.length with
  | 0 => some []
  | 1 | 2 | 3 => inverseSmall matrix
  | 4 => inverseFour matrix
  | n => solve matrix (identity n)

end Variational.LinearSystem
