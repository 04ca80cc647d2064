import Variational.Error
import Variational.Polynomial.Jacobi

/-! Orthogonal expansion sets on the reference cells: collapsed products of Jacobi polynomials on
simplices, products of Legendre polynomials on boxes. A set of degree `n` lists its members with value
and gradient at a point; its members integrate against each other to `1 / 2 ^ dim` on the diagonal. -/
namespace Variational.Expansion

variable {α : Type} [Scalar α]

/-- A function at a point: its value and its first derivatives. -/
structure Jet (α : Type) where
  value : α
  gradient : List α

/-- The scaled Legendre polynomial of degree `k` on the unit interval. -/
@[specialize] def legendre (k : Nat) (x : α) : α × α :=
  let s := Scalar.sqrt ((k : α) + 1 / 2)
  (Jacobi.value 0 0 k (2 * x - 1) * s, 2 * Jacobi.derivative 0 0 k (2 * x - 1) * s)

@[specialize] def legendreUpTo (degree : Nat) (x : α) : List (α × α) :=
  (List.range (degree + 1)).map fun k => legendre k x

/-- Member `(i, j)` of the triangle set. -/
@[specialize] def triangleMember (i j : Nat) (x y : α) : Jet α :=
  let a := Jacobi.homogeneous 0 i (2 * x) (1 - y)
  let p : α := 2 * (i : α) + 1
  let b := Jacobi.value p 0 j (2 * y - 1)
  let db := 2 * Jacobi.derivative p 0 j (2 * y - 1)
  let norm := Scalar.sqrt (((i : α) + 1 / 2) * ((i : α) + j + 1))
  ⟨a.value * b * norm, [2 * a.byT * b * norm, (-a.byS * b + a.value * db) * norm]⟩

/-- Member `(i, j, k)` of the tetrahedron set. -/
@[specialize] def tetrahedronMember (i j k : Nat) (x y z : α) : Jet α :=
  let a := Jacobi.homogeneous 0 i (2 * x) (1 - y - z)
  let b := Jacobi.homogeneous (2 * (i : α) + 1) j (2 * y) (1 - z)
  let p : α := 2 * ((i + j : Nat) : α) + 2
  let c := Jacobi.value p 0 k (2 * z - 1)
  let dc := 2 * Jacobi.derivative p 0 k (2 * z - 1)
  let norm := Scalar.sqrt (((i : α) + 1 / 2) * ((i : α) + j + 1) * ((i : α) + j + k + 3 / 2))
  ⟨a.value * b.value * c * norm,
   [2 * a.byT * b.value * c * norm,
    (-a.byS * b.value + 2 * a.value * b.byT) * c * norm,
    (-a.byS * b.value * c - a.value * b.byS * c + a.value * b.value * dc) * norm]⟩

/-- Exponents of the members of the triangle set, by total degree. -/
def triangleModes (degree : Nat) : List (Nat × Nat) :=
  (List.range (degree + 1)).flatMap fun k => (List.range (k + 1)).map fun j => (k - j, j)

/-- Exponents of the members of the tetrahedron set, by total degree. -/
def tetrahedronModes (degree : Nat) : List (Nat × Nat × Nat) :=
  (List.range (degree + 1)).flatMap fun k => (List.range (k + 1)).flatMap fun l =>
    (List.range (k - l + 1)).map fun j => (k - l - j, j, l)

/-- Number of members. -/
def count : ReferenceCell → Nat → Nat
  | .point, _ => 1
  | .interval, n => n + 1
  | .triangle, n => (n + 2) * (n + 1) / 2
  | .quadrilateral, n => (n + 1) * (n + 1)
  | .tetrahedron, n => (n + 3) * (n + 2) * (n + 1) / 6
  | .hexahedron, n => (n + 1) * (n + 1) * (n + 1)

/-- The entries of a list with a running counter. -/
def numbered {β : Type} (xs : List β) : List (Nat × β) := xs.zipIdx.map fun (x, p) => (p, x)

/-- A loop inside another one: slot `a` of the outer loop becomes a row of `m` slots. -/
def nested {β γ : Type} (m : Nat) (xs : List (Nat × β)) (ys : List γ) : List (Nat × β × γ) :=
  xs.flatMap fun (a, x) => (numbered ys).map fun (b, y) => (a * m + b, x, y)

/-- The members of the set at a point, in the order in which they are computed and each with its slot
in the table. On simplices a counter goes along the slots; on boxes the slot follows from the degrees
in the variables. Coordinates beyond the dimension of the cell are ignored; a point with too few
coordinates has no values. -/
@[specialize] def writes (cell : ReferenceCell) (degree : Nat) (point : List α) :
    Result (List (Nat × Jet α)) :=
  let m := degree + 1
  match cell, point with
  | .point, _ => .ok [(0, ⟨1, []⟩)]
  | .interval, x :: _ => .ok ((numbered (legendreUpTo degree x)).map fun (p, v, d) => (p, ⟨v, [d]⟩))
  | .quadrilateral, x :: y :: _ =>
    let pairs := nested m (numbered (legendreUpTo degree x)) (legendreUpTo degree y)
    .ok (pairs.map fun (p, (v, d), (w, e)) => (p, ⟨v * w, [d * w, v * e]⟩))
  | .hexahedron, x :: y :: z :: _ =>
    let pairs := nested m (numbered (legendreUpTo degree x)) (legendreUpTo degree y)
    .ok ((nested m pairs (legendreUpTo degree z)).map fun (p, ((v, d), (w, e)), (u, f)) =>
      (p, ⟨v * w * u, [d * w * u, v * e * u, v * w * f]⟩))
  | .triangle, x :: y :: _ =>
    .ok ((numbered (triangleModes degree)).map fun (p, i, j) => (p, triangleMember i j x y))
  | .tetrahedron, x :: y :: z :: _ =>
    .ok ((numbered (tetrahedronModes degree)).map fun (p, i, j, k) => (p, tetrahedronMember i j k x y z))
  | _, _ => .error .outOfRange

/-- A table of zeros after the writes, each to a slot that the table has. -/
@[specialize] def fill (dim slots : Nat) (ws : List (Nat × Jet α)) : Result (List (Jet α)) :=
  if ws.all (·.1 < slots) then
    let zeros : Array (Jet α) := Array.replicate slots ⟨0, List.replicate dim 0⟩
    .ok (ws.foldl (fun table w => table.setIfInBounds w.1 w.2) zeros).toList
  else .error .outOfRange

/-- All members of the set at a point, by slot. -/
@[specialize] def jets (cell : ReferenceCell) (degree : Nat) (point : List α) : Result (List (Jet α)) :=
  writes cell degree point >>= fill cell.dim (count cell degree)

/-- Degree of each member: the total degree on simplices, the largest degree in one variable on
boxes. -/
def degrees (cell : ReferenceCell) (degree : Nat) : List Nat :=
  let upTo := List.range (degree + 1)
  match cell with
  | .point => [0]
  | .interval => upTo
  | .triangle => upTo.flatMap fun k => List.replicate (k + 1) k
  | .tetrahedron => upTo.flatMap fun k => List.replicate ((k + 2) * (k + 1) / 2) k
  | .quadrilateral => upTo.flatMap fun i => upTo.map fun j => max i j
  | .hexahedron => upTo.flatMap fun i => upTo.flatMap fun j => upTo.map fun k => max (max i j) k

/-- Where each member of the set of one degree stands in the set of a higher degree. Simplex sets are
ordered by degree, so there it is a front segment. -/
def embedding (cell : ReferenceCell) (degree target : Nat) : List Nat :=
  let upTo := List.range (degree + 1)
  let m := target + 1
  match cell with
  | .quadrilateral => upTo.flatMap fun a => upTo.map fun b => a * m + b
  | .hexahedron =>
    upTo.flatMap fun a => upTo.flatMap fun b => upTo.map fun c => (a * m + b) * m + c
  | _ => List.range (count cell degree)

/-- Values and first derivatives of all members, by point. -/
@[specialize] def tabulate (cell : ReferenceCell) (degree : Nat) (points : List (List α)) :
    Result (List (List (Jet α))) := points.mapM (jets cell degree)

end Variational.Expansion
