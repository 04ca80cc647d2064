import Variational.Polynomial.Expansion
import Variational.Proofs.DofNumbering
import Variational.Proofs.Results

/-! The tables of the expansion sets. The loops over the members of a set write to the slots of its table one after the
other: the running counters end at the closed forms for the number of members, and the strides of the boxes leave no
slot out. A table therefore holds what was written, in order. -/
namespace Variational

open Result

namespace Expansion

section Counts

theorem length_triangleModes (n : ℕ) : (triangleModes n).length = count .triangle n := by
  have htwice : 2 * (triangleModes n).length = (n + 2) * (n + 1) := by
    induction n with
    | zero => rfl
    | succ n ih =>
      rw [triangleModes, List.range_succ, List.flatMap_append, List.length_append, mul_add]
      rw [triangleModes] at ih
      rw [ih, List.flatMap_singleton, List.length_map, List.length_range]
      ring
  rw [count]
  omega

/-- The members of one total degree on the tetrahedron. -/
theorem length_tetrahedronLevel (k : ℕ) :
    2 * ((List.range (k + 1)).flatMap fun l =>
      (List.range (k - l + 1)).map fun j => (k - l - j, j, l)).length = (k + 2) * (k + 1) := by
  simp only [List.length_flatMap, List.length_map, List.length_range]
  induction k with
  | zero => rfl
  | succ k ih =>
    have hshift : (fun l => k + 1 - l + 1) ∘ Nat.succ = fun l => k - l + 1 := by
      funext l
      simp
    rw [List.range_succ_eq_map, List.map_cons, List.map_map, hshift, List.sum_cons, mul_add, ih]
    simp only [Nat.sub_zero]
    ring

theorem length_tetrahedronModes (n : ℕ) : (tetrahedronModes n).length = count .tetrahedron n := by
  have hsix : 6 * (tetrahedronModes n).length = (n + 3) * (n + 2) * (n + 1) := by
    induction n with
    | zero => rfl
    | succ n ih =>
      have hlevel := length_tetrahedronLevel (n + 1)
      rw [tetrahedronModes, List.range_succ, List.flatMap_append, List.length_append, mul_add]
      rw [tetrahedronModes] at ih
      rw [ih, List.flatMap_singleton]
      linarith
  rw [count]
  omega

theorem length_legendreUpTo {α : Type} [Scalar α] (degree : ℕ) (x : α) :
    (legendreUpTo degree x).length = degree + 1 := by
  rw [legendreUpTo, List.length_map, List.length_range]

end Counts

section Loops

variable {β γ : Type}

theorem map_fst_numbered (xs : List β) : (numbered xs).map Prod.fst = List.range xs.length := by
  rw [numbered, List.map_map, List.range_eq_range']
  exact List.zipIdx_map_snd 0 xs

theorem map_snd_numbered (xs : List β) : (numbered xs).map Prod.snd = xs := by
  rw [numbered, List.map_map]
  exact List.zipIdx_map_fst 0 xs

/-- If the outer loop goes through the first slots in order, both loops together do. -/
theorem map_fst_nested {k m : ℕ} {xs : List (ℕ × β)} {ys : List γ} (hxs : xs.map Prod.fst = List.range k)
    (hys : ys.length = m) : (nested m xs ys).map Prod.fst = List.range (k * m) := by
  have hrow (x : ℕ × β) : ((numbered ys).map fun y => x.1 * m + y.1) = (List.range m).map fun b => x.1 * m + b := by
    rw [← hys, ← map_fst_numbered, List.map_map, Function.comp_def]
  have hrows : (nested m xs ys).map Prod.fst =
      (xs.map Prod.fst).flatMap fun a => (List.range m).map fun b => a * m + b := by
    simp only [nested, List.map_flatMap, List.map_map, Function.comp_def, hrow, List.flatMap_map]
  rw [hrows, hxs, EntityDofs.range_mul]

theorem map_snd_nested (m : ℕ) (xs : List (ℕ × β)) (ys : List γ) :
    (nested m xs ys).map Prod.snd = (xs.map Prod.snd).flatMap fun x => ys.map fun y => (x, y) := by
  have hrow (x : β) : ((numbered ys).map fun y => (x, y.2)) = ys.map fun y => (x, y) := by
    rw [← Function.comp_def (fun y => (x, y)), ← List.map_map, map_snd_numbered]
  simp only [nested, List.map_flatMap, List.map_map, Function.comp_def, hrow, List.flatMap_map]

/-- Writing to the places behind the front of a list, one after the other, replaces what is there. -/
theorem foldl_set_behind (front old : List β) {ws : List (ℕ × β)}
    (h : ws.map Prod.fst = List.range' front.length old.length) :
    ws.foldl (fun table w => table.set w.1 w.2) (front ++ old) = front ++ ws.map Prod.snd := by
  induction old generalizing front ws with
  | nil =>
    obtain rfl := List.map_eq_nil_iff.mp h
    rfl
  | cons x old ih =>
    rw [List.length_cons, List.range'_succ] at h
    obtain ⟨⟨p, y⟩, ws, rfl, rfl, hrest⟩ := List.map_eq_cons_iff.mp h
    have hslots : ws.map Prod.fst = List.range' (front ++ [y]).length old.length := by
      rw [hrest, List.length_append, List.length_singleton]
    rw [List.foldl_cons, List.set_append_right _ _ le_rfl, Nat.sub_self, List.set_cons_zero, List.append_cons,
      ih _ hslots, List.map_cons, ← List.append_cons]

end Loops

section Tables

variable {α : Type} [Scalar α]

/-- If every slot is written to in its turn, the table holds what is written. -/
theorem fill_eq {dim slots : ℕ} {ws : List (ℕ × Jet α)} (h : ws.map Prod.fst = List.range slots) :
    fill dim slots ws = .ok (ws.map Prod.snd) := by
  have hslots : ws.all (·.1 < slots) = true := by
    refine List.all_eq_true.mpr fun w hw => decide_eq_true ?_
    exact List.mem_range.mp (h ▸ List.mem_map_of_mem hw)
  have hlist (table : Array (Jet α)) :
      (ws.foldl (fun table w => table.setIfInBounds w.1 w.2) table).toList =
        ws.foldl (fun table w => table.set w.1 w.2) table.toList := by
    clear h hslots
    induction ws generalizing table with
    | nil => rfl
    | cons w ws ih => rw [List.foldl_cons, ih, Array.toList_setIfInBounds, List.foldl_cons]
  rw [fill, if_pos hslots]
  refine congrArg Except.ok ((hlist _).trans ?_)
  rw [Array.toList_replicate]
  refine foldl_set_behind [] _ ?_
  rw [h, List.length_replicate, List.length_nil, List.range_eq_range']

/-- The loops over the members of a set write to each slot of the table in its turn. -/
theorem slots_of_writes {cell : ReferenceCell} {degree : ℕ} {point : List α} {ws : List (ℕ × Jet α)}
    (h : writes cell degree point = .ok ws) : ws.map Prod.fst = List.range (count cell degree) := by
  have hnumbered (x : α) : (numbered (legendreUpTo degree x)).map Prod.fst = List.range (degree + 1) := by
    rw [map_fst_numbered, length_legendreUpTo]
  have hpairs (x y : α) := map_fst_nested (hnumbered x) (length_legendreUpTo degree y)
  cases cell with
  | point =>
    obtain rfl := Except.ok.inj h
    rfl
  | interval =>
    match point with
    | x :: _ =>
      obtain rfl := Except.ok.inj h
      exact List.map_map.trans (hnumbered x)
  | triangle =>
    match point with
    | x :: y :: _ =>
      obtain rfl := Except.ok.inj h
      rw [← length_triangleModes]
      exact List.map_map.trans (map_fst_numbered _)
  | quadrilateral =>
    match point with
    | x :: y :: _ =>
      obtain rfl := Except.ok.inj h
      exact List.map_map.trans (hpairs x y)
  | tetrahedron =>
    match point with
    | x :: y :: z :: _ =>
      obtain rfl := Except.ok.inj h
      rw [← length_tetrahedronModes]
      exact List.map_map.trans (map_fst_numbered _)
  | hexahedron =>
    match point with
    | x :: y :: z :: _ =>
      obtain rfl := Except.ok.inj h
      exact List.map_map.trans (map_fst_nested (hpairs x y) (length_legendreUpTo degree z))

/-- A point with a coordinate for every dimension has a value of every member. -/
theorem writes_of_le {cell : ReferenceCell} {point : List α} (h : cell.dim ≤ point.length) (degree : ℕ) :
    ∃ ws, writes cell degree point = .ok ws := by
  cases cell with
  | point => exact ⟨_, rfl⟩
  | interval =>
    match point, h with
    | _ :: _, _ => exact ⟨_, rfl⟩
  | triangle =>
    match point, h with
    | _ :: _ :: _, _ => exact ⟨_, rfl⟩
  | quadrilateral =>
    match point, h with
    | _ :: _ :: _, _ => exact ⟨_, rfl⟩
  | tetrahedron =>
    match point, h with
    | _ :: _ :: _ :: _, _ => exact ⟨_, rfl⟩
  | hexahedron =>
    match point, h with
    | _ :: _ :: _ :: _, _ => exact ⟨_, rfl⟩

theorem jets_of_writes {cell : ReferenceCell} {degree : ℕ} {point : List α} {ws : List (ℕ × Jet α)}
    (h : writes cell degree point = .ok ws) : jets cell degree point = .ok (ws.map Prod.snd) := by
  rw [jets, h, ok_bind, fill_eq (slots_of_writes h)]

theorem jets_of_le {cell : ReferenceCell} {point : List α} (h : cell.dim ≤ point.length) (degree : ℕ) :
    ∃ js, jets cell degree point = .ok js ∧ js.length = count cell degree := by
  obtain ⟨ws, hws⟩ := writes_of_le h degree
  refine ⟨_, jets_of_writes hws, ?_⟩
  have hlength := congrArg List.length (slots_of_writes hws)
  rwa [List.length_map, List.length_range, ← List.length_map Prod.snd] at hlength

/-- The members of the set at a point, in order. -/
def inOrder (cell : ReferenceCell) (degree : ℕ) (point : List α) : Result (List (Jet α)) :=
  match cell, point with
  | .point, _ => .ok [⟨1, []⟩]
  | .interval, x :: _ => .ok ((legendreUpTo degree x).map fun (v, d) => ⟨v, [d]⟩)
  | .quadrilateral, x :: y :: _ =>
    let q := legendreUpTo degree y
    .ok ((legendreUpTo degree x).flatMap fun (v, d) => q.map fun (w, e) =>
      ⟨v * w, [d * w, v * e]⟩)
  | .hexahedron, x :: y :: z :: _ =>
    let q := legendreUpTo degree y
    let r := legendreUpTo degree z
    .ok ((legendreUpTo degree x).flatMap fun (v, d) => q.flatMap fun (w, e) =>
      r.map fun (u, f) => ⟨v * w * u, [d * w * u, v * e * u, v * w * f]⟩)
  | .triangle, x :: y :: _ => .ok ((triangleModes degree).map fun (i, j) => triangleMember i j x y)
  | .tetrahedron, x :: y :: z :: _ =>
    .ok ((tetrahedronModes degree).map fun (i, j, k) => tetrahedronMember i j k x y z)
  | _, _ => .error .outOfRange

theorem map_writes (cell : ReferenceCell) (degree : ℕ) (point : List α) :
    (writes cell degree point).map (·.map Prod.snd) = inOrder cell degree point := by
  have hsnd {β : Type} (f : β → Jet α) (xs : List (ℕ × β)) :
      (xs.map fun x => (x.1, f x.2)).map Prod.snd = (xs.map Prod.snd).map f := by
    rw [List.map_map, List.map_map]
    rfl
  cases cell with
  | point => rfl
  | interval =>
    match point with
    | [] => rfl
    | x :: _ =>
      refine congrArg Except.ok ((hsnd (fun p : α × α => ⟨p.1, [p.2]⟩) _).trans ?_)
      rw [map_snd_numbered]
  | triangle =>
    match point with
    | [] | [_] => rfl
    | x :: y :: _ =>
      refine congrArg Except.ok ((hsnd (fun m : ℕ × ℕ => triangleMember m.1 m.2 x y) _).trans ?_)
      rw [map_snd_numbered]
  | quadrilateral =>
    match point with
    | [] | [_] => rfl
    | x :: y :: _ =>
      refine congrArg Except.ok ((hsnd (fun p : (α × α) × α × α =>
        ⟨p.1.1 * p.2.1, [p.1.2 * p.2.1, p.1.1 * p.2.2]⟩) _).trans ?_)
      rw [map_snd_nested, map_snd_numbered, List.map_flatMap]
      simp only [List.map_map, Function.comp_def]
  | tetrahedron =>
    match point with
    | [] | [_] | [_, _] => rfl
    | x :: y :: z :: _ =>
      refine congrArg Except.ok
        ((hsnd (fun m : ℕ × ℕ × ℕ => tetrahedronMember m.1 m.2.1 m.2.2 x y z) _).trans ?_)
      rw [map_snd_numbered]
  | hexahedron =>
    match point with
    | [] | [_] | [_, _] => rfl
    | x :: y :: z :: _ =>
      refine congrArg Except.ok ((hsnd (fun p : ((α × α) × α × α) × α × α =>
        ⟨p.1.1.1 * p.1.2.1 * p.2.1, [p.1.1.2 * p.1.2.1 * p.2.1, p.1.1.1 * p.1.2.2 * p.2.1,
          p.1.1.1 * p.1.2.1 * p.2.2]⟩) _).trans ?_)
      rw [map_snd_nested, map_snd_nested, map_snd_numbered]
      simp only [List.map_flatMap, List.flatMap_assoc, List.flatMap_map, List.map_map, Function.comp_def]

theorem jets_eq_inOrder (cell : ReferenceCell) (degree : ℕ) (point : List α) :
    jets cell degree point = inOrder cell degree point := by
  rw [← map_writes]
  cases hws : writes cell degree point with
  | error e =>
    rw [jets, hws]
    rfl
  | ok ws => exact jets_of_writes hws

end Tables
end Expansion
end Variational
