import Variational.Proofs.ExpansionValues
import Variational.Tensor.MultiIndex

/-! Expansion sets of different degrees. The members of a set stand among those of every set of a higher degree: on
simplices they come first, on boxes they are picked row by row. Values and first derivatives in the smaller set are
therefore entries of those in the larger one. -/
namespace Variational

open Result

namespace Expansion

section Picking

variable {β γ : Type}

/-- The entries of a list at some places; places past its end are left out. -/
def pick (places : List ℕ) (xs : List β) : List β := places.filterMap fun i => xs[i]?

@[simp] theorem pick_nil (xs : List β) : pick [] xs = [] := rfl

theorem pick_cons {i : ℕ} {places : List ℕ} {xs : List β} (h : i < xs.length) :
    pick (i :: places) xs = xs[i] :: pick places xs :=
  List.filterMap_cons_some (List.getElem?_eq_getElem h)

theorem pick_map (places : List ℕ) (f : β → γ) (xs : List β) : pick places (xs.map f) = (pick places xs).map f := by
  simp only [pick, List.map_filterMap, List.getElem?_map]

theorem pick_range (n : ℕ) (xs : List β) : pick (List.range n) xs = xs.take n := by
  induction n with
  | zero => rfl
  | succ n ih =>
    rw [pick] at ih
    rw [pick, List.range_succ, List.filterMap_append, ih, List.take_add_one]
    cases h : xs[n]? <;> simp [h]

/-- The places of the entries of blocks of length `m`, by block and place in the block. -/
def blockPlaces (m : ℕ) (as bs : List ℕ) : List ℕ := as.flatMap fun a => bs.map fun b => a * m + b

variable {m : ℕ} {as bs : List ℕ} (hbs : ∀ b ∈ bs, b < m)

include hbs

theorem pick_blockPlaces {g : β → List γ} {xs : List β} (hg : ∀ x ∈ xs, (g x).length = m) :
    pick (blockPlaces m as bs) (xs.flatMap g) = (pick as xs).flatMap fun x => pick bs (g x) := by
  induction as with
  | nil => rfl
  | cons a as ih =>
    have hblock : pick (bs.map fun b => a * m + b) (xs.flatMap g) = (xs[a]?.toList).flatMap fun x => pick bs (g x) := by
      rw [pick, List.filterMap_map]
      have hentry : ∀ b ∈ bs, ((fun i => (xs.flatMap g)[i]?) ∘ fun b => a * m + b) b =
          xs[a]?.bind fun x => (g x)[b]? := fun b hb =>
            MultiIndex.getElem?_flatMap_of_length hg a (hbs b hb)
      rw [List.filterMap_congr hentry]
      cases xs[a]? <;> simp [pick]
    rw [pick] at ih hblock
    rw [blockPlaces] at ih
    rw [pick, blockPlaces, List.flatMap_cons, List.filterMap_append, hblock, ih]
    cases h : xs[a]? <;> simp [pick, h]

theorem lt_of_mem_blockPlaces {k : ℕ} (has : ∀ a ∈ as, a < k) : ∀ i ∈ blockPlaces m as bs, i < k * m := by
  intro i hi
  obtain ⟨a, ha, hi⟩ := List.mem_flatMap.mp hi
  obtain ⟨b, hb, rfl⟩ := List.mem_map.mp hi
  calc a * m + b
    _ < (a + 1) * m := by rw [Nat.succ_mul]; exact Nat.add_lt_add_left (hbs b hb) _
    _ ≤ k * m := Nat.mul_le_mul_right m (has a ha)

theorem nodup_blockPlaces (has : as.Nodup) (hnodup : bs.Nodup) : (blockPlaces m as bs).Nodup := by
  refine List.nodup_flatMap.mpr ⟨fun a _ => hnodup.map fun b b' h => Nat.add_left_cancel h, ?_⟩
  refine has.imp fun {a a'} hne => List.disjoint_left.mpr fun i hi hi' => hne ?_
  obtain ⟨b, hb, rfl⟩ := List.mem_map.mp hi
  obtain ⟨b', hb', h⟩ := List.mem_map.mp hi'
  have hdiv (a b : ℕ) (hb : b < m) : (a * m + b) / m = a := by
    rw [Nat.mul_comm, Nat.mul_add_div (Nat.zero_lt_of_lt hb), Nat.div_eq_of_lt hb, Nat.add_zero]
  rw [← hdiv a b (hbs b hb), ← h, hdiv a' b' (hbs b' hb')]

end Picking

section Nesting

variable {degree target : ℕ} (h : degree ≤ target)

theorem embedding_quadrilateral (degree target : ℕ) :
    embedding .quadrilateral degree target =
      blockPlaces (target + 1) (List.range (degree + 1)) (List.range (degree + 1)) := rfl

theorem embedding_hexahedron (degree target : ℕ) :
    embedding .hexahedron degree target =
      blockPlaces ((target + 1) * (target + 1)) (List.range (degree + 1))
        (blockPlaces (target + 1) (List.range (degree + 1)) (List.range (degree + 1))) := by
  have hplace (a b c m : ℕ) : (a * m + b) * m + c = a * (m * m) + (b * m + c) := by ring
  simp only [embedding, blockPlaces, List.map_flatMap, List.map_map, Function.comp_def, hplace]

include h

theorem lt_of_mem_degrees : ∀ b ∈ List.range (degree + 1), b < target + 1 := fun b hb => by
  have := List.mem_range.mp hb
  omega

theorem nodup_embedding (cell : ReferenceCell) : (embedding cell degree target).Nodup := by
  have hnodup := List.nodup_range (n := degree + 1)
  have hlt := lt_of_mem_degrees h
  cases cell with
  | quadrilateral => exact nodup_blockPlaces hlt hnodup hnodup
  | hexahedron =>
    rw [embedding_hexahedron]
    exact nodup_blockPlaces (lt_of_mem_blockPlaces hlt hlt) hnodup (nodup_blockPlaces hlt hnodup hnodup)
  | _ => exact List.nodup_range

theorem take_range_degrees : (List.range (target + 1)).take (degree + 1) = List.range (degree + 1) := by
  rw [List.take_range, Nat.min_eq_left (Nat.succ_le_succ h)]

/-- A list by total degree starts with the list of a lower degree. -/
theorem take_flatMap_degrees {β : Type} {g : ℕ → List β} {n : ℕ}
    (hn : ((List.range (degree + 1)).flatMap g).length = n) :
    ((List.range (target + 1)).flatMap g).take n = (List.range (degree + 1)).flatMap g := by
  rw [← List.take_append_drop (degree + 1) (List.range (target + 1)), take_range_degrees h, List.flatMap_append]
  exact List.take_left' hn

theorem pick_triangleModes :
    pick (embedding .triangle degree target) (triangleModes target) = triangleModes degree :=
  (pick_range _ _).trans (take_flatMap_degrees h (length_triangleModes degree))

theorem pick_tetrahedronModes :
    pick (embedding .tetrahedron degree target) (tetrahedronModes target) = tetrahedronModes degree :=
  (pick_range _ _).trans (take_flatMap_degrees h (length_tetrahedronModes degree))

variable {α : Type} [Scalar α]

theorem pick_legendreUpTo (x : α) :
    pick (List.range (degree + 1)) (legendreUpTo target x) = legendreUpTo degree x := by
  rw [legendreUpTo, pick_map, pick_range, take_range_degrees h]
  rfl

/-- The members of a set are members of the sets of higher degree. -/
theorem jets_eq_pick (cell : ReferenceCell) (point : List α) :
    jets cell degree point = (jets cell target point).map (pick (embedding cell degree target)) := by
  rw [jets_eq_inOrder, jets_eq_inOrder]
  have hlt := lt_of_mem_degrees h
  cases cell with
  | point => rfl
  | interval =>
    match point with
    | [] => rfl
    | x :: _ =>
      refine congrArg Except.ok ?_
      rw [← pick_legendreUpTo h x, ← pick_map]
      rfl
  | triangle =>
    match point with
    | [] | [_] => rfl
    | x :: y :: _ =>
      refine congrArg Except.ok ?_
      rw [pick_map, pick_triangleModes h]
  | quadrilateral =>
    match point with
    | [] | [_] => rfl
    | x :: y :: _ =>
      refine congrArg Except.ok ?_
      have hblocks : ∀ v ∈ legendreUpTo target x, ((legendreUpTo target y).map fun w =>
          (⟨v.1 * w.1, [v.2 * w.1, v.1 * w.2]⟩ : Jet α)).length = target + 1 := fun _ _ => by
        rw [List.length_map, length_legendreUpTo]
      rw [embedding_quadrilateral, pick_blockPlaces hlt hblocks]
      simp only [pick_map, pick_legendreUpTo h]
  | tetrahedron =>
    match point with
    | [] | [_] | [_, _] => rfl
    | x :: y :: z :: _ =>
      refine congrArg Except.ok ?_
      rw [pick_map, pick_tetrahedronModes h]
  | hexahedron =>
    match point with
    | [] | [_] | [_, _] => rfl
    | x :: y :: z :: _ =>
      refine congrArg Except.ok ?_
      have hinner (v : α × α) : ∀ w ∈ legendreUpTo target y, ((legendreUpTo target z).map fun u =>
          (⟨v.1 * w.1 * u.1, [v.2 * w.1 * u.1, v.1 * w.2 * u.1, v.1 * w.1 * u.2]⟩ : Jet α)).length = target + 1 :=
        fun _ _ => by rw [List.length_map, length_legendreUpTo]
      have houter : ∀ v ∈ legendreUpTo target x, ((legendreUpTo target y).flatMap fun w =>
          (legendreUpTo target z).map fun u =>
            (⟨v.1 * w.1 * u.1, [v.2 * w.1 * u.1, v.1 * w.2 * u.1, v.1 * w.1 * u.2]⟩ : Jet α)).length =
          (target + 1) * (target + 1) := fun _ _ => by simp [List.length_flatMap, length_legendreUpTo]
      rw [embedding_hexahedron, pick_blockPlaces (lt_of_mem_blockPlaces hlt hlt) houter]
      simp only [pick_blockPlaces hlt (hinner _), pick_map, pick_legendreUpTo h]

/-- Values and first derivatives are picked from those of the larger set; the tables are missing for the same points. -/
theorem tabulate_eq_pick (cell : ReferenceCell) (points : List (List α)) :
    tabulate cell degree points =
      (tabulate cell target points).map (·.map (pick (embedding cell degree target))) := by
  induction points with
  | nil => rfl
  | cons p points ih =>
    simp only [tabulate, List.mapM_cons] at ih ⊢
    rw [ih, jets_eq_pick h]
    cases jets cell target p with
    | error e => rfl
    | ok js => cases List.mapM (jets cell target) points <;> rfl

theorem values_eq_pick (cell : ReferenceCell) (points : List (List α)) :
    values cell degree points = (values cell target points).map (·.map (pick (embedding cell degree target))) := by
  rw [values, values, tabulate_eq_pick h]
  cases tabulate cell target points with
  | error e => rfl
  | ok table =>
    refine congrArg Except.ok ?_
    simp only [List.map_map, Function.comp_def, pick_map]

theorem slopes_eq_pick (cell : ReferenceCell) (direction : ℕ) (points : List (List α)) :
    slopes cell degree direction points =
      (slopes cell target direction points).map (·.map (pick (embedding cell degree target))) := by
  rw [slopes, slopes, tabulate_eq_pick h]
  split_ifs with hdirection
  · cases tabulate cell target points with
    | error e => rfl
    | ok table =>
      refine congrArg Except.ok ?_
      simp only [List.map_map, Function.comp_def, pick_map]
  · rfl

end Nesting

section FirstOrder

theorem length_directions (derivative : List ℕ) : (directions derivative).length = derivative.sum := by
  simp only [directions, List.length_flatMap, List.length_replicate]
  exact congrArg List.sum (List.zipIdx_map_fst 0 derivative)

variable {derivative : List ℕ} (horder : derivative.sum ≤ 1)
include horder

/-- A derivative of order at most one is a table of values or of slopes. -/
theorem derivative_first_order (α : Type) [Scalar α] (cell : ReferenceCell) :
    (∀ (degree : ℕ) (points : List (List α)), Expansion.derivative cell degree derivative points =
      values cell degree points) ∨
    ∃ d, ∀ (degree : ℕ) (points : List (List α)), Expansion.derivative cell degree derivative points =
      slopes cell degree d points := by
  rw [← length_directions] at horder
  match hdirections : directions derivative, horder with
  | [], _ =>
    refine .inl fun degree points => ?_
    rw [Expansion.derivative, hdirections, along]
  | [d], _ =>
    refine .inr ⟨d, fun degree points => ?_⟩
    rw [Expansion.derivative, hdirections, along]

variable {α : Type} [Scalar α] {cell : ReferenceCell}

theorem derivative_eq_pick {degree target : ℕ} (h : degree ≤ target) (points : List (List α)) :
    Expansion.derivative cell degree derivative points =
      (Expansion.derivative cell target derivative points).map (·.map (pick (embedding cell degree target))) := by
  rcases derivative_first_order horder α cell with hvalues | ⟨d, hslopes⟩
  · rw [hvalues, hvalues, values_eq_pick h]
  · rw [hslopes, hslopes, slopes_eq_pick h]

theorem length_of_derivative {degree : ℕ} {points : List (List α)} {table : List (List α)}
    (h : Expansion.derivative cell degree derivative points = .ok table) :
    ∀ v ∈ table, v.length = count cell degree := by
  -- Both tables are made from the same members.
  have hmembers {js : List (List (Jet α))} (hjs : tabulate cell degree points = .ok js) (f : Jet α → α) :
      ∀ v ∈ js.map (·.map f), v.length = count cell degree := by
    refine List.forall_mem_map.mpr fun j hj => ?_
    obtain ⟨p, -, hp⟩ := exists_of_forall₂ (mapM_eq_ok.mp hjs).flip hj
    obtain ⟨j', hj', hlength⟩ := jets_of_le (dim_le_of_jets hp) degree
    rw [List.length_map, ← hlength, Except.ok.inj (hp.symm.trans hj')]
  rcases derivative_first_order horder α cell with hvalues | ⟨d, hslopes⟩
  · simp only [hvalues, values, bind_eq_ok, pure_eq_ok] at h
    obtain ⟨js, hjs, rfl⟩ := h
    exact hmembers hjs _
  · rw [hslopes, slopes] at h
    split_ifs at h
    simp only [bind_eq_ok, pure_eq_ok] at h
    obtain ⟨js, hjs, rfl⟩ := h
    exact hmembers hjs _

end FirstOrder
end Expansion
end Variational
