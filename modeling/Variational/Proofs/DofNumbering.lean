import Mathlib
import Variational.Element.Layout

/-! Numberings of dofs by entity. Every way of building them attaches each dof of an element of dimension
`n` to one entity: read over all dimensions and entities, the lists are the numbers below `n`. -/
namespace Variational.EntityDofs

/-- All dofs, dimension by dimension and entity by entity. -/
def flat (e : EntityDofs) : List ℕ := e.flatten.flatten

/-- The dofs on entities are the numbers below `n`, each on one entity. -/
def Numbers (e : EntityDofs) (n : ℕ) : Prop := e.flat.Perm (List.range n)

@[simp] theorem flat_cons (entities : List (List ℕ)) (e : EntityDofs) :
    flat (entities :: e) = entities.flatten ++ flat e := by simp [flat]

section Consecutive

theorem flatten_blocks (start : ℕ) (ns : List ℕ) :
    (blocks start ns).flatten = List.range' start ns.sum := by
  induction ns generalizing start with
  | nil => rfl
  | cons n ns ih =>
    rw [blocks, List.flatten_cons, ih, List.sum_cons]
    have h := List.range'_append_1 (s := start) (m := n) (n := ns.sum)
    exact h

/-- How many dofs there are with `perEntity d` of them on each entity of dimension `d`. -/
def total (perEntity : ℕ → ℕ) : (dim : ℕ) → List ℕ → ℕ
  | _, [] => 0
  | dim, n :: ns => n * perEntity dim + total perEntity (dim + 1) ns

theorem flat_uniformFrom (start dim : ℕ) (perEntity : ℕ → ℕ) (counts : List ℕ) :
    flat (uniformFrom start dim perEntity counts) =
      List.range' start (total perEntity dim counts) := by
  induction counts generalizing start dim with
  | nil => rfl
  | cons n ns ih =>
    rw [uniformFrom, flat_cons, flatten_blocks, List.sum_replicate, smul_eq_mul, ih, total]
    exact List.range'_append_1 (s := start) (m := n * perEntity dim) (n := total perEntity (dim + 1) ns)

theorem length_uniformFrom (start dim : ℕ) (perEntity : ℕ → ℕ) (counts : List ℕ) :
    (uniformFrom start dim perEntity counts).length = counts.length := by
  induction counts generalizing start dim with
  | nil => rfl
  | cons n ns ih => rw [uniformFrom, List.length_cons, ih, List.length_cons]

@[simp] theorem length_uniform (counts : List ℕ) (perEntity : ℕ → ℕ) :
    (uniform counts perEntity).length = counts.length := length_uniformFrom 0 0 perEntity counts

theorem uniform_numbers (counts : List ℕ) (perEntity : ℕ → ℕ) :
    (uniform counts perEntity).Numbers (total perEntity 0 counts) := by
  rw [Numbers, uniform, flat_uniformFrom, List.range_eq_range']

@[simp] theorem length_inside (counts : List ℕ) (n : ℕ) : (inside counts n).length = counts.length :=
  length_uniform counts _

theorem total_inside (n dim : ℕ) (counts : List ℕ) (h : counts.getLast? = some 1) :
    total (fun d => if d + 1 = dim + counts.length then n else 0) dim counts = n := by
  induction counts generalizing dim with
  | nil => cases h
  | cons c cs ih =>
    cases cs with
    | nil =>
      obtain rfl : c = 1 := by simpa using h
      simp [total]
    | cons c' cs =>
      have hrest := ih (dim + 1) (by simpa using h)
      have hlength : dim + 1 + (c' :: cs).length = dim + (c :: c' :: cs).length := by
        simp only [List.length_cons]
        omega
      rw [hlength] at hrest
      rw [total, hrest, if_neg (by simp only [List.length_cons]; omega), mul_zero, zero_add]

/-- A cell has one interior, so all dofs are on it. -/
theorem inside_numbers {counts : List ℕ} (h : counts.getLast? = some 1) (n : ℕ) :
    (inside counts n).Numbers n := by
  have hnumbers := uniform_numbers counts fun d => if d + 1 = counts.length then n else 0
  have htotal := total_inside n 0 counts h
  rw [Nat.zero_add] at htotal
  rwa [htotal] at hnumbers

end Consecutive

section Merge

theorem counts_cons (entities : List (List ℕ)) (e : EntityDofs) :
    counts (entities :: e) = entities.length :: counts e := rfl

theorem flatten_zipWith_append (offset : ℕ) (xs ys : List (List ℕ)) (h : xs.length = ys.length) :
    (List.zipWith (fun dofs new => dofs ++ new.map (· + offset)) xs ys).flatten.Perm
      (xs.flatten ++ ys.flatten.map (· + offset)) := by
  induction xs generalizing ys with
  | nil => simp [List.length_eq_zero_iff.mp h.symm]
  | cons x xs ih =>
    cases ys with
    | nil => cases h
    | cons y ys =>
      have hrest := ih ys (by simpa using h)
      simp only [List.zipWith_cons_cons, List.flatten_cons, List.map_append, List.append_assoc]
      refine List.Perm.append_left x ?_
      refine (hrest.append_left _).trans ?_
      rw [← List.append_assoc, ← List.append_assoc]
      exact List.perm_append_comm.append_right _

theorem flat_merge (offset : ℕ) {e f : EntityDofs} (h : counts e = counts f) :
    (flat (merge offset e f)).Perm (flat e ++ (flat f).map (· + offset)) := by
  induction e generalizing f with
  | nil =>
    cases f with
    | nil => simp [flat, merge]
    | cons => cases h
  | cons x e ih =>
    cases f with
    | nil => cases h
    | cons y f =>
      rw [counts_cons, counts_cons, List.cons.injEq] at h
      have hfirst := flatten_zipWith_append offset x y h.1
      have hrest := ih h.2
      rw [merge, List.zipWith_cons_cons, flat_cons, flat_cons, flat_cons, List.map_append]
      refine (hfirst.append hrest).trans ?_
      simp only [List.append_assoc]
      refine List.Perm.append_left _ ?_
      rw [← List.append_assoc, ← List.append_assoc]
      exact List.perm_append_comm.append_right _

@[simp] theorem counts_merge (offset : ℕ) {e f : EntityDofs} (h : counts e = counts f) :
    counts (merge offset e f) = counts e := by
  induction e generalizing f with
  | nil => rfl
  | cons x e ih =>
    cases f with
    | nil => cases h
    | cons y f =>
      rw [counts_cons, counts_cons, List.cons.injEq] at h
      rw [merge, List.zipWith_cons_cons, counts_cons, counts_cons, List.length_zipWith, h.1,
        Nat.min_self]
      exact congrArg _ (ih h.2)

theorem length_eq_of_counts {e f : EntityDofs} (h : counts e = counts f) : e.length = f.length := by
  simpa [counts] using congrArg List.length h

/-- The dofs of the second element come after those of the first. -/
theorem Numbers.merge {e f : EntityDofs} {m n : ℕ} (he : e.Numbers m) (hf : f.Numbers n)
    (h : counts e = counts f) : (merge m e f).Numbers (m + n) := by
  refine (flat_merge m h).trans ?_
  rw [List.range_add]
  refine he.append ?_
  have hshift := hf.map (· + m)
  simpa [Nat.add_comm] using hshift

end Merge

section Keep

theorem flat_keep (indices : List ℕ) (e : EntityDofs) :
    flat (keep indices e) = (flat e).filterMap fun d => indices.idxOf? d := by
  simp only [flat, keep, List.filterMap_flatten, List.map_flatten]

/-- The numbers in a list without repetition, by their positions in it. -/
theorem filterMap_idxOf? {indices : List ℕ} (h : indices.Nodup) :
    indices.filterMap (fun d => indices.idxOf? d) = List.range indices.length := by
  have hpos : ∀ d ∈ indices, indices.idxOf? d = some (indices.idxOf d) := by
    intro d hd
    obtain ⟨i, hi⟩ := Option.isSome_iff_exists.mp (List.isSome_idxOf?.mpr hd)
    rw [List.idxOf_eq_getD_idxOf?, hi, Option.getD_some]
  have hmap : indices.filterMap (fun d => indices.idxOf? d) = indices.map (indices.idxOf ·) := by
    rw [List.filterMap_congr hpos, ← List.filterMap_eq_map]
    rfl
  rw [hmap]
  refine List.ext_getElem (by simp) fun i hi _ => ?_
  rw [List.length_map] at hi
  rw [List.getElem_map, List.getElem_range]
  exact h.idxOf_getElem i hi

/-- Numbering some of the dofs by their positions, where each of them occurs once. -/
theorem Numbers.keep {e : EntityDofs} {n : ℕ} (h : e.Numbers n) {indices : List ℕ}
    (hsub : indices.Sublist e.flat) : (keep indices e).Numbers indices.length := by
  have hnodup : e.flat.Nodup := h.nodup_iff.mpr List.nodup_range
  obtain ⟨others, hothers⟩ := hsub.exists_perm_append
  have hdisjoint := (List.nodup_append.mp (hothers.nodup_iff.mp hnodup)).2.2
  have hnone : others.filterMap (fun d => indices.idxOf? d) = [] := by
    rw [List.filterMap_eq_nil_iff]
    intro d hd
    rw [List.idxOf?_eq_none_iff]
    exact fun hmem => hdisjoint d hmem d hd rfl
  rw [Numbers, flat_keep]
  refine (hothers.filterMap _).trans ?_
  rw [List.filterMap_append, hnone, List.append_nil, filterMap_idxOf? (hnodup.sublist hsub)]

@[simp] theorem length_keep (indices : List ℕ) (e : EntityDofs) : (keep indices e).length = e.length :=
  List.length_map _

end Keep

section Product

theorem range_mul (m n : ℕ) : (List.range m).flatMap (fun i => (List.range n).map fun j => i * n + j) =
    List.range (m * n) := by
  induction m with
  | zero => simp
  | succ m ih => rw [List.range_succ, List.flatMap_append, ih, Nat.succ_mul, List.range_add]; simp

/-- Summed over pairs of dimensions, or over the first of them and their sum. -/
theorem sum_antidiagonal (c : ℕ → ℕ → ℕ) (m n : ℕ) (hn : ∀ a b, n ≤ b → c a b = 0) :
    ∑ d ∈ Finset.range (m + n - 1), ∑ a ∈ Finset.range m, (if a ≤ d then c a (d - a) else 0) =
      ∑ a ∈ Finset.range m, ∑ b ∈ Finset.range n, c a b := by
  rw [Finset.sum_comm]
  refine Finset.sum_congr rfl fun a ha => ?_
  rw [Finset.mem_range] at ha
  have hfilter : (Finset.range (m + n - 1)).filter (a ≤ ·) = Finset.Ico a (m + n - 1) := by
    ext d
    simp only [Finset.mem_filter, Finset.mem_range, Finset.mem_Ico]
    omega
  rw [← Finset.sum_filter, hfilter, Finset.sum_Ico_eq_sum_range]
  simp only [Nat.add_sub_cancel_left]
  refine (Finset.sum_subset ?_ ?_).symm
  · intro b hb
    simp only [Finset.mem_range] at hb ⊢
    omega
  · intro b _ hb
    exact hn a b (by simpa using hb)

theorem count_flatMap_range (x n : ℕ) (f : ℕ → List ℕ) :
    ((List.range n).flatMap f).count x = ∑ i ∈ Finset.range n, (f i).count x := by
  induction n with
  | zero => rfl
  | succ n ih => simp [List.range_succ, Finset.sum_range_succ, ih]

/-- Reading the entities dimension by dimension. -/
theorem flat_eq_range (e : EntityDofs) :
    flat e = (List.range e.length).flatMap fun d => (e.getD d []).flatten := by
  induction e with
  | nil => rfl
  | cons entities e ih =>
    rw [flat_cons, ih, List.length_cons, List.range_succ_eq_map, List.flatMap_cons, List.flatMap_map]
    simp

theorem flatMap_swap {β γ : Type} (xs : List β) (ys : List γ) (g : β → γ → List ℕ) :
    (ys.flatMap fun y => xs.flatMap fun x => g x y).Perm (xs.flatMap fun x => ys.flatMap (g x)) := by
  induction xs with
  | nil => simp
  | cons x xs ih =>
    simp only [List.flatMap_cons]
    exact (List.flatMap_append_perm ys _ _).symm.trans (ih.append_left _)

/-- The pairs of dofs on pairs of entities of two given dimensions. -/
def pairsOf (n : ℕ) (xs ys : List (List ℕ)) : List ℕ :=
  xs.flatten.flatMap fun i => ys.flatten.map fun j => i * n + j

theorem flatten_pairs (n : ℕ) (xs ys : List (List ℕ)) :
    (xs.flatMap fun as => ys.map (pairs n as)).flatten.Perm (pairsOf n xs ys) := by
  induction xs with
  | nil => simp [pairsOf]
  | cons as xs ih =>
    have hfirst : (ys.map (pairs n as)).flatten.Perm
        (as.flatMap fun i => ys.flatten.map fun j => i * n + j) := by
      rw [← List.flatMap_def]
      refine (flatMap_swap as ys fun i bs => bs.map fun j => i * n + j).trans ?_
      simp only [List.map_flatten, List.flatMap_def]
      exact List.Perm.refl _
    rw [List.flatMap_cons, List.flatten_append, pairsOf, List.flatten_cons, List.flatMap_append]
    exact hfirst.append ih

/-- The dofs of a product, by the dimensions of the two factors of their entities. -/
theorem count_product (n x : ℕ) (e f : EntityDofs) :
    (flat (product n e f)).count x =
      ∑ d ∈ Finset.range (e.length + f.length - 1), ∑ a ∈ Finset.range e.length,
        if a ≤ d then (pairsOf n (e.getD a []) (f.getD (d - a) [])).count x else 0 := by
  rw [flat, product, ← List.flatMap_def, List.flatten_eq_flatMap, List.flatMap_assoc,
    count_flatMap_range]
  refine Finset.sum_congr rfl fun d _ => ?_
  rw [List.flatMap_assoc, count_flatMap_range]
  refine Finset.sum_congr rfl fun a _ => ?_
  rw [← List.flatten_eq_flatMap]
  split_ifs with h
  · exact (flatten_pairs n _ _).count_eq x
  · have hnone : ((e.getD a []).flatMap fun _ => ([] : List (List ℕ))) = [] := by
      rw [List.flatMap_eq_nil_iff]
      exact fun _ _ => rfl
    rw [hnone]
    rfl

theorem count_pairs (n x : ℕ) (e f : EntityDofs) :
    ((flat e).flatMap fun i => (flat f).map fun j => i * n + j).count x =
      ∑ a ∈ Finset.range e.length, ∑ b ∈ Finset.range f.length,
        (pairsOf n (e.getD a []) (f.getD b [])).count x := by
  rw [flat_eq_range e, flat_eq_range f, List.flatMap_assoc, count_flatMap_range]
  refine Finset.sum_congr rfl fun a _ => ?_
  simp only [List.map_flatMap]
  rw [(flatMap_swap (List.range f.length) (e.getD a []).flatten
    fun b i => (f.getD b []).flatten.map fun j => i * n + j).count_eq x, count_flatMap_range]
  rfl

/-- Pairs of dofs, the second fastest. -/
theorem Numbers.product {e f : EntityDofs} {m n : ℕ} (he : e.Numbers m) (hf : f.Numbers n) :
    (product n e f).Numbers (m * n) := by
  have hpairs : (flat (EntityDofs.product n e f)).Perm
      ((flat e).flatMap fun i => (flat f).map fun j => i * n + j) :=
    List.perm_iff_count.mpr fun x => by
      rw [count_product, count_pairs]
      refine sum_antidiagonal (fun a b => (pairsOf n (e.getD a []) (f.getD b [])).count x) _ _ ?_
      intro a b hb
      have hnone : f.getD b [] = [] := List.getD_eq_default _ _ hb
      have hempty : pairsOf n (e.getD a []) [] = [] := by
        rw [pairsOf, List.flatMap_eq_nil_iff]
        exact fun _ _ => rfl
      simp only [hnone, hempty, List.count_nil]
  refine hpairs.trans ?_
  rw [← range_mul]
  exact List.Perm.flatMap he fun i _ => hf.map _

@[simp] theorem length_product (n : ℕ) (e f : EntityDofs) :
    (product n e f).length = e.length + f.length - 1 := by simp [product]

end Product

end Variational.EntityDofs
