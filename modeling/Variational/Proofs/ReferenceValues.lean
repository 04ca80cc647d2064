import Variational.Proofs.ProductMeaning

/-! The entries of a reference tensor. An entry is the weighted sum over the nodes of the rule of the
products of the tabulated values that the plans pick, and it stands at its place in row-major order. -/
namespace Variational

namespace ReferenceTensor

section Lists

variable {β : Type}

variable [CommRing β]

/-- The sum over the nodes of the products along some rows. Where a row ends the products are zero. -/
theorem sum_foldl_zipWith (rows : List (List β)) (weights : List β) :
    (rows.foldl (List.zipWith (· * ·)) weights).sum =
      ∑ q ∈ Finset.range weights.length,
        weights.getD q 0 * (rows.map (·.getD q 0)).prod := by
  induction rows generalizing weights with
  | nil => simp [sum_eq_getD]
  | cons row rows ih =>
    rw [List.foldl_cons, ih]
    have hsubset : Finset.range (List.zipWith (· * ·) weights row).length ⊆
        Finset.range weights.length := by
      intro q hq
      simp only [List.length_zipWith, Finset.mem_range] at hq ⊢
      omega
    rw [Finset.sum_subset hsubset]
    · refine Finset.sum_congr rfl fun q _ => ?_
      rw [getD_zipWith_mul, List.map_cons, List.prod_cons, mul_assoc]
    · intro q _ hq
      rw [Finset.mem_range, not_lt] at hq
      rw [List.getD_eq_default _ _ hq, zero_mul]

end Lists

variable {α : Type}

theorem derivative_eq (dim : ℕ) (a : List ℕ) (p : Plan α) :
    p.derivative dim a = directionCounts dim (p.derivatives.map fun x => a.getD x.2 0) := by
  unfold Plan.derivative directionCounts
  refine List.map_congr_left fun d _ => ?_
  rw [List.count, List.countP_map]
  rfl

/-- Every derivative that a secondary index asks for is tabulated. -/
theorem mem_keys (dim : ℕ) {plans : List (Plan α)} {secondary : MultiIndex} {a : List ℕ}
    (ha : a ∈ secondary.indices) {p : Plan α} {b : ℕ} (hp : plans[b]? = some p) :
    (b, p.derivative dim a) ∈ keys dim plans secondary := by
  rw [keys, List.mem_eraseDups, List.mem_flatMap]
  refine ⟨a, ha, List.mem_map.mpr ⟨(p, b), ?_, rfl⟩⟩
  rwa [List.mem_zipIdx_iff_getElem?]

/-- The table that is found for a derivative is the one of the element. -/
theorem lookup_tabulateKeys [Scalar α] {plans : List (Plan α)} {points : List (List α)} {ks : List Key}
    {tables : List (Key × Rows α)} (h : tabulateKeys plans points ks = .ok tables) {key : Key}
    (hkey : key ∈ ks) :
    ∃ p table, plans[key.1]? = some p ∧ p.element.tabulate key.2 points = .ok table ∧
      tables.lookup key = some (table.map List.toArray).toArray := by
  rw [tabulateKeys, Result.mapM_eq_ok] at h
  induction h with
  | nil => simp at hkey
  | @cons k entry ks tables hentry _ ih =>
    simp only [Result.bind_eq_ok, Result.inRange_eq_ok, Result.pure_eq_ok] at hentry
    obtain ⟨p, hp, table, htable, rfl⟩ := hentry
    by_cases hk : key = k
    · subst hk
      exact ⟨p, table, hp, htable, by simp⟩
    · obtain ⟨p', table', hp', htable', hlookup⟩ := ih ((List.mem_cons.mp hkey).resolve_left hk)
      refine ⟨p', table', hp', htable', ?_⟩
      rw [List.lookup_cons, beq_false_of_ne hk]
      exact hlookup

/-- On a region the entry for a pair of indices is stored at its place in row-major order. -/
theorem entry_of_onRegion [Scalar α] {dim : ℕ} {plans : List (Plan α)} {primary secondary : MultiIndex}
    {rule : Rule α} {values : Array α} (h : onRegion dim plans primary secondary rule = .ok values) :
    ∃ tables, tabulateKeys plans rule.points (keys dim plans secondary) = .ok tables ∧
      ∀ {k j : ℕ} {i a : List ℕ}, primary.indices[k]? = some i → secondary.indices[j]? = some a →
        ∃ x, entry rule.weights (factors dim plans tables a) i a = .ok x ∧
          values[k * secondary.size + j]? = some x := by
  simp only [onRegion, Result.bind_eq_ok, Result.pure_eq_ok] at h
  obtain ⟨tables, htables, rows, hrows, rfl⟩ := h
  refine ⟨tables, htables, fun {k j i a} hi ha => ?_⟩
  have hlength (r : List α) (hr : r ∈ rows) : r.length = secondary.size := by
    obtain ⟨m, hm⟩ := List.mem_iff_getElem?.mp hr
    have hm' : m < primary.indices.length := by
      rw [← Result.length_of_mapM hrows]
      exact (List.getElem?_eq_some_iff.mp hm).1
    obtain ⟨r', hr', hmap⟩ := Result.getElem?_of_mapM hrows (List.getElem?_eq_getElem hm')
    obtain rfl : r = r' := Option.some.inj (hm.symm.trans hr')
    rw [Result.length_of_mapM hmap, List.length_map, MultiIndex.length_indices]
  obtain ⟨row, hrow, hcolumns⟩ := Result.getElem?_of_mapM hrows hi
  have hcolumn : (secondary.indices.map fun a => (a, factors dim plans tables a))[j]? =
      some (a, factors dim plans tables a) := by rw [List.getElem?_map, ha]; rfl
  obtain ⟨x, hx, hentry⟩ := Result.getElem?_of_mapM hcolumns hcolumn
  have hj : j < secondary.size := by
    rw [← MultiIndex.length_indices]
    exact (List.getElem?_eq_some_iff.mp ha).1
  refine ⟨x, hentry, ?_⟩
  rw [List.getElem?_toArray, ← List.flatMap_id,
    MultiIndex.getElem?_flatMap_of_length (f := id) hlength k hj, hrow]
  exact hx

variable [ExactScalar α]

/-- The rows that an entry multiplies hold the tabulated values that the plans pick. -/
theorem factors_sample {dim : ℕ} {plans : List (Plan α)} {secondary : MultiIndex}
    {points : List (List α)} {tables : List (Key × Rows α)}
    (h : tabulateKeys plans points (keys dim plans secondary) = .ok tables) {a : List ℕ}
    (ha : a ∈ secondary.indices) (i : List ℕ) (q : ℕ) :
    (factors dim plans tables a).map (fun x =>
      (((x.2[x.1.dofAt i a]?).bind (·[x.1.referenceComponent a]?)).getD []).getD q 0) =
      plans.map fun p => p.sample dim points i q a := by
  have hplans : plans.map (fun p => p.sample dim points i q a) =
      plans.zipIdx.map fun x => x.1.sample dim points i q a := by
    conv_lhs => rw [← List.zipIdx_map_fst 0 plans, List.map_map]
    rfl
  rw [hplans, factors, List.map_map]
  refine List.map_congr_left fun x hx => ?_
  obtain ⟨p, b⟩ := x
  rw [List.mem_zipIdx_iff_getElem?] at hx
  obtain ⟨p', table, hp', htable, hlookup⟩ := lookup_tabulateKeys h (mem_keys dim ha hx)
  obtain rfl : p = p' := Option.some.inj (hx.symm.trans hp')
  simp only [Function.comp_apply, hlookup, Option.getD_some, Plan.sample, Element.sample,
    ← derivative_eq, htable]
  simp only [List.getElem?_toArray, List.getElem?_map]
  cases table[p.dofAt i a]? with
  | none => simp
  | some row => cases h : row[p.referenceComponent a]? <;> simp [h, List.getD_eq_getElem?_getD]

theorem entry_ok {weights : List α} {fs : List (Plan α × Rows α)} {i a : List ℕ} {x : α}
    (h : entry weights fs i a = .ok x) :
    x = ∑ q ∈ Finset.range weights.length, weights.getD q 0 *
      (fs.map fun x =>
        (((x.2[x.1.dofAt i a]?).bind (·[x.1.referenceComponent a]?)).getD []).getD q 0).prod := by
  simp only [entry, Result.bind_eq_ok, Result.pure_eq_ok] at h
  obtain ⟨rows, hrows, rfl⟩ := h
  rw [Scalar.sum_eq, sum_foldl_zipWith]
  refine Finset.sum_congr rfl fun q _ => ?_
  rw [Result.mapM_eq_ok] at hrows
  congr 2
  induction hrows with
  | nil => rfl
  | cons hrow _ ih =>
    rw [Result.inRange_eq_ok] at hrow
    rw [List.map_cons, List.map_cons, ih, hrow, Option.getD_some]

/-- The entries on a region. -/
theorem onRegion_ok {dim : ℕ} {plans : List (Plan α)} {primary secondary : MultiIndex} {rule : Rule α}
    {values : Array α} (h : onRegion dim plans primary secondary rule = .ok values) {k j : ℕ}
    {i a : List ℕ} (hi : primary.indices[k]? = some i) (ha : secondary.indices[j]? = some a) :
    values[k * secondary.size + j]? = some (∑ q ∈ Finset.range rule.nodes.length,
      rule.weights.getD q 0 * (plans.map fun p => p.sample dim rule.points i q a).prod) := by
  obtain ⟨tables, htables, hentries⟩ := entry_of_onRegion h
  obtain ⟨x, hentry, hx⟩ := hentries hi ha
  have hweights : rule.weights.length = rule.nodes.length := List.length_map _
  rw [hx, entry_ok hentry, hweights]
  simp only [factors_sample htables (List.mem_of_getElem? ha)]

end ReferenceTensor
end Variational
