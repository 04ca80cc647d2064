import Variational.Proofs.Planning
import Variational.Proofs.ProductMeaning

/-! The values of the free indices. The checked ranges list each label once, and running through them in
order is the sum over all choices of a value for every label. -/
namespace Variational

/-- The labels of the free indices in a list. -/
def freeLabels (xs : List (Index × ℕ)) : Finset ℕ := (xs.filterMap fun x => x.1.label?).toFinset

/-- The range of a label is the one that its first occurrence runs over. -/
def labelRange (xs : List (Index × ℕ)) (l : ℕ) : ℕ := (xs.lookup (.free l)).getD 0

/-- All choices of a value for every label, each in its range. -/
noncomputable def labelValues (xs : List (Index × ℕ)) : Finset (ℕ →₀ ℕ) :=
  (freeLabels xs).finsupp fun l => Finset.range (labelRange xs l)

theorem mem_freeLabels {xs : List (Index × ℕ)} {l : ℕ} :
    l ∈ freeLabels xs ↔ ∃ range, (Index.free l, range) ∈ xs := by
  simp only [freeLabels, List.mem_toFinset, List.mem_filterMap, Prod.exists]
  constructor
  · rintro ⟨i, range, hmem, hi⟩
    cases i with
    | fixed n => cases hi
    | free k =>
      obtain rfl : k = l := Option.some.inj hi
      exact ⟨range, hmem⟩
  · rintro ⟨range, hmem⟩
    exact ⟨.free l, range, hmem, rfl⟩

namespace GeometryEntry

/-- The values of the labels that an assignment gives; other labels have the value zero. -/
def labelValue (assignment : List (ℕ × ℕ)) (l : ℕ) : ℕ := (assignment.lookup l).getD 0

theorem labelValue_cons (l k : ℕ) (assignment : List (ℕ × ℕ)) :
    labelValue ((l, k) :: assignment) = Function.update (labelValue assignment) l k := by
  funext m
  unfold labelValue
  rw [Ranges.lookup_pair]
  by_cases h : m = l
  · subst h
    simp
  · simp [h]

theorem indexValue_eq (assignment : List (ℕ × ℕ)) (i : Index) :
    indexValue assignment i = i.value (labelValue assignment) := by
  cases i <;> rfl

variable {β : Type} [AddCommMonoid β]

/-- Values of the labels of a set, and a value of one more label. -/
theorem sum_finsupp_insert {s : Finset ℕ} {l : ℕ} (hl : l ∉ s) (t : ℕ → Finset ℕ)
    (f : (ℕ → ℕ) → β) :
    ∑ k ∈ t l, ∑ ρ ∈ s.finsupp t, f (Function.update ρ l k) =
      ∑ ρ ∈ (insert l s).finsupp t, f ρ := by
  -- A value for the new label and values for the others are taken apart and put together again.
  rw [← Finset.sum_product']
  refine Finset.sum_bij' (fun x _ => x.2.update l x.1) (fun ρ _ => (ρ l, ρ.erase l)) ?_ ?_ ?_ ?_ ?_
  · rintro ⟨k, ρ⟩ h
    obtain ⟨hk, hρ⟩ := Finset.mem_product.mp h
    obtain ⟨hsupport, hvalues⟩ := Finset.mem_finsupp_iff.mp hρ
    refine Finset.mem_finsupp_iff.mpr ⟨?_, ?_⟩
    · intro m hm
      by_cases hml : m = l
      · exact hml ▸ Finset.mem_insert_self l s
      · refine Finset.mem_insert_of_mem (hsupport ?_)
        simpa [hml] using hm
    · intro m hm
      by_cases hml : m = l
      · simpa [hml] using hk
      · simpa [hml] using hvalues m (Finset.mem_of_mem_insert_of_ne hm hml)
  · intro ρ h
    obtain ⟨hsupport, hvalues⟩ := Finset.mem_finsupp_iff.mp h
    refine Finset.mem_product.mpr ⟨hvalues l (Finset.mem_insert_self l s),
      Finset.mem_finsupp_iff.mpr ⟨?_, ?_⟩⟩
    · intro m hm
      rw [Finsupp.support_erase, Finset.mem_erase] at hm
      exact Finset.mem_of_mem_insert_of_ne (hsupport hm.2) hm.1
    · intro m hm
      have hml : m ≠ l := fun h => hl (h ▸ hm)
      simpa [hml] using hvalues m (Finset.mem_insert_of_mem hm)
  · rintro ⟨k, ρ⟩ h
    have hρ := (Finset.mem_finsupp_iff.mp (Finset.mem_product.mp h).2).1
    have hzero : ρ l = 0 := Finsupp.notMem_support_iff.mp fun hm => hl (hρ hm)
    refine Prod.ext (by simp) (Finsupp.ext fun m => ?_)
    by_cases hml : m = l
    · simp [hml, hzero]
    · simp [hml]
  · intro ρ _
    refine Finsupp.ext fun m => ?_
    by_cases hml : m = l
    · simp [hml]
    · simp
  · rintro ⟨k, ρ⟩ _
    rw [Finsupp.coe_update]

/-- Running through the assignments, for ranges with one entry for each label. -/
theorem sum_assignments_of_nodup (ranges : Ranges) (h : (ranges.map (·.1)).Nodup)
    (f : (ℕ → ℕ) → β) :
    ((assignments ranges).map fun a => f (labelValue a)).sum =
      ∑ ρ ∈ (ranges.map (·.1)).toFinset.finsupp fun l => Finset.range ((ranges.lookup l).getD 0),
        f ρ := by
  induction ranges generalizing f with
  | nil =>
    have hempty : (∅ : Finset ℕ).finsupp (fun l => Finset.range ((([] : Ranges).lookup l).getD 0)) =
        {0} := by
      ext ρ
      simp [Finset.mem_finsupp_iff, Finsupp.support_eq_empty]
    rw [List.map_nil, List.toFinset_nil, hempty, Finset.sum_singleton, assignments, List.map_map]
    exact MultiIndex.sum_tuples_nil _
  | cons r ranges ih =>
    obtain ⟨l, n⟩ := r
    rw [List.map_cons, List.nodup_cons] at h
    have hl : l ∉ (ranges.map (·.1)).toFinset := by simpa using h.1
    have hranges : (ranges.map (·.1)).toFinset.finsupp
          (fun m => Finset.range ((((l, n) :: ranges).lookup m).getD 0)) =
        (ranges.map (·.1)).toFinset.finsupp
          (fun m => Finset.range ((ranges.lookup m).getD 0)) := by
      ext ρ
      simp only [Finset.mem_finsupp_iff]
      refine and_congr_right fun _ => forall₂_congr fun m hm => ?_
      rw [Ranges.lookup_pair, if_neg fun (h : m = l) => hl (h ▸ hm)]
    rw [List.map_cons, List.toFinset_cons, ← sum_finsupp_insert hl, hranges, assignments, List.map_map,
      show ((l, n) :: ranges).map (·.2) = n :: ranges.map (·.2) from rfl,
      MultiIndex.sum_tuples_cons, Ranges.lookup_pair, if_pos rfl, Option.getD_some]
    refine Finset.sum_congr rfl fun k _ => ?_
    rw [← ih h.2 fun ρ => f (Function.update ρ l k), assignments, List.map_map]
    simp only [Function.comp_def, List.map_cons, List.zip_cons_cons, labelValue_cons]

end GeometryEntry

namespace Ranges

variable {rs : Ranges} {xs : List (Index × ℕ)}

theorem mem_of_lookup {l n : ℕ} (h : rs.lookup l = some n) : (l, n) ∈ rs := by
  induction rs with
  | nil => cases h
  | cons r rs ih =>
    obtain ⟨m, s⟩ := r
    rw [lookup_pair] at h
    split_ifs at h with hm
    · obtain rfl := Option.some.inj h
      rw [hm]
      exact List.mem_cons_self
    · exact List.mem_cons_of_mem _ (ih h)

/-- A label runs over one range. -/
theorem Record.range_unique (h : rs.Record xs) {l m n : ℕ} (hm : (Index.free l, m) ∈ xs)
    (hn : (Index.free l, n) ∈ xs) : m = n :=
  Option.some.inj ((h.free l m hm).symm.trans (h.free l n hn))

theorem Record.labelRange_eq (h : rs.Record xs) {l n : ℕ} (hn : (Index.free l, n) ∈ xs) :
    labelRange xs l = n := by
  unfold labelRange
  cases hl : xs.lookup (.free l) with
  | none => simpa using List.lookup_eq_none_iff.mp hl _ hn
  | some m =>
    obtain ⟨before, after, hxs, -⟩ := List.lookup_eq_some_iff.mp hl
    exact h.range_unique (by simp [hxs]) hn

theorem Record.freeLabels_eq (h : rs.Record xs) : freeLabels xs = (rs.map (·.1)).toFinset := by
  ext l
  rw [mem_freeLabels, List.mem_toFinset, List.mem_map]
  constructor
  · rintro ⟨n, hn⟩
    exact ⟨(l, n), mem_of_lookup (h.free l n hn), rfl⟩
  · rintro ⟨x, hx, rfl⟩
    exact ⟨x.2, h.only x hx⟩

theorem Record.nodup (h : rs.Record xs) : (rs.map (·.1)).Nodup := by
  rw [List.Nodup, List.pairwise_map]
  exact h.sorted.imp fun hlt => Nat.ne_of_lt hlt

/-- The sum over the assignments is the sum over all values of the free indices. -/
theorem Record.sum_assignments {β : Type} [AddCommMonoid β] (h : rs.Record xs) (f : (ℕ → ℕ) → β) :
    ((GeometryEntry.assignments rs).map fun a => f (GeometryEntry.labelValue a)).sum =
      ∑ ρ ∈ labelValues xs, f ρ := by
  rw [GeometryEntry.sum_assignments_of_nodup rs h.nodup, labelValues, h.freeLabels_eq]
  congr 1
  ext ρ
  simp only [Finset.mem_finsupp_iff]
  refine and_congr_right fun _ => forall₂_congr fun l hl => ?_
  rw [← h.freeLabels_eq, mem_freeLabels] at hl
  obtain ⟨n, hn⟩ := hl
  rw [h.labelRange_eq hn, h.free l n hn, Option.getD_some]

/-- Every index of the list has a value in its range. -/
theorem Record.value_lt (h : rs.Record xs) {ρ : ℕ →₀ ℕ} (hρ : ρ ∈ labelValues xs) {i : Index} {n : ℕ}
    (hi : (i, n) ∈ xs) : i.value ρ < n := by
  cases i with
  | fixed m => exact h.fixed m n hi
  | free l =>
    have hvalue := (Finset.mem_finsupp_iff.mp hρ).2 l (mem_freeLabels.mpr ⟨n, hi⟩)
    rw [h.labelRange_eq hi, Finset.mem_range] at hvalue
    exact hvalue

end Ranges
end Variational
