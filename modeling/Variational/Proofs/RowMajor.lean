import Variational.Proofs.Contraction
import Variational.Proofs.EntryLabels

/-! Row-major order. The tuples below a list of ranges are listed in increasing order, and the place of a tuple is what
its numbers stand for as digits of a number whose bases are the ranges. The entries of a reference tensor are stored at
the places of pairs of tuples. -/
namespace Variational

namespace MultiIndex

/-- The place of a tuple: each of its numbers steps over all tuples of the ranges behind it. -/
def position (dims a : List ℕ) : ℕ := ∑ k ∈ Finset.range dims.length, a.getD k 0 * (dims.drop (k + 1)).prod

/-- A list of all tuples below the ranges, each of them once, in increasing order and at its place. -/
structure RowMajor (dims : List ℕ) (xs : List (List ℕ)) : Prop where
  length : xs.length = dims.prod
  mem_iff : ∀ a, a ∈ xs ↔ List.Forall₂ (· < ·) a dims
  nodup : xs.Nodup
  increasing : xs.Pairwise (List.Lex (· < ·))
  place : ∀ a ∈ xs, xs[position dims a]? = some a

theorem position_cons (d i : ℕ) (dims a : List ℕ) :
    position (d :: dims) (i :: a) = i * dims.prod + position dims a := by
  rw [position, List.length_cons, Finset.sum_range_succ', add_comm]
  rfl

variable {dims a : List ℕ}

theorem mem_tuples_iff : a ∈ tuples dims ↔ List.Forall₂ (· < ·) a dims := by
  induction dims generalizing a with
  | nil => simp [tuples]
  | cons d dims ih =>
    cases a with
    | nil => simp [tuples]
    | cons i a => rw [cons_mem_tuples, ih, List.forall₂_cons]

theorem increasing_tuples (dims : List ℕ) : (tuples dims).Pairwise (List.Lex (· < ·)) := by
  induction dims with
  | nil => exact List.pairwise_singleton _ _
  | cons d dims ih =>
    rw [tuples, List.pairwise_flatMap]
    refine ⟨fun i _ => List.pairwise_map.mpr (ih.imp List.Lex.cons), List.pairwise_lt_range.imp fun {i j} hij => ?_⟩
    intro a ha b hb
    obtain ⟨a, -, rfl⟩ := List.mem_map.mp ha
    obtain ⟨b, -, rfl⟩ := List.mem_map.mp hb
    exact List.Lex.rel hij

theorem length_tuples_eq_prod (dims : List ℕ) : (tuples dims).length = dims.prod := by
  rw [length_tuples, List.prod_eq_foldr]

theorem getElem?_tuples (h : a ∈ tuples dims) : (tuples dims)[position dims a]? = some a := by
  induction dims generalizing a with
  | nil =>
    obtain rfl := List.mem_singleton.mp h
    rfl
  | cons d dims ih =>
    obtain ⟨i, b, rfl, hi, hb⟩ := exists_of_mem_tuples_cons h
    -- The tuples that begin with one number form a row, and all rows have the same length.
    have hlength (i : ℕ) (_ : i ∈ List.range d) : ((tuples dims).map (i :: ·)).length = dims.prod := by
      rw [List.length_map, length_tuples_eq_prod]
    have hplace : position dims b < dims.prod := by
      rw [← length_tuples_eq_prod]
      exact (List.getElem?_eq_some_iff.mp (ih hb)).1
    rw [position_cons, tuples, getElem?_flatMap_of_length hlength i hplace, List.getElem?_range hi]
    exact (List.getElem?_map ..).trans (congrArg (Option.map (i :: ·)) (ih hb))

theorem rowMajor_tuples (dims : List ℕ) : RowMajor dims (tuples dims) where
  length := length_tuples_eq_prod dims
  mem_iff _ := mem_tuples_iff
  nodup := nodup_tuples dims
  increasing := increasing_tuples dims
  place _ := getElem?_tuples

theorem RowMajor.bijOn {xs : List (List ℕ)} (h : RowMajor dims xs) :
    Set.BijOn (position dims) {a | a ∈ xs} (Set.Iio xs.length) := by
  refine ⟨fun a ha => (List.getElem?_eq_some_iff.mp (h.place a ha)).1, fun a ha b hb hab => ?_, fun n hn => ?_⟩
  · have hplace := h.place a ha
    rw [hab, h.place b hb] at hplace
    exact (Option.some.inj hplace).symm
  · have hlt : n < xs.length := hn
    have hmem : xs[n] ∈ xs := List.getElem_mem hlt
    have hplace := (List.getElem?_eq_getElem hlt).trans (h.place _ hmem).symm
    exact ⟨xs[n], hmem, ((List.getElem?_inj hlt h.nodup).mp hplace).symm⟩

/-- Rows of one length, joined end to end. -/
theorem bijOn_rows (m n : ℕ) :
    Set.BijOn (fun x : ℕ × ℕ => x.1 * n + x.2) (Set.Iio m ×ˢ Set.Iio n) (Set.Iio (m * n)) := by
  refine ⟨?_, ?_, ?_⟩
  · rintro ⟨i, j⟩ ⟨hi, hj⟩
    simp only [Set.mem_Iio] at hi hj ⊢
    calc i * n + j < (i + 1) * n := by rw [Nat.succ_mul]; omega
      _ ≤ m * n := Nat.mul_le_mul_right n hi
  · have hread {i j : ℕ} (hj : j < n) : (i * n + j) / n = i ∧ (i * n + j) % n = j := by
      rw [Nat.mul_comm, Nat.mul_add_div (Nat.zero_lt_of_lt hj), Nat.div_eq_of_lt hj, Nat.mul_add_mod,
        Nat.mod_eq_of_lt hj]
      exact ⟨rfl, rfl⟩
    rintro ⟨i, j⟩ ⟨-, hj⟩ ⟨i', j'⟩ ⟨-, hj'⟩ h
    dsimp only at h
    obtain ⟨hrow, hcolumn⟩ := hread (i := i) hj
    rw [h, (hread hj').1] at hrow
    rw [h, (hread hj').2] at hcolumn
    exact Prod.ext hrow.symm hcolumn.symm
  · intro k hk
    simp only [Set.mem_Iio] at hk
    have hpos : 0 < n := Nat.pos_of_ne_zero fun h => by simp [h] at hk
    exact ⟨(k / n, k % n), ⟨(Nat.div_lt_iff_lt_mul hpos).mpr hk, Nat.mod_lt k hpos⟩, Nat.div_add_mod' k n⟩

end MultiIndex

variable {α : Type}

namespace ReferenceTensor

/-- The place of the entry for a primary and a secondary index. -/
def place (t : ReferenceTensor α) (x : List ℕ × List ℕ) : ℕ :=
  MultiIndex.position t.primary.dims x.1 * t.secondary.size + MultiIndex.position t.secondary.dims x.2

theorem bijOn_place (t : ReferenceTensor α) :
    Set.BijOn t.place {x | x.1 ∈ t.primary.indices ∧ x.2 ∈ t.secondary.indices}
      (Set.Iio (t.primary.size * t.secondary.size)) := by
  have hprimary := (MultiIndex.rowMajor_tuples t.primary.dims).bijOn
  have hsecondary := (MultiIndex.rowMajor_tuples t.secondary.dims).bijOn
  rw [MultiIndex.length_tuples] at hprimary hsecondary
  exact (MultiIndex.bijOn_rows t.primary.size t.secondary.size).comp (hprimary.prodMap hsecondary)

end ReferenceTensor

namespace Product

variable [Scalar α]

/-- Multi-indices are listed in row-major order, and by their places in it the entries of a term are stored and found:
the places of the pairs of a primary and a secondary index are all the places of the entries of a region, each of one
pair only, and at the place of a pair stands the entry that is computed for it. -/
theorem entries_rowMajor :
    (∀ dims, MultiIndex.RowMajor dims (MultiIndex.tuples dims)) ∧
    ∀ {cell : Cell} {numPoints : Option ℕ} {p : Product α} {d : Draft α} {t : Term α},
      p.term cell numPoints d = .ok t →
      ∃ rules, p.regions cell t.numPoints = .ok rules ∧ t.reference.numRegions = rules.length ∧
        ∀ r rule, rules[r]? = some rule → ∃ values tables, t.reference.values[r]? = some values ∧
          ReferenceTensor.tabulateKeys d.plans rule.points
            (ReferenceTensor.keys cell.dim d.plans t.reference.secondary) = .ok tables ∧
          Set.BijOn t.reference.place
            {x | x.1 ∈ t.reference.primary.indices ∧ x.2 ∈ t.reference.secondary.indices} (Set.Iio values.size) ∧
          ∀ i ∈ t.reference.primary.indices, ∀ a ∈ t.reference.secondary.indices, ∃ x,
            ReferenceTensor.entry rule.weights (ReferenceTensor.factors cell.dim d.plans tables a) i a = .ok x ∧
            values[t.reference.place (i, a)]? = some x ∧
            t.reference.value r (MultiIndex.position t.reference.primary.dims i)
              (MultiIndex.position t.reference.secondary.dims a) = x := by
  refine ⟨MultiIndex.rowMajor_tuples, fun {cell numPoints p d t} hterm => ?_⟩
  obtain ⟨rules, hrules, hvalues, -⟩ := term_ok hterm
  refine ⟨rules, hrules, Result.length_of_mapM hvalues, fun r rule hrule => ?_⟩
  obtain ⟨values, hr, hregion⟩ := Result.getElem?_of_mapM hvalues hrule
  obtain ⟨tables, htables, hentries⟩ := ReferenceTensor.entry_of_onRegion hregion
  refine ⟨values, tables, hr, htables, ?_, fun i hi a ha => ?_⟩
  · rw [ReferenceTensor.size_onRegion hregion]
    exact t.reference.bijOn_place
  · obtain ⟨x, hentry, hx⟩ := hentries (MultiIndex.getElem?_tuples hi) (MultiIndex.getElem?_tuples ha)
    refine ⟨x, hentry, hx, ?_⟩
    rw [ReferenceTensor.value, hr, Option.bind_some, hx, Option.getD_some]

/-- The two dofs of a test function against the components of its values and the dofs and components of a
coefficient. -/
theorem entries_rowMajor_pointPairing : ∃ (d : Draft ℝ) (t : Term ℝ) (values : Array ℝ),
    pointPairing.term (.simple .point) (some 1) d = .ok t ∧ t.reference.values[0]? = some values ∧
      t.reference.primary.dims = [2] ∧ t.reference.secondary.dims = [2, 2, 2] ∧
      Set.BijOn t.reference.place
        {x | x.1 ∈ t.reference.primary.indices ∧ x.2 ∈ t.reference.secondary.indices} (Set.Iio values.size) := by
  have hbuild : ∃ t c', (pointPairing.build (.simple .point) (some 1)).Returns .empty t c' ∧
      t.reference.primary = ⟨[2]⟩ ∧ t.reference.secondary = ⟨[2, 2, 2]⟩ ∧ t.numPoints = 1 := ⟨_, _, rfl, rfl, rfl, rfl⟩
  obtain ⟨t, c', ht, hprimary, hsecondary, hpoints⟩ := hbuild
  obtain ⟨d, -, hterm⟩ := build_returns ht
  obtain ⟨rules, hrules, -, hregions⟩ := entries_rowMajor.2 hterm
  have hrule : rules = [Rule.degenerate] := by
    rw [hpoints] at hrules
    exact (Except.ok.inj hrules).symm
  obtain ⟨values, tables, hvalues, -, hplaces, -⟩ := hregions 0 Rule.degenerate (by rw [hrule, List.getElem?_cons_zero])
  exact ⟨d, t, values, hterm, hvalues, by rw [hprimary], by rw [hsecondary], hplaces⟩

end Product
end Variational
