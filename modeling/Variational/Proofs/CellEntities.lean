import Variational.Proofs.NamedCells
import Variational.Proofs.SingleCell
import Variational.Proofs.TableShapes

/-! Entities of a cell as its elements list them. An element that is built up from reference cells lists all
entities of its cell. The entity counts of a product cell leave out its facets, so an element of values at
points of a product cell lists fewer, and a sum of elements of both kinds is refused. -/
namespace Variational

namespace Cell

/-- Number of entities of each dimension, the facets of product cells among them. -/
def subentities : Cell → List ℕ
  | simple c => c.entityCounts
  | product a b => convolve a.subentities b.subentities

/-- The facets are counted with the other entities of the cell, or there are none. -/
def CountsFacets (c : Cell) : Prop := c.dim = 0 ∨ ∃ r, c = .simple r

section Convolution

/-- A sum up to a bound, as a sum over the places where there is something. -/
theorem sum_upTo {f : ℕ → ℕ} {m : ℕ} (h : ∀ a, m ≤ a → f a = 0) (d : ℕ) :
    ∑ i ∈ Finset.range (d + 1), f i = ∑ a ∈ Finset.range m, if a ≤ d then f a else 0 := by
  rw [← Finset.sum_filter]
  symm
  apply Finset.sum_subset
  · intro a ha
    rw [Finset.mem_filter] at ha
    exact Finset.mem_range.mpr (Nat.lt_succ_of_le ha.2)
  · intro a ha hnot
    rw [Finset.mem_range] at ha
    simp only [Finset.mem_filter, Finset.mem_range, not_and] at hnot
    apply h
    by_contra hlt
    exact hnot (Nat.lt_of_not_le hlt) (Nat.le_of_lt_succ ha)

/-- One coefficient of a product, summed over the first factor. -/
theorem sum_level (xs ys : List ℕ) (d : ℕ) :
    ∑ i ∈ Finset.range (d + 1), xs.getD i 0 * ys.getD (d - i) 0 =
      ∑ a ∈ Finset.range xs.length, if a ≤ d then xs.getD a 0 * ys.getD (d - a) 0 else 0 := by
  apply sum_upTo
  intro a ha
  rw [List.getD_eq_default _ _ ha, zero_mul]

theorem sum_convolve (xs ys : List ℕ) : (convolve xs ys).sum = xs.sum * ys.sum := by
  have hzero (a b : ℕ) (hb : ys.length ≤ b) : xs.getD a 0 * ys.getD b 0 = 0 := by
    rw [List.getD_eq_default _ _ hb, mul_zero]
  calc (convolve xs ys).sum
    _ = ∑ d ∈ Finset.range (xs.length + ys.length - 1),
          ∑ i ∈ Finset.range (d + 1), xs.getD i 0 * ys.getD (d - i) 0 := rfl
    _ = ∑ a ∈ Finset.range xs.length, ∑ b ∈ Finset.range ys.length, xs.getD a 0 * ys.getD b 0 := by
      simp only [sum_level]
      exact EntityDofs.sum_antidiagonal (fun a b => xs.getD a 0 * ys.getD b 0) _ _ hzero
    _ = xs.sum * ys.sum := by rw [← Finset.sum_mul_sum, ← sum_eq_getD, ← sum_eq_getD]

/-- A product has more of an entity than one pair of its factors gives. -/
theorem le_getD_convolve (xs ys : List ℕ) {i j : ℕ} (hi : i < xs.length) (hj : j < ys.length) :
    xs.getD i 0 * ys.getD j 0 ≤ (convolve xs ys).getD (i + j) 0 := by
  have hlt : i + j < xs.length + ys.length - 1 := by omega
  have hget : (convolve xs ys).getD (i + j) 0 =
      ∑ k ∈ Finset.range (i + j + 1), xs.getD k 0 * ys.getD (i + j - k) 0 := by
    rw [convolve, List.getD_eq_getElem _ _ (by simpa using hlt), List.getElem_map, List.getElem_range]
    rfl
  have hterm := Finset.single_le_sum (f := fun k => xs.getD k 0 * ys.getD (i + j - k) 0)
    (fun k _ => Nat.zero_le _) (Finset.mem_range.mpr (show i < i + j + 1 by omega))
  rw [hget]
  simpa using hterm

end Convolution

/-- What is lost when one entry of a list is set to zero. -/
theorem sum_set_zero (xs : List ℕ) (k : ℕ) : (xs.set k 0).sum + xs.getD k 0 = xs.sum := by
  induction xs generalizing k with
  | nil => simp
  | cons x xs ih =>
    cases k with
    | zero => simp [Nat.add_comm]
    | succ k =>
      have hrest := ih k
      simp only [List.set_cons_succ, List.sum_cons, List.getD_cons_succ]
      omega

theorem length_subentities (c : Cell) : c.subentities.length = c.dim + 1 := by
  induction c with
  | simple c => exact c.length_entityCounts
  | product a b ha hb =>
    rw [subentities, length_convolve, ha, hb, dim_product]
    omega

theorem getLast?_subentities (c : Cell) : c.subentities.getLast? = some 1 := by
  induction c with
  | simple c => exact c.getLast?_entityCounts
  | product a b ha hb => exact getLast?_convolve ha hb

/-- A cell has one interior. -/
theorem getD_dim_subentities (c : Cell) : c.subentities.getD c.dim 0 = 1 := by
  have hlast := c.getLast?_subentities
  rw [List.getLast?_eq_getElem?, length_subentities, Nat.add_sub_cancel] at hlast
  rw [List.getD_eq_getElem?_getD, hlast, Option.getD_some]

theorem sum_subentities_pos (c : Cell) : 0 < c.subentities.sum := by
  have hmem : 1 ∈ c.subentities := List.mem_of_getLast? c.getLast?_subentities
  exact Nat.lt_of_lt_of_le Nat.one_pos (List.single_le_sum (fun _ _ => Nat.zero_le _) 1 hmem)

/-- A cell that has a dimension has facets. -/
theorem subentities_facets_pos (c : Cell) (h : c.dim ≠ 0) : 0 < c.subentities.getD (c.dim - 1) 0 := by
  induction c with
  | simple c => cases c <;> first | exact absurd rfl h | decide
  | product a b ha hb =>
    rw [dim_product] at h ⊢
    rw [subentities]
    by_cases hzero : a.dim = 0
    · have hfacets := hb (by omega)
      have hle := le_getD_convolve a.subentities b.subentities (i := a.dim) (j := b.dim - 1)
        (by rw [length_subentities]; omega) (by rw [length_subentities]; omega)
      rw [getD_dim_subentities, one_mul, show a.dim + (b.dim - 1) = a.dim + b.dim - 1 by omega] at hle
      omega
    · have hfacets := ha hzero
      have hle := le_getD_convolve a.subentities b.subentities (i := a.dim - 1) (j := b.dim)
        (by rw [length_subentities]; omega) (by rw [length_subentities]; omega)
      rw [getD_dim_subentities, mul_one, show a.dim - 1 + b.dim = a.dim + b.dim - 1 by omega] at hle
      omega

theorem entityCounts_of_dim_zero {c : Cell} (h : c.dim = 0) : c.entityCounts = c.subentities := by
  induction c with
  | simple c => rfl
  | product a b ha hb =>
    rw [dim_product] at h
    have hlength : ¬ 2 ≤ (convolve a.entityCounts b.entityCounts).length := by
      rw [length_convolve, length_entityCounts, length_entityCounts]
      omega
    simp only [entityCounts, subentities]
    rw [if_neg hlength, ha (by omega), hb (by omega)]

theorem CountsFacets.entityCounts_eq {c : Cell} (h : c.CountsFacets) : c.entityCounts = c.subentities := by
  rcases h with h | ⟨r, rfl⟩
  · exact entityCounts_of_dim_zero h
  · rfl

theorem sum_entityCounts_le (c : Cell) : c.entityCounts.sum ≤ c.subentities.sum := by
  induction c with
  | simple c => exact le_rfl
  | product a b ha hb =>
    have hproduct : (convolve a.entityCounts b.entityCounts).sum ≤ (product a b).subentities.sum := by
      rw [subentities, sum_convolve, sum_convolve]
      exact Nat.mul_le_mul ha hb
    simp only [entityCounts]
    split_ifs
    · have hset := sum_set_zero (convolve a.entityCounts b.entityCounts)
        ((convolve a.entityCounts b.entityCounts).length - 2)
      omega
    · exact hproduct

/-- Without its facets a product cell has fewer entities. -/
theorem sum_entityCounts_lt {c : Cell} (h : ¬ c.CountsFacets) : c.entityCounts.sum < c.subentities.sum := by
  induction c with
  | simple c => exact absurd (.inr ⟨c, rfl⟩) h
  | product a b ha hb =>
    have hdim : a.dim + b.dim ≠ 0 := fun hzero => h (.inl hzero)
    have hlength : (convolve a.entityCounts b.entityCounts).length = a.dim + b.dim + 1 := by
      rw [length_convolve, length_entityCounts, length_entityCounts]
      omega
    have hset := sum_set_zero (convolve a.entityCounts b.entityCounts) (a.dim + b.dim + 1 - 2)
    have hcounts : (product a b).entityCounts =
        (convolve a.entityCounts b.entityCounts).set (a.dim + b.dim + 1 - 2) 0 := by
      simp only [entityCounts]
      rw [if_pos (by omega), hlength]
    rw [hcounts]
    -- Either the factors have lost facets of their own, or the facets of the product are lost now.
    by_cases hfactors : a.CountsFacets ∧ b.CountsFacets
    · have hfacets := (product a b).subentities_facets_pos hdim
      rw [dim_product, subentities, show a.dim + b.dim - 1 = a.dim + b.dim + 1 - 2 by omega] at hfacets
      rw [hfactors.1.entityCounts_eq, hfactors.2.entityCounts_eq] at hset ⊢
      rw [subentities]
      omega
    · have hproduct : (convolve a.entityCounts b.entityCounts).sum < (product a b).subentities.sum := by
        rw [subentities, sum_convolve, sum_convolve]
        rcases not_and_or.mp hfactors with hnot | hnot
        · exact Nat.mul_lt_mul_of_lt_of_le (ha hnot) b.sum_entityCounts_le b.sum_subentities_pos
        · exact Nat.mul_lt_mul_of_le_of_lt a.sum_entityCounts_le (hb hnot) a.sum_subentities_pos
      omega

end Cell

theorem EntityDofs.counts_product (n : ℕ) (e f : EntityDofs) :
    counts (product n e f) = Cell.convolve (counts e) (counts f) := by
  have hget (g : EntityDofs) (d : ℕ) : (counts g).getD d 0 = (g.getD d []).length :=
    List.getD_map _ [] List.length
  have hlevel (d a : ℕ) : ((e.getD a []).flatMap fun as =>
      if a ≤ d then (f.getD (d - a) []).map (pairs n as) else []).length =
        if a ≤ d then (counts e).getD a 0 * (counts f).getD (d - a) 0 else 0 := by
    rw [hget, hget]
    split_ifs
    · rw [MultiIndex.length_flatMap_of_length _ _ fun as => List.length_map _]
    · simp
  have hlength (g : EntityDofs) : (counts g).length = g.length := List.length_map _
  rw [counts, product, List.map_map, Cell.convolve, hlength, hlength]
  apply List.map_congr_left
  intro d _
  rw [Function.comp_apply, List.length_flatMap]
  simp only [hlevel]
  have hsum := Cell.sum_level (counts e) (counts f) d
  rw [hlength] at hsum
  exact hsum.symm

theorem Layout.counts_mergeAll {ls : List Layout} {dofs : EntityDofs}
    (h : ∀ l ∈ ls, EntityDofs.counts l.entityDofs = EntityDofs.counts dofs) (n : ℕ) :
    EntityDofs.counts (mergeAll n dofs ls) = EntityDofs.counts dofs := by
  induction ls generalizing dofs n with
  | nil => rfl
  | cons l ls ih =>
    rw [List.forall_mem_cons] at h
    have hmerge := EntityDofs.counts_merge n h.1.symm
    rw [mergeAll, ih fun l' hl' => (h.2 l' hl').trans hmerge.symm, hmerge]

namespace Element

variable {α : Type}

mutual

/-- All elements of families that an element is built from have a property. -/
def EachLeaf (P : Element α → Prop) : Element α → Prop
  | mixed parts => EachLeafOf P parts
  | restricted e _ _ => e.EachLeaf P
  | enriched a b => a.EachLeaf P ∧ b.EachLeaf P
  | product a b _ => a.EachLeaf P ∧ b.EachLeaf P
  | e => P e

def EachLeafOf (P : Element α → Prop) : List (Element α) → Prop
  | [] => True
  | e :: es => e.EachLeaf P ∧ EachLeafOf P es

end

theorem eachLeafOf_iff {P : Element α → Prop} {es : List (Element α)} :
    EachLeafOf P es ↔ ∀ e ∈ es, e.EachLeaf P := by
  induction es with
  | nil => simp [EachLeafOf]
  | cons e es ih => rw [EachLeafOf, ih, List.forall_mem_cons]

theorem eachLeaf_mixed {P : Element α → Prop} {es : List (Element α)} :
    (mixed es).EachLeaf P ↔ ∀ e ∈ es, e.EachLeaf P := by
  rw [EachLeaf]
  exact eachLeafOf_iff

/-- No part of the element has its values at points of a cell whose facets are not counted. -/
def ListsFacets : Element α → Prop :=
  EachLeaf fun e => ∀ cell degree nodes, e = quadrature cell degree nodes → cell.CountsFacets

variable [Scalar α]

/-- How many entities of each dimension the element lists. -/
def entities (e : Element α) : List ℕ := EntityDofs.counts e.layout.entityDofs

/-- The element lists all entities of its cell, unless a part of it leaves out facets. -/
structure Counted (e : Element α) : Prop where
  positive : 0 < e.entities.sum
  full : e.ListsFacets → e.entities = e.cell.subentities
  fewer : ¬ e.ListsFacets → e.entities.sum < e.cell.subentities.sum

theorem Counted.entities_eq_iff {e : Element α} (h : e.Counted) :
    e.entities = e.cell.subentities ↔ e.ListsFacets := by
  refine ⟨fun heq => ?_, h.full⟩
  by_contra hnot
  have hlt := h.fewer hnot
  rw [heq] at hlt
  exact lt_irrefl _ hlt

/-- An element built from others on the same cell, with as many entities as each of them. -/
theorem Counted.of_parts {e a : Element α} (es : List (Element α)) (ha : a ∈ es) (h : ∀ x ∈ es, x.Counted)
    (hsame : ∀ x ∈ es, e.entities = x.entities ∧ e.cell = x.cell)
    (hlists : e.ListsFacets ↔ ∀ x ∈ es, x.ListsFacets) : e.Counted := by
  refine ⟨?_, fun hall => ?_, fun hnot => ?_⟩
  · rw [(hsame a ha).1]
    exact (h a ha).positive
  · rw [(hsame a ha).1, (hsame a ha).2]
    exact (h a ha).full (hlists.mp hall a ha)
  · rw [hlists] at hnot
    simp only [not_forall] at hnot
    obtain ⟨x, hx, hmissing⟩ := hnot
    rw [(hsame x hx).1, (hsame x hx).2]
    exact (h x hx).fewer hmissing

theorem Counted.product {a b : Element α} (ha : a.Counted) (hb : b.Counted) (w : Option Wrapping) :
    (product a b w).Counted := by
  have hentities : (Element.product a b w).entities = Cell.convolve a.entities b.entities := by
    cases w <;> exact EntityDofs.counts_product _ _ _
  have hcell : (Element.product a b w).cell = .product a.cell b.cell := by cases w <;> rfl
  have hlists : (Element.product a b w).ListsFacets ↔ a.ListsFacets ∧ b.ListsFacets := by
    rw [ListsFacets, EachLeaf]
  have hle {e : Element α} (he : e.Counted) : e.entities.sum ≤ e.cell.subentities.sum := by
    by_cases h : e.ListsFacets
    · rw [he.full h]
    · exact (he.fewer h).le
  refine ⟨?_, fun hall => ?_, fun hnot => ?_⟩
  · rw [hentities, Cell.sum_convolve]
    exact Nat.mul_pos ha.positive hb.positive
  · rw [hlists] at hall
    rw [hentities, hcell, Cell.subentities, ha.full hall.1, hb.full hall.2]
  · rw [hlists, not_and_or] at hnot
    rw [hentities, hcell, Cell.subentities, Cell.sum_convolve, Cell.sum_convolve]
    rcases hnot with hnot | hnot
    · exact Nat.mul_lt_mul_of_lt_of_le (ha.fewer hnot) (hle hb) b.cell.sum_subentities_pos
    · exact Nat.mul_lt_mul_of_le_of_lt (hle ha) (hb.fewer hnot) a.cell.sum_subentities_pos

theorem OfFamily.counted {family : String} {cell : Cell} {degree : ℕ} {e : Element α}
    (h : OfFamily family cell degree e) : e.Counted := by
  have hcounts : e.entities = e.cell.entityCounts := h.counts_eq
  have hlists : e.ListsFacets ↔ e.cell.CountsFacets := by
    cases h with
    | quadrature =>
      rw [ListsFacets, EachLeaf]
      · simp only [Element.quadrature.injEq]
        exact ⟨fun h => h _ _ _ ⟨rfl, rfl, rfl⟩, fun h _ _ _ heq => heq.1 ▸ h⟩
      all_goals nofun
    | _ =>
      rw [ListsFacets, EachLeaf]
      · exact ⟨fun _ => .inr ⟨_, rfl⟩, fun _ _ _ _ h => by cases h⟩
      all_goals nofun
  refine ⟨?_, fun hall => ?_, fun hnot => ?_⟩
  · have hmem : 1 ∈ e.entities := by
      rw [hcounts]
      exact List.mem_of_getLast? e.cell.getLast?_entityCounts
    exact Nat.lt_of_lt_of_le Nat.one_pos (List.single_le_sum (fun _ _ => Nat.zero_le _) 1 hmem)
  · rw [hcounts, (hlists.mp hall).entityCounts_eq]
  · rw [hcounts]
    exact Cell.sum_entityCounts_lt fun h => hnot (hlists.mpr h)

theorem closed_counted : Closed fun e : Element α => e.Counted where
  family h := (ofFamily_ok h).2.counted
  restrict {e _ _} he _ := by
    refine .of_parts [e] (a := e) (by simp) (by simpa using he) ?_ ?_
    · rw [List.forall_mem_singleton]
      exact ⟨EntityDofs.counts_keep _ _, rfl⟩
    · rw [List.forall_mem_singleton, ListsFacets, EachLeaf]
  enrich {a b e} ha hb h := by
    obtain ⟨hcell, -, -, hcounts⟩ := enrich_compatible h
    obtain rfl := enrich_ok h
    have hentities : (Element.enriched a b).entities = a.entities := EntityDofs.counts_merge _ hcounts
    refine .of_parts [a, b] (a := a) (by simp) (by simp [ha, hb]) ?_ ?_
    · intro x hx
      rcases List.mem_pair.mp hx with rfl | rfl
      · exact ⟨hentities, rfl⟩
      · exact ⟨hentities.trans hcounts, hcell⟩
    · rw [ListsFacets, EachLeaf]
      simp
  tensor ha hb h := by
    obtain rfl := tensor_ok h
    exact ha.product hb none
  wrap {_ x _} hx h := by
    obtain ⟨a, b, c, rfl, -, rfl⟩ := wrap_ok h
    refine .of_parts [Element.product a b none] (a := Element.product a b none) (by simp)
      (by simpa using hx) ?_ ?_
    · rw [List.forall_mem_singleton]
      exact ⟨rfl, rfl⟩
    · rw [List.forall_mem_singleton, ListsFacets, EachLeaf, EachLeaf]
  mix hparts h := by
    have hcell {a : Element α} := cell_of_mem_parts h (a := a)
    obtain ⟨first, rest, rfl, hsame⟩ := mix_compatible h
    obtain rfl := mix_ok h
    have hcounts (x : Element α) (hx : x ∈ rest) : x.entities = first.entities := (hsame x hx).2
    have hentities : (mixed (first :: rest)).entities = first.entities := by
      rw [entities, layout_mixed]
      exact Layout.counts_mergeAll (List.forall_mem_map.mpr hcounts) _
    refine .of_parts (first :: rest) List.mem_cons_self hparts (fun x hx => ⟨?_, (hcell hx).symm⟩) eachLeaf_mixed
    rcases List.mem_cons.mp hx with rfl | hx
    · exact hentities
    · exact hentities.trans (hcounts x hx).symm

theorem checkParts_on_cell {first : Layout} {ls : List Layout} (hcell : ∀ l ∈ ls, l.cell = first.cell) :
    (checkParts first ls = .ok () ∧
        ∀ l ∈ ls, EntityDofs.counts l.entityDofs = EntityDofs.counts first.entityDofs) ∨
      (checkParts first ls = .error (.incompatibleElements (.entityStructures "mixed element")) ∧
        ∃ l ∈ ls, EntityDofs.counts l.entityDofs ≠ EntityDofs.counts first.entityDofs) := by
  induction ls with
  | nil => exact .inl ⟨rfl, by simp⟩
  | cons l ls ih =>
    rw [List.forall_mem_cons] at hcell
    rw [checkParts, if_neg (not_not.mpr hcell.1)]
    by_cases hsame : EntityDofs.counts l.entityDofs = EntityDofs.counts first.entityDofs
    · rw [if_neg (not_not.mpr hsame)]
      rcases ih hcell.2 with ⟨hok, hall⟩ | ⟨herror, l', hl', hdiffer⟩
      · exact .inl ⟨hok, List.forall_mem_cons.mpr ⟨hsame, hall⟩⟩
      · exact .inr ⟨herror, l', List.mem_cons_of_mem l hl', hdiffer⟩
    · rw [if_pos hsame]
      exact .inr ⟨rfl, l, List.mem_cons_self, hsame⟩

/-- On one cell the parts of a sum only have to list equally many entities. -/
theorem mix_on_cell {parts : List (Element α)} {cell : Cell} (hne : parts ≠ [])
    (hcell : ∀ e ∈ parts, e.cell = cell) :
    (mix parts = .ok (mixed parts) ∧ ∀ e ∈ parts, ∀ e' ∈ parts, e.entities = e'.entities) ∨
      (mix parts = .error (.incompatibleElements (.entityStructures "mixed element")) ∧
        ∃ e ∈ parts, ∃ e' ∈ parts, e.entities ≠ e'.entities) := by
  obtain ⟨a, es, rfl⟩ := List.exists_cons_of_ne_nil hne
  rw [List.forall_mem_cons] at hcell
  have hlayouts : ∀ l ∈ es.map layout, l.cell = a.layout.cell :=
    List.forall_mem_map.mpr fun e he => (hcell.2 e he).trans hcell.1.symm
  rcases checkParts_on_cell hlayouts with ⟨hok, hall⟩ | ⟨herror, hdiffer⟩
  · rw [List.forall_mem_map] at hall
    have hfirst : ∀ e ∈ a :: es, e.entities = a.entities := List.forall_mem_cons.mpr ⟨rfl, hall⟩
    refine .inl ⟨?_, fun e he e' he' => (hfirst e he).trans (hfirst e' he').symm⟩
    rw [mix_cons, hok, Result.ok_bind]
  · obtain ⟨l, hl, hdiffer⟩ := hdiffer
    obtain ⟨e, he, rfl⟩ := List.mem_map.mp hl
    refine .inr ⟨?_, e, List.mem_cons_of_mem a he, a, List.mem_cons_self, hdiffer⟩
    rw [mix_cons, herror]
    rfl

/-- Elements on one cell list all entities of the cell, and then they can be summed, exactly when none of
their parts has its values at points of a product cell with facets. On a reference cell none has. -/
theorem entities_on_cell {parts : List (Element α)} {cell : Cell} (hne : parts ≠ [])
    (hresolved : ∀ e ∈ parts, ∃ earlier d, Resolve.answerAfter earlier d = .ok e)
    (hcell : ∀ e ∈ parts, e.cell = cell) :
    (∀ e ∈ parts, e.entities = cell.subentities ↔ e.ListsFacets) ∧
      (mix parts = .ok (mixed parts) ↔ ∀ e ∈ parts, ∀ e' ∈ parts, e.entities = e'.entities) ∧
      ((∀ e ∈ parts, e.ListsFacets) → mix parts = .ok (mixed parts)) ∧
      (∀ e ∈ parts, ∀ e' ∈ parts, e.ListsFacets → ¬ e'.ListsFacets → e.entities ≠ e'.entities ∧
        mix parts = .error (.incompatibleElements (.entityStructures "mixed element"))) ∧
      ∀ c, cell = .simple c → ∀ e ∈ parts, e.ListsFacets := by
  have hdirect (e : Element α) (he : e ∈ parts) : ∃ d, direct d = .ok e := by
    obtain ⟨earlier, d, hd⟩ := hresolved e he
    exact ⟨d, (Resolve.answerAfter_eq earlier d).symm.trans hd⟩
  have hcounted (e : Element α) (he : e ∈ parts) : e.Counted := by
    obtain ⟨d, hd⟩ := hdirect e he
    exact closed_counted.direct hd
  have hlists (e : Element α) (he : e ∈ parts) : e.entities = cell.subentities ↔ e.ListsFacets := by
    rw [← hcell e he]
    exact (hcounted e he).entities_eq_iff
  have hsum : mix parts = .ok (mixed parts) ↔ ∀ e ∈ parts, ∀ e' ∈ parts, e.entities = e'.entities := by
    rcases mix_on_cell hne hcell with ⟨hok, hsame⟩ | ⟨herror, e, he, e', he', hdiffer⟩
    · exact ⟨fun _ => hsame, fun _ => hok⟩
    · refine ⟨fun hok => ?_, fun hsame => absurd (hsame e he e' he') hdiffer⟩
      rw [herror] at hok
      cases hok
  refine ⟨hlists, hsum, fun hall => ?_, fun e he e' he' hfull hmissing => ?_, fun c hc e he => ?_⟩
  · refine hsum.mpr fun e he e' he' => ?_
    rw [(hlists e he).mpr (hall e he), (hlists e' he').mpr (hall e' he')]
  · have hdiffer : e.entities ≠ e'.entities := by
      intro heq
      rw [(hlists e he).mpr hfull] at heq
      exact hmissing ((hlists e' he').mp heq.symm)
    refine ⟨hdiffer, ?_⟩
    rcases mix_on_cell hne hcell with ⟨-, hsame⟩ | ⟨herror, -⟩
    · exact absurd (hsame e he e' he') hdiffer
    · exact herror
  · obtain ⟨d, hd⟩ := hdirect e he
    have heven : e.layout.Even := closed_even.direct hd
    rw [← hlists e he, hc]
    exact heven.counts c ((hcell e he).trans hc)

/-- A value in the middle of an interval. -/
def midpoint : Descriptor := .simple "Quadrature" (.simple .interval) (some 1)

/-- A value in the middle of a square, as a product and as a single value. -/
def midpointProduct : Descriptor := .product midpoint midpoint

def squareMidpoint : Descriptor :=
  .simple "Quadrature" (.product (.simple .interval) (.simple .interval)) (some 1)

/-- Products of elements on intervals list the four sides of the square. -/
theorem entities_on_square : ∃ a b : Element Float,
    Resolve.answerAfter [squareMidpoint] midpointProduct = .ok a ∧
      Resolve.answerAfter [] (.mixed [midpointProduct, midpointProduct]) = .ok b ∧
      a.ListsFacets ∧ b.ListsFacets ∧ mix [a, b] = .ok (mixed [a, b]) := by
  have hresolved : ∃ a b : Element Float,
      Resolve.answerAfter [squareMidpoint] midpointProduct = .ok a ∧
        Resolve.answerAfter [] (.mixed [midpointProduct, midpointProduct]) = .ok b ∧
        a.cell = .product (.simple .interval) (.simple .interval) ∧
        b.cell = .product (.simple .interval) (.simple .interval) ∧
        a.entities = [4, 4, 1] ∧ b.entities = [4, 4, 1] := ⟨_, _, rfl, rfl, rfl, rfl, rfl, rfl⟩
  obtain ⟨a, b, ha, hb, hcella, hcellb, hentitiesa, hentitiesb⟩ := hresolved
  have hcell : ∀ e ∈ [a, b], e.cell = .product (.simple .interval) (.simple .interval) := by
    simp [hcella, hcellb]
  obtain ⟨hlists, -, hmix, -⟩ := entities_on_cell (by simp) (by simpa using ⟨⟨_, _, ha⟩, ⟨_, _, hb⟩⟩) hcell
  have hlistsa : a.ListsFacets := (hlists a (by simp)).mp (hentitiesa.trans (by decide))
  have hlistsb : b.ListsFacets := (hlists b (by simp)).mp (hentitiesb.trans (by decide))
  exact ⟨a, b, ha, hb, hlistsa, hlistsb, hmix (by simp [hlistsa, hlistsb])⟩

/-- The single value lists no sides, so it cannot be summed with the product. -/
theorem squareMidpoint_entities : ∃ a b : Element Float,
    Resolve.answerAfter [] midpointProduct = .ok a ∧ Resolve.answerAfter [] squareMidpoint = .ok b ∧
      a.cell = b.cell ∧ a.entities = [4, 4, 1] ∧ b.entities = [4, 0, 1] ∧
      mix [a, b] = .error (.incompatibleElements (.entityStructures "mixed element")) :=
  ⟨_, _, rfl, rfl, rfl, rfl, rfl, rfl⟩

end Element
end Variational
