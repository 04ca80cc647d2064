import Variational.Proofs.TableShapes

/-! Parts one after the other. A direct sum of elements and a sum of two spaces have the basis functions of
their parts, numbered one part after the other. Their tables and the dofs on their entities are made
separately from those of the parts, and both follow this numbering. -/
namespace Variational

namespace PolynomialElement

variable {α : Type} [Scalar α]

theorem length_tabulate (e : PolynomialElement α) {derivative : List ℕ} {points : List (List α)}
    {table : Table α} (h : e.tabulate derivative points = .ok table) : table.length = e.dimension := by
  simp only [tabulate, Result.bind_eq_ok, Result.pure_eq_ok] at h
  obtain ⟨values, -, rfl⟩ := h
  exact List.length_map _

theorem Shaped.fullRows {e : PolynomialElement α} (he : e.Shaped) {derivative : List ℕ}
    {points : List (List α)} {table : Table α} (h : e.tabulate derivative points = .ok table) :
    ∀ row ∈ table, row.length = e.valueSize := by
  simp only [tabulate, Result.bind_eq_ok, Result.pure_eq_ok] at h
  obtain ⟨values, -, rfl⟩ := h
  refine List.forall_mem_map.mpr fun dof hdof => ?_
  rw [List.length_map, he.components dof hdof]

end PolynomialElement

namespace Element

variable {α : Type} [Scalar α]

/-- The dofs of an element on an entity of its cell. -/
def dofsOn (e : Element α) (dim entity : ℕ) : List ℕ := EntityDofs.on e.layout.entityDofs dim entity

/-- How much all parts before part `j` have together. -/
def before (size : Element α → ℕ) (parts : List (Element α)) (j : ℕ) : ℕ := ((parts.take j).map size).sum

/-- With the parts one after the other, basis function `k` is function `l` of part `j`. -/
structure Decodes (parts : List (Element α)) (k j : ℕ) (part : Element α) (l : ℕ) : Prop where
  get : parts[j]? = some part
  lt : l < part.dimension
  eq : k = before dimension parts j + l

section Decoding

theorem exists_decodes {parts : List (Element α)} {k : ℕ} (h : k < (parts.map dimension).sum) :
    ∃ j part l, Decodes parts k j part l := by
  induction parts generalizing k with
  | nil => simp at h
  | cons e es ih =>
    rw [List.map_cons, List.sum_cons] at h
    by_cases hk : k < e.dimension
    · exact ⟨0, e, k, rfl, hk, by simp [before]⟩
    · obtain ⟨j, part, l, hget, hlt, heq⟩ := ih (k := k - e.dimension) (by omega)
      refine ⟨j + 1, part, l, by simpa using hget, hlt, ?_⟩
      simp only [before, List.take_succ_cons, List.map_cons, List.sum_cons] at heq ⊢
      omega

theorem Decodes.cons_zero {e part : Element α} {es : List (Element α)} {k l : ℕ}
    (h : Decodes (e :: es) k 0 part l) : part = e ∧ k = l ∧ l < e.dimension := by
  obtain rfl : e = part := by simpa using h.get
  exact ⟨rfl, by simpa [before] using h.eq, h.lt⟩

theorem Decodes.cons_succ {e part : Element α} {es : List (Element α)} {k j l : ℕ}
    (h : Decodes (e :: es) k (j + 1) part l) :
    ∃ k', k = e.dimension + k' ∧ Decodes es k' j part l := by
  refine ⟨before dimension es j + l, ?_, by simpa using h.get, h.lt, rfl⟩
  simp only [h.eq, before, List.take_succ_cons, List.map_cons, List.sum_cons]
  omega

/-- A basis function belongs to one part. -/
theorem Decodes.unique {parts : List (Element α)} {k j j' l l' : ℕ} {part part' : Element α}
    (h : Decodes parts k j part l) (h' : Decodes parts k j' part' l') : j = j' ∧ l = l' := by
  induction parts generalizing k j j' with
  | nil => cases h.get
  | cons e es ih =>
    cases j with
    | zero =>
      obtain ⟨-, rfl, hlt⟩ := h.cons_zero
      cases j' with
      | zero => exact ⟨rfl, h'.cons_zero.2.1⟩
      | succ j' =>
        obtain ⟨k', hk', -⟩ := h'.cons_succ
        omega
    | succ j =>
      obtain ⟨k', rfl, hrest⟩ := h.cons_succ
      cases j' with
      | zero =>
        obtain ⟨-, heq, hlt⟩ := h'.cons_zero
        omega
      | succ j' =>
        obtain ⟨k'', hk'', hrest'⟩ := h'.cons_succ
        obtain rfl : k' = k'' := by omega
        obtain ⟨rfl, rfl⟩ := ih hrest hrest'
        exact ⟨rfl, rfl⟩

end Decoding

/-- The row is the given one from `offset` on, among `size` components, the others zero. -/
def Placed (numPoints offset size : ℕ) (row placed : List (List α)) : Prop :=
  let zero := List.replicate numPoints (0 : α)
  offset + row.length ≤ size ∧
    placed = List.replicate offset zero ++ row ++ List.replicate (size - offset - row.length) zero

theorem placed_of_placeRow {numPoints offset size : ℕ} {row placed : List (List α)}
    (h : placeRow numPoints offset size row = .ok placed) : Placed numPoints offset size row placed := by
  simp only [placeRow] at h
  split_ifs at h with hfit
  exact ⟨hfit, (Except.ok.inj h).symm⟩

theorem Placed.length {numPoints offset size : ℕ} {row placed : List (List α)}
    (h : Placed numPoints offset size row placed) : placed.length = size := by
  obtain ⟨hfit, rfl⟩ := h
  simp only [List.length_append, List.length_replicate]
  omega

/-- The products of the components of two values, of which one has a single component. -/
def componentProducts (ra rb : List (List α)) : List (List α) :=
  ra.flatMap fun u => rb.map fun v => List.zipWith (· * ·) u v

/-- The element attaches none but its own dofs to entities, and its rows have all its components. -/
structure Proper (e : Element α) : Prop where
  dofs {dim entity l : ℕ} : l ∈ e.dofsOn dim entity → l < e.dimension
  rows {derivative : List ℕ} {points : List (List α)} {table : Table α} :
    e.tabulate derivative points = .ok table → ∀ row ∈ table, row.length = e.valueSize

section Rows

theorem dimension_mixed (parts : List (Element α)) :
    (mixed parts).dimension = (parts.map dimension).sum := by
  change ((layouts parts).map (·.dimension)).foldr (· + ·) 0 = _
  rw [layouts_eq_map, List.map_map]
  rfl

theorem dimension_product (a b : Element α) (w : Option Wrapping) :
    (product a b w).dimension = a.dimension * b.dimension := by
  cases w <;> rfl

/-- The products of rows stand in the table with those of the second factor fastest. -/
theorem product_ok {a b : Element α} {w : Option Wrapping} {derivative : List ℕ}
    {points : List (List α)} {table : Table α}
    (h : (product a b w).tabulate derivative points = .ok table) :
    ∃ ta tb, a.tabulate (derivative.take a.cell.dim) (points.map (·.take a.cell.dim)) = .ok ta ∧
      b.tabulate (derivative.drop a.cell.dim) (points.map (·.drop a.cell.dim)) = .ok tb ∧
      (ta.flatMap fun ra => tb.map fun rb => (ra, rb)).mapM (fun x =>
        multiplyRows points.length (product a b w).valueSize (w.map (·.component)) x.1 x.2) =
          .ok table := by
  rw [tabulate] at h
  split at h
  · cases h
  split at h
  · cases h
  simp only [Result.bind_eq_ok] at h
  obtain ⟨ta, hta, tb, htb, h⟩ := h
  exact ⟨ta, tb, hta, htb, h⟩

mutual

/-- A table has a row for each basis function. -/
theorem length_tabulate : ∀ (e : Element α) {derivative : List ℕ} {points : List (List α)}
    {table : Table α}, e.tabulate derivative points = .ok table → table.length = e.dimension
  | polynomial e, _, _, _, h => e.length_tabulate h
  | reals e, _, _, _, h => e.length_tabulate h
  | time e, _, _, _, h => e.length_tabulate h
  | quadrature .., _, _, _, h => ((tabulateNodes_safe _ _ _).of_eq_ok h).rows
  | mixed parts, _, _, _, h => by
    rw [tabulate, Result.bind_eq_ok] at h
    obtain ⟨tables, htables, h⟩ := h
    rw [dimension_mixed]
    exact length_stack parts htables h
  | restricted e indices _, _, _, _, h => by
    rw [tabulate, Result.bind_eq_ok] at h
    obtain ⟨_, -, h⟩ := h
    exact Result.length_of_mapM h
  | enriched a b, _, _, _, h => by
    simp only [tabulate, Result.bind_eq_ok, Result.pure_eq_ok] at h
    obtain ⟨first, hfirst, second, hsecond, rfl⟩ := h
    rw [List.length_append, length_tabulate a hfirst, length_tabulate b hsecond]
    rfl
  | product a b w, _, _, _, h => by
    obtain ⟨ta, tb, hta, htb, h⟩ := product_ok h
    rw [Result.length_of_mapM h, MultiIndex.length_flatMap_of_length _ tb.length (fun _ => List.length_map _),
      length_tabulate a hta, length_tabulate b htb, dimension_product]

theorem length_stack : ∀ (es : List (Element α)) {derivative : List ℕ} {points : List (List α)}
    {tables : List (Table α × ℕ)} {numPoints size offset : ℕ} {table : Table α},
    tabulateAll derivative points es = .ok tables → stack numPoints size offset tables = .ok table →
      table.length = (es.map dimension).sum
  | [], _, _, _, _, _, _, _, htables, h => by
    obtain rfl := Except.ok.inj htables
    obtain rfl := Except.ok.inj h
    rfl
  | e :: es, _, _, _, _, _, _, _, htables, h => by
    simp only [tabulateAll, Result.bind_eq_ok, Result.pure_eq_ok] at htables
    obtain ⟨rows, hrows, tables, htables, rfl⟩ := htables
    simp only [stack, Result.bind_eq_ok, Result.pure_eq_ok] at h
    obtain ⟨first, hfirst, rest, hrest, rfl⟩ := h
    rw [List.length_append, Result.length_of_mapM hfirst, length_tabulate e hrows,
      length_stack es htables hrest, List.map_cons, List.sum_cons]

end

end Rows

/-- The element numbers the basis functions of the parts one part after the other, in its tables and on the
entities of its cell. What becomes of a row of part `j` is up to `place`. -/
structure Stacks (parts : List (Element α)) (place : (numPoints j : ℕ) → (row result : List (List α)) → Prop)
    (e : Element α) : Prop where
  decode : ∀ k < e.dimension, ∃ j part l, Decodes parts k j part l
  rows {derivative : List ℕ} {points : List (List α)} {table : Table α} :
    e.tabulate derivative points = .ok table → table.length = e.dimension ∧
      ∀ k j part l, Decodes parts k j part l → ∃ rows row result,
        part.tabulate derivative points = .ok rows ∧ rows[l]? = some row ∧ table[k]? = some result ∧
          place points.length j row result
  attached {k j l : ℕ} {part : Element α} : Decodes parts k j part l →
    ∀ dim entity, l ∈ part.dofsOn dim entity → k ∈ e.dofsOn dim entity
  attached_iff {k j l : ℕ} {part : Element α} : (∀ part ∈ parts, part.Proper) →
    Decodes parts k j part l → ∀ dim entity, k ∈ e.dofsOn dim entity ↔ l ∈ part.dofsOn dim entity

section Stacking

/-- The rows of all parts, one part after the other. -/
theorem stack_rows {es : List (Element α)} {derivative : List ℕ} {points : List (List α)}
    {tables : List (Table α × ℕ)} {numPoints size offset : ℕ} {table : Table α}
    (htables : tabulateAll derivative points es = .ok tables)
    (h : stack numPoints size offset tables = .ok table) {k j l : ℕ} {part : Element α}
    (hk : Decodes es k j part l) : ∃ rows row result, part.tabulate derivative points = .ok rows ∧
      rows[l]? = some row ∧ table[k]? = some result ∧
        Placed numPoints (offset + before valueSize es j) size row result := by
  induction es generalizing tables offset table k j with
  | nil => cases hk.get
  | cons e es ih =>
    simp only [tabulateAll, Result.bind_eq_ok, Result.pure_eq_ok] at htables
    obtain ⟨rows, hrows, tables, htables, rfl⟩ := htables
    simp only [stack, Result.bind_eq_ok, Result.pure_eq_ok] at h
    obtain ⟨first, hfirst, rest, hrest, rfl⟩ := h
    have hlength : first.length = e.dimension :=
      (Result.length_of_mapM hfirst).trans (length_tabulate e hrows)
    cases j with
    | zero =>
      obtain ⟨rfl, rfl, hlt⟩ := hk.cons_zero
      have hl : k < rows.length := by rwa [length_tabulate part hrows]
      obtain ⟨result, hresult, hplaced⟩ :=
        Result.getElem?_of_mapM hfirst (List.getElem?_eq_getElem hl)
      refine ⟨rows, rows[k], result, hrows, List.getElem?_eq_getElem hl, ?_, placed_of_placeRow hplaced⟩
      rw [List.getElem?_append_left (by omega), hresult]
    | succ j =>
      obtain ⟨k', rfl, hk'⟩ := hk.cons_succ
      obtain ⟨rows', row, result, hrows', hrow, hresult, hplaced⟩ := ih htables hrest hk'
      refine ⟨rows', row, result, hrows', hrow, ?_, ?_⟩
      · rw [List.getElem?_append_right (by omega), hlength, Nat.add_sub_cancel_left, hresult]
      · simpa only [before, List.take_succ_cons, List.map_cons, List.sum_cons, Nat.add_assoc] using hplaced

/-- Number `k` is a dof of one of the parts on the entity, behind those of the parts before. -/
def ComesFrom (parts : List (Element α)) (dim entity k : ℕ) : Prop :=
  ∃ j part l, parts[j]? = some part ∧ l ∈ part.dofsOn dim entity ∧ k = before dimension parts j + l

theorem comesFrom_cons {e : Element α} {es : List (Element α)} {dim entity k : ℕ} :
    ComesFrom (e :: es) dim entity k ↔
      k ∈ e.dofsOn dim entity ∨ ∃ k', k = e.dimension + k' ∧ ComesFrom es dim entity k' := by
  constructor
  · rintro ⟨j, part, l, hpart, hl, rfl⟩
    cases j with
    | zero =>
      obtain rfl : e = part := by simpa using hpart
      exact .inl (by simpa [before] using hl)
    | succ j =>
      refine .inr ⟨before dimension es j + l, ?_, j, part, l, by simpa using hpart, hl, rfl⟩
      simp only [before, List.take_succ_cons, List.map_cons, List.sum_cons, Nat.add_assoc]
  · rintro (hk | ⟨k', rfl, j, part, l, hpart, hl, rfl⟩)
    · exact ⟨0, e, k, rfl, hk, by simp [before]⟩
    · refine ⟨j + 1, part, l, by simpa using hpart, hl, ?_⟩
      simp only [before, List.take_succ_cons, List.map_cons, List.sum_cons, Nat.add_assoc]

theorem not_comesFrom_nil {dim entity k : ℕ} : ¬ ComesFrom ([] : List (Element α)) dim entity k := by
  rintro ⟨j, part, l, hpart, -⟩
  cases hpart

theorem mem_on_merge {dofs : EntityDofs} {e : Element α}
    (h : EntityDofs.counts dofs = EntityDofs.counts e.layout.entityDofs) (n dim entity k : ℕ) :
    k ∈ EntityDofs.on (EntityDofs.merge n dofs e.layout.entityDofs) dim entity ↔
      k ∈ EntityDofs.on dofs dim entity ∨ ∃ l ∈ e.dofsOn dim entity, k = n + l := by
  rw [EntityDofs.on_merge n h, List.mem_append, List.mem_map]
  simp only [dofsOn, Nat.add_comm n, eq_comm (a := k)]

/-- Merging the dofs of the parts puts them behind those that are there. -/
theorem mem_on_mergeAll {counts : List ℕ} {es : List (Element α)}
    (hes : ∀ e ∈ es, EntityDofs.counts e.layout.entityDofs = counts) {dofs : EntityDofs}
    (hdofs : EntityDofs.counts dofs = counts) (n dim entity k : ℕ) :
    k ∈ EntityDofs.on (Layout.mergeAll n dofs (layouts es)) dim entity ↔
      k ∈ EntityDofs.on dofs dim entity ∨ ∃ k', k = n + k' ∧ ComesFrom es dim entity k' := by
  induction es generalizing dofs n with
  | nil => simp [layouts, Layout.mergeAll, not_comesFrom_nil]
  | cons e es ih =>
    rw [List.forall_mem_cons] at hes
    have hsame := hdofs.trans hes.1.symm
    rw [layouts, Layout.mergeAll, ih hes.2 ((EntityDofs.counts_merge n hsame).trans hdofs),
      mem_on_merge hsame, or_assoc]
    refine or_congr_right ?_
    simp only [comesFrom_cons]
    constructor
    · rintro (⟨l, hl, rfl⟩ | ⟨k', rfl, hk'⟩)
      · exact ⟨l, rfl, .inl hl⟩
      · exact ⟨e.dimension + k', Nat.add_assoc n e.dimension k', .inr ⟨k', rfl, hk'⟩⟩
    · rintro ⟨l, rfl, hl | ⟨k', rfl, hk'⟩⟩
      · exact .inl ⟨l, hl, rfl⟩
      · exact .inr ⟨k', (Nat.add_assoc n e.dimension k').symm, hk'⟩

theorem mem_dofsOn_mix {parts : List (Element α)} {e : Element α} (h : mix parts = .ok e)
    (dim entity k : ℕ) : k ∈ e.dofsOn dim entity ↔ ComesFrom parts dim entity k := by
  obtain ⟨first, rest, rfl, hsame⟩ := mix_compatible h
  obtain rfl := mix_ok h
  rw [comesFrom_cons]
  exact mem_on_mergeAll (fun x hx => (hsame x hx).2) rfl first.dimension dim entity k

theorem mem_dofsOn_enrich {a b e : Element α} (h : enrich a b = .ok e) (dim entity k : ℕ) :
    k ∈ e.dofsOn dim entity ↔ ComesFrom [a, b] dim entity k := by
  obtain ⟨-, -, -, hcounts⟩ := enrich_compatible h
  obtain rfl := enrich_ok h
  simp only [comesFrom_cons, not_comesFrom_nil, and_false, exists_false, or_false]
  refine (mem_on_merge hcounts a.dimension dim entity k).trans (or_congr_right ?_)
  exact exists_congr fun l => and_comm

/-- A dof that comes from the parts comes from the part that it is decoded to. -/
theorem Decodes.comesFrom_iff {parts : List (Element α)} (hparts : ∀ part ∈ parts, part.Proper)
    {k j l : ℕ} {part : Element α} (h : Decodes parts k j part l) (dim entity : ℕ) :
    ComesFrom parts dim entity k ↔ l ∈ part.dofsOn dim entity := by
  constructor
  · rintro ⟨j', part', l', hpart', hl', hk⟩
    have hproper := hparts part' (List.mem_of_getElem? hpart')
    obtain ⟨rfl, rfl⟩ := h.unique ⟨hpart', hproper.dofs hl', hk⟩
    rw [h.get, Option.some.injEq] at hpart'
    exact hpart' ▸ hl'
  · intro hl
    exact ⟨j, part, l, h.get, hl, h.eq⟩

/-- The numbering on entities follows from where the dofs come from, so what is left are the rows. -/
theorem Stacks.of_rows {parts : List (Element α)}
    {place : (numPoints j : ℕ) → (row result : List (List α)) → Prop} {e : Element α}
    (hdimension : e.dimension = (parts.map dimension).sum)
    (hdofs : ∀ dim entity k, k ∈ e.dofsOn dim entity ↔ ComesFrom parts dim entity k)
    (hrows : ∀ {derivative : List ℕ} {points : List (List α)} {table : Table α},
      e.tabulate derivative points = .ok table → ∀ k j part l, Decodes parts k j part l →
        ∃ rows row result, part.tabulate derivative points = .ok rows ∧ rows[l]? = some row ∧
          table[k]? = some result ∧ place points.length j row result) :
    Stacks parts place e where
  decode _ hk := exists_decodes (hdimension ▸ hk)
  rows h := ⟨length_tabulate e h, hrows h⟩
  attached hk dim entity hl := (hdofs dim entity _).mpr ⟨_, _, _, hk.get, hl, hk.eq⟩
  attached_iff hparts hk dim entity := (hdofs dim entity _).trans (hk.comesFrom_iff hparts dim entity)

theorem mix_stacks {parts : List (Element α)} {e : Element α} (h : mix parts = .ok e) :
    Stacks parts (fun numPoints j => Placed numPoints (before valueSize parts j) e.valueSize) e := by
  have hdofs := mem_dofsOn_mix h
  obtain rfl := mix_ok h
  refine .of_rows (dimension_mixed parts) hdofs fun htable k j part l hk => ?_
  rw [tabulate, Result.bind_eq_ok] at htable
  obtain ⟨tables, htables, htable⟩ := htable
  have hrow := stack_rows htables htable hk
  rwa [Nat.zero_add] at hrow

theorem enrich_stacks {a b e : Element α} (h : enrich a b = .ok e) :
    Stacks [a, b] (fun _ _ row result => result = row) e := by
  have hdofs := mem_dofsOn_enrich h
  obtain rfl := enrich_ok h
  refine .of_rows rfl hdofs fun htable k j part l hk => ?_
  simp only [tabulate, Result.bind_eq_ok, Result.pure_eq_ok] at htable
  obtain ⟨first, hfirst, second, hsecond, rfl⟩ := htable
  have hlength := length_tabulate a hfirst
  cases j with
  | zero =>
    obtain ⟨rfl, rfl, hlt⟩ := hk.cons_zero
    have hk' : k < first.length := by omega
    refine ⟨first, first[k], first[k], hfirst, List.getElem?_eq_getElem hk', ?_, rfl⟩
    rw [List.getElem?_append_left hk', List.getElem?_eq_getElem hk']
  | succ j =>
    obtain ⟨k', rfl, hk'⟩ := hk.cons_succ
    cases j with
    | zero =>
      obtain ⟨rfl, rfl, hlt⟩ := hk'.cons_zero
      have hlt' : k' < second.length := by rwa [length_tabulate part hsecond]
      refine ⟨second, second[k'], second[k'], hsecond, List.getElem?_eq_getElem hlt', ?_, rfl⟩
      rw [List.getElem?_append_right (by omega), hlength, Nat.add_sub_cancel_left,
        List.getElem?_eq_getElem hlt']
    | succ j => cases hk'.get

end Stacking

end Element
end Variational
