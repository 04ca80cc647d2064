import Variational.Proofs.LagrangeElements
import Variational.Proofs.ReferenceValues
import Variational.Proofs.StackedNumbering

/-! One numbering of the basis functions of a composite element, in its tables and on its entities. The
functions of a product are numbered with the second factor fastest, on products of entities; those of a
restriction by their places in its list; and those of sums one part after the other. -/
namespace Variational

namespace EntityDofs

/-- The number of a product of entities among those of its dimension. -/
def productEntity (e f : EntityDofs) (da x db y : ℕ) : ℕ :=
  ((List.range da).map fun d => (e.getD d []).length * (f.getD (da + db - d) []).length).sum +
    (x * (f.getD db []).length + y)

/-- What a prefix of a list gives comes before what the next element gives. -/
theorem getElem?_flatMap {β γ : Type} (f : β → List γ) {xs : List β} {n k : ℕ} {x : β}
    (hx : xs[n]? = some x) (hk : k < (f x).length) :
    (xs.flatMap f)[((xs.take n).map fun x => (f x).length).sum + k]? = (f x)[k]? := by
  induction xs generalizing n with
  | nil => simp at hx
  | cons y ys ih =>
    rw [List.flatMap_cons]
    cases n with
    | zero =>
      simp only [List.getElem?_cons_zero, Option.some.injEq] at hx
      subst hx
      simp [List.getElem?_append_left hk]
    | succ n =>
      rw [List.take_succ_cons, List.map_cons, List.sum_cons, Nat.add_assoc,
        List.getElem?_append_right (Nat.le_add_right _ _), Nat.add_sub_cancel_left]
      exact ih (by simpa using hx)

theorem getElem?_on {e : EntityDofs} {dim entity : ℕ} (h : entity < (e.getD dim []).length) :
    (e.getD dim [])[entity]? = some (on e dim entity) := by
  rw [on, List.getD_eq_getElem _ _ h, List.getElem?_eq_getElem h]

theorem lt_of_mem_on {e : EntityDofs} {dim entity d : ℕ} (h : d ∈ on e dim entity) :
    entity < (e.getD dim []).length := by
  by_contra hge
  rw [on, List.getD_eq_default _ _ (not_lt.mp hge)] at h
  cases h

/-- A product of entities has the pairs of their dofs. -/
theorem on_product (n : ℕ) {e f : EntityDofs} {da x db y : ℕ} (hx : x < (e.getD da []).length)
    (hy : y < (f.getD db []).length) :
    on (product n e f) (da + db) (productEntity e f da x db y) = pairs n (on e da x) (on f db y) := by
  have hda : da < e.length := by
    by_contra h
    simp [List.getElem?_eq_none (not_lt.mp h)] at hx
  have hdb : db < f.length := by
    by_contra h
    simp [List.getElem?_eq_none (not_lt.mp h)] at hy
  have hentity : ((e.getD da []).flatMap fun as => (f.getD db []).map (pairs n as))[
      x * (f.getD db []).length + y]? = some (pairs n (on e da x) (on f db y)) := by
    rw [MultiIndex.getElem?_flatMap_of_length (fun _ _ => List.length_map _) x hy, getElem?_on hx,
      Option.bind_some, List.getElem?_map, getElem?_on hy, Option.map_some]
  let level (d : ℕ) : List (List ℕ) := (e.getD d []).flatMap fun as =>
    if d ≤ da + db then (f.getD (da + db - d) []).map fun bs => pairs n as bs else []
  have hlevel : level da = (e.getD da []).flatMap fun as => (f.getD db []).map (pairs n as) := by
    simp only [level, if_pos (Nat.le_add_right da db), Nat.add_sub_cancel_left]
  have hlength : ∀ d ∈ List.range da, (level d).length =
      (e.getD d []).length * (f.getD (da + db - d) []).length := by
    intro d hd
    rw [List.mem_range] at hd
    refine MultiIndex.length_flatMap_of_length _ _ (fun as => ?_) _
    rw [if_pos (by omega), List.length_map]
  have hrange : (List.range e.length)[da]? = some da := by simp [hda]
  have hfind := getElem?_flatMap level hrange
    (k := x * (f.getD db []).length + y) (by
      rw [hlevel]
      exact (List.getElem?_eq_some_iff.mp hentity).1)
  rw [List.take_range, Nat.min_eq_left hda.le, List.map_congr_left hlength, hlevel, hentity] at hfind
  have hproduct : (product n e f).getD (da + db) [] = (List.range e.length).flatMap level := by
    rw [product, List.getD_eq_getElem?_getD, List.getElem?_map,
      List.getElem?_range (by omega)]
    rfl
  rw [on, hproduct, List.getD_eq_getElem?_getD]
  change (((List.range e.length).flatMap level)[_]?).getD [] = _
  rw [productEntity, hfind]
  rfl

theorem mem_pairs_of_mem {n i j : ℕ} {as bs : List ℕ} (hi : i ∈ as) (hj : j ∈ bs) :
    i * n + j ∈ pairs n as bs :=
  List.mem_flatMap.mpr ⟨i, hi, List.mem_map.mpr ⟨j, hj, rfl⟩⟩

/-- Pairs are told apart by their numbers. -/
theorem mem_pairs {n i j : ℕ} {as bs : List ℕ} (hj : j < n) (hbs : ∀ b ∈ bs, b < n) :
    i * n + j ∈ pairs n as bs ↔ i ∈ as ∧ j ∈ bs := by
  constructor
  · intro h
    simp only [pairs, List.mem_flatMap, List.mem_map] at h
    obtain ⟨a, ha, b, hb, h⟩ := h
    have hb' := hbs b hb
    have hdiv : a = i := by
      have hq := congrArg (· / n) h
      simpa [Nat.add_comm _ b, Nat.add_comm _ j, Nat.add_mul_div_right _ _ (by omega : 0 < n),
        Nat.div_eq_of_lt hb', Nat.div_eq_of_lt hj] using hq
    subst hdiv
    have hrest : b = j := by omega
    exact ⟨ha, hrest ▸ hb⟩
  · rintro ⟨hi, hj⟩
    exact mem_pairs_of_mem hi hj

end EntityDofs

namespace Element

variable {α : Type} [Scalar α]

/-- The element numbers the products of basis functions `i` and `j` of two others by `i * n + j`, where `n`
is the dimension of the second one, in its tables and on the products of entities. The factors are
differentiated and evaluated in their own coordinates; what becomes of the products of two rows is up to
`place`. -/
structure Multiplies (a b : Element α) (place : (numPoints : ℕ) → (row result : List (List α)) → Prop)
    (e : Element α) : Prop where
  decode : ∀ k < e.dimension, ∃ i < a.dimension, ∃ j < b.dimension, k = i * b.dimension + j
  rows {derivative : List ℕ} {points : List (List α)} {table : Table α} :
    e.tabulate derivative points = .ok table → table.length = e.dimension ∧
      ∃ ta tb, a.tabulate (derivative.take a.cell.dim) (points.map (·.take a.cell.dim)) = .ok ta ∧
        b.tabulate (derivative.drop a.cell.dim) (points.map (·.drop a.cell.dim)) = .ok tb ∧
        ∀ i < a.dimension, ∀ j < b.dimension, ∃ ra rb result, ta[i]? = some ra ∧ tb[j]? = some rb ∧
          table[i * b.dimension + j]? = some result ∧
          (ra.length = a.valueSize → rb.length = b.valueSize →
            place points.length (componentProducts ra rb) result)
  attached {i j da x db y : ℕ} : i ∈ a.dofsOn da x → j ∈ b.dofsOn db y →
    i * b.dimension + j ∈ e.dofsOn (da + db)
      (EntityDofs.productEntity a.layout.entityDofs b.layout.entityDofs da x db y)
  attached_iff {i j da x db y : ℕ} : b.Proper → j < b.dimension →
    x < (a.layout.entityDofs.getD da []).length → y < (b.layout.entityDofs.getD db []).length →
    (i * b.dimension + j ∈ e.dofsOn (da + db)
      (EntityDofs.productEntity a.layout.entityDofs b.layout.entityDofs da x db y) ↔
        i ∈ a.dofsOn da x ∧ j ∈ b.dofsOn db y)

section Multiplication

/-- Values that are set at places one after the other. -/
theorem foldl_set_zipIdx {β γ : Type} (f : β → γ) (xs : List β) (front rest : List γ)
    (h : xs.length ≤ rest.length) :
    (xs.zipIdx front.length).foldl (fun row x => row.set x.2 (f x.1)) (front ++ rest) =
      front ++ xs.map f ++ rest.drop xs.length := by
  induction xs generalizing front rest with
  | nil => simp
  | cons x xs ih =>
    cases rest with
    | nil => simp at h
    | cons y rest =>
      have hset : (front ++ y :: rest).set front.length (f x) = (front ++ [f x]) ++ rest := by simp
      have hnext := ih (front ++ [f x]) rest (by simpa using h)
      rw [List.length_append, List.length_singleton] at hnext
      rw [List.zipIdx_cons, List.foldl_cons, hset, hnext]
      simp

/-- With one component in one of the rows, the products stand in the order of the other. -/
theorem multiplyRows_scalar {numPoints size : ℕ} {ra rb result : List (List α)}
    (h : multiplyRows numPoints size none ra rb = .ok result)
    (hsize : (componentProducts ra rb).length = size) (hscalar : ra.length = 1 ∨ rb.length = 1) :
    result = componentProducts ra rb := by
  have hset (f : List α → List α) (xs : List (List α)) (hxs : xs.length = size) :
      (xs.zipIdx).foldl (fun row x => row.set x.2 (f x.1))
        (List.replicate size (List.replicate numPoints 0)) = xs.map f := by
    have hfold := foldl_set_zipIdx f xs [] (List.replicate size (List.replicate numPoints 0))
      (by simp [hxs])
    simpa [hxs] using hfold
  simp only [multiplyRows] at h
  split_ifs at h
  obtain rfl := Except.ok.inj h
  rcases hscalar with hra | hrb
  · obtain ⟨u, rfl⟩ := List.length_eq_one_iff.mp hra
    have hproducts : componentProducts [u] rb = rb.map (List.zipWith (· * ·) u) := by
      simp [componentProducts]
    rw [hproducts, ← hset _ rb (by rwa [hproducts, List.length_map] at hsize)]
    simp [List.foldl_map]
  · obtain ⟨v, rfl⟩ := List.length_eq_one_iff.mp hrb
    have hproducts : componentProducts ra [v] = ra.map (List.zipWith (· * ·) · v) :=
      List.map_eq_flatMap.symm
    rw [hproducts, ← hset _ ra (by rwa [hproducts, List.length_map] at hsize)]
    simp [List.foldl_flatMap]

/-- All products go to one component. -/
theorem multiplyRows_wrapped {numPoints size c : ℕ} {u v : List α} {result : List (List α)}
    (h : multiplyRows numPoints size (some c) [u] [v] = .ok result) :
    Placed numPoints c size (componentProducts [u] [v]) result := by
  simp only [multiplyRows] at h
  split_ifs at h with hlt
  obtain rfl := Except.ok.inj h
  have hc : c < size := by simpa using hlt
  have hsize : size = c + (1 + (size - c - 1)) := by omega
  refine ⟨by simpa [componentProducts] using hc, ?_⟩
  change (List.replicate size _).set c _ = _
  conv_lhs => rw [hsize, ← List.replicate_append_replicate, ← List.replicate_append_replicate]
  simp [componentProducts]

theorem product_multiplies {a b : Element α} {w : Option Wrapping}
    {place : (numPoints : ℕ) → (row result : List (List α)) → Prop}
    (hplace : ∀ {numPoints : ℕ} {ra rb result : List (List α)}, ra.length = a.valueSize →
      rb.length = b.valueSize → multiplyRows numPoints (product a b w).valueSize (w.map (·.component))
        ra rb = .ok result → place numPoints (componentProducts ra rb) result) :
    Multiplies a b place (product a b w) := by
  have hdofs : (product a b w).layout.entityDofs =
      EntityDofs.product b.dimension a.layout.entityDofs b.layout.entityDofs := by cases w <;> rfl
  refine ⟨fun k hk => ?_, fun {derivative points table} h => ?_, fun {i j da x db y} hi hj => ?_,
    fun {i j da x db y} hb hj hx hy => ?_⟩
  · rw [dimension_product] at hk
    have hpos : 0 < b.dimension := Nat.pos_of_mul_pos_left (Nat.zero_lt_of_lt hk)
    refine ⟨k / b.dimension, Nat.div_lt_of_lt_mul (by rwa [Nat.mul_comm]), k % b.dimension,
      Nat.mod_lt _ hpos, (Nat.div_add_mod' k b.dimension).symm⟩
  · refine ⟨length_tabulate _ h, ?_⟩
    obtain ⟨ta, tb, hta, htb, h⟩ := product_ok h
    refine ⟨ta, tb, hta, htb, fun i hi j hj => ?_⟩
    rw [← length_tabulate a hta] at hi
    have hj' : j < tb.length := by rwa [length_tabulate b htb]
    have hpair : (ta.flatMap fun ra => tb.map fun rb => (ra, rb))[i * b.dimension + j]? =
        some (ta[i], tb[j]) := by
      rw [← length_tabulate b htb, MultiIndex.getElem?_flatMap_of_length (fun _ _ => List.length_map _) i hj',
        List.getElem?_eq_getElem hi, Option.bind_some, List.getElem?_map, List.getElem?_eq_getElem hj', Option.map_some]
    obtain ⟨result, hresult, hproduct⟩ := Result.getElem?_of_mapM h hpair
    exact ⟨ta[i], tb[j], result, List.getElem?_eq_getElem hi, List.getElem?_eq_getElem hj', hresult,
      fun hra hrb => hplace hra hrb hproduct⟩
  · rw [dofsOn, hdofs, EntityDofs.on_product _ (EntityDofs.lt_of_mem_on hi) (EntityDofs.lt_of_mem_on hj)]
    exact EntityDofs.mem_pairs_of_mem hi hj
  · rw [dofsOn, hdofs, EntityDofs.on_product _ hx hy]
    exact EntityDofs.mem_pairs hj fun _ => hb.dofs

theorem valueSize_tensor {a b : Element α} (h : a.valueSize = 1 ∨ b.valueSize = 1) :
    (product a b none).valueSize = a.valueSize * b.valueSize := by
  change (Layout.productShape a.layout b.layout).foldr (· * ·) 1 = a.layout.valueSize * b.layout.valueSize
  unfold Layout.productShape
  split_ifs with ha hb
  · rw [ha, hb]
    rfl
  · rw [ha, Nat.one_mul]
    rfl
  · have hb : b.layout.valueSize = 1 := h.resolve_left ha
    rw [hb, Nat.mul_one]
    rfl

theorem tensor_multiplies {a b e : Element α} (h : tensor a b = .ok e) :
    Multiplies a b (fun _ row result => result = row) e := by
  have hscalar : a.valueSize = 1 ∨ b.valueSize = 1 := tensor_scalar h
  obtain rfl := tensor_ok h
  refine product_multiplies fun {_ ra rb _} hra hrb hrow => ?_
  refine multiplyRows_scalar hrow ?_ (hra ▸ hrb ▸ hscalar)
  rw [valueSize_tensor hscalar, componentProducts,
    MultiIndex.length_flatMap_of_length _ rb.length (fun _ => List.length_map _), hra, hrb]

/-- Only products of scalars are wrapped. -/
theorem wrap_scalar {space : SobolevSpace} {a b e : Element α}
    (h : wrap space (product a b none) = .ok e) : a.valueSize = 1 ∧ b.valueSize = 1 := by
  simp only [wrap] at h
  split at h
  · cases h
  rename_i hshape
  rw [not_or, not_not] at hshape
  have hnil : Layout.productShape a.layout b.layout = [] := hshape.1
  unfold Layout.productShape at hnil
  split_ifs at hnil with ha hb
  · exact ⟨ha, hb⟩
  · exact absurd (by rw [Layout.valueSize, hnil]; rfl) hb
  · exact absurd (by rw [Layout.valueSize, hnil]; rfl) ha

theorem wrap_multiplies {space : SobolevSpace} {a b e : Element α}
    (h : wrap space (product a b none) = .ok e) :
    ∃ c < e.valueSize, wrappingComponent? space a.layout b.layout = some c ∧
      Multiplies a b (fun numPoints => Placed numPoints c e.valueSize) e := by
  obtain ⟨ha, hb⟩ := wrap_scalar h
  obtain ⟨_, _, c, hproduct, hc, rfl⟩ := wrap_ok h
  obtain ⟨rfl, rfl, -⟩ := product.inj hproduct
  refine ⟨c, ?_, hc, product_multiplies fun hra hrb hrow => ?_⟩
  · change c < (a.layout.cell.dim + b.layout.cell.dim) * 1
    rw [Nat.mul_one]
    exact wrappingComponent?_lt hc
  · obtain ⟨u, rfl⟩ := List.length_eq_one_iff.mp (hra.trans ha)
    obtain ⟨v, rfl⟩ := List.length_eq_one_iff.mp (hrb.trans hb)
    exact multiplyRows_wrapped hrow

end Multiplication

/-- The element numbers some of the basis functions of another one by their places in a list. -/
structure Selects (base : Element α) (indices : List ℕ) (e : Element α) : Prop where
  decode : ∀ k < e.dimension, ∃ l, indices[k]? = some l
  rows {derivative : List ℕ} {points : List (List α)} {table : Table α} :
    e.tabulate derivative points = .ok table → table.length = e.dimension ∧
      ∃ rows, base.tabulate derivative points = .ok rows ∧
        ∀ k l : ℕ, indices[k]? = some l → ∃ row, rows[l]? = some row ∧ table[k]? = some row
  attached_iff {k l : ℕ} : indices[k]? = some l →
    ∀ dim entity, k ∈ e.dofsOn dim entity ↔ l ∈ base.dofsOn dim entity

theorem restricted_selects {base : Element α} {indices : List ℕ} (hnodup : indices.Nodup)
    (domain : Domain) : Selects base indices (restricted base indices domain) := by
  refine ⟨fun k hk => ?_, fun {derivative points table} h => ?_, fun {k l} hk dim entity => ?_⟩
  · exact ⟨_, List.getElem?_eq_getElem hk⟩
  · refine ⟨length_tabulate _ h, ?_⟩
    rw [tabulate, Result.bind_eq_ok] at h
    obtain ⟨rows, hrows, h⟩ := h
    refine ⟨rows, hrows, fun k l hk => ?_⟩
    obtain ⟨row, hrow, hl⟩ := Result.getElem?_of_mapM h hk
    exact ⟨row, Result.inRange_eq_ok.mp hl, hrow⟩
  · have hplace (d : ℕ) : indices.idxOf? d = some k ↔ d = l := by
      obtain ⟨hlt, rfl⟩ := List.getElem?_eq_some_iff.mp hk
      rw [List.idxOf?_eq_some_iff]
      constructor
      · rintro ⟨_, rfl, -⟩
        rfl
      · rintro rfl
        refine ⟨hlt, rfl, fun j hj heq => hj.ne ?_⟩
        exact hnodup.getElem_inj_iff.mp heq
    rw [dofsOn, layout]
    change k ∈ EntityDofs.on (EntityDofs.keep indices base.layout.entityDofs) dim entity ↔ _
    simp only [EntityDofs.on_keep, List.mem_filterMap, hplace, exists_eq_right]
    rfl

theorem restrictFamily_selects {family : String} {cell : Cell} {degree : Option ℕ} {domain : Domain}
    {e : Element α} (h : restrictFamily family cell degree domain = .ok e) :
    ∃ base indices, ofFamily family cell degree = .ok base ∧
      selectIndices base.layout domain = .ok indices ∧ Selects base indices e := by
  obtain ⟨base, indices, hbase, hindices, rfl⟩ := restrictFamily_ok h
  have hnodup : indices.Nodup :=
    ((ofFamily_partitioned hbase).numbers.nodup_iff.mpr List.nodup_range).sublist
      (selectIndices_sublist hindices)
  exact ⟨base, indices, hbase, hindices, restricted_selects hnodup domain⟩

section Resolved

theorem length_multiplyRows {numPoints size : ℕ} {component : Option ℕ} {ra rb row : List (List α)}
    (h : multiplyRows numPoints size component ra rb = .ok row) : row.length = size := by
  simp only [multiplyRows] at h
  split_ifs at h
  obtain rfl := Except.ok.inj h
  refine List.foldlRecOn _ _ (motive := fun row : List (List α) => row.length = size) (by simp) ?_
  intro row hrow x _
  rw [List.length_set, hrow]

theorem length_of_mem_stack {tables : List (Table α × ℕ)} {numPoints size offset : ℕ} {table : Table α}
    (h : stack numPoints size offset tables = .ok table) : ∀ row ∈ table, row.length = size := by
  induction tables generalizing offset table with
  | nil =>
    obtain rfl := Except.ok.inj h
    simp
  | cons x tables ih =>
    simp only [stack, Result.bind_eq_ok, Result.pure_eq_ok] at h
    obtain ⟨first, hfirst, rest, hrest, rfl⟩ := h
    refine List.forall_mem_append.mpr ⟨fun row hrow => ?_, ih hrest⟩
    obtain ⟨_, -, hplaced⟩ := Result.exists_of_forall₂ (Result.mapM_eq_ok.mp hfirst).flip hrow
    exact (placed_of_placeRow hplaced).length

/-- The rows of all tables have all components of the element. -/
def FullRows (e : Element α) : Prop :=
  ∀ (derivative : List ℕ) (points : List (List α)) (table : Table α),
    e.tabulate derivative points = .ok table → ∀ row ∈ table, row.length = e.valueSize

theorem fullRows_product (a b : Element α) (w : Option Wrapping) : (product a b w).FullRows := by
  intro derivative points table h row hrow
  obtain ⟨ta, tb, -, -, h⟩ := product_ok h
  obtain ⟨_, -, hproduct⟩ := Result.exists_of_forall₂ (Result.mapM_eq_ok.mp h).flip hrow
  exact length_multiplyRows hproduct

theorem closed_fullRows : Closed fun e : Element α => e.FullRows where
  family h derivative points table htable := by
    cases (ofFamily_ok h).2 with
    | reals _ _ hx => exact (PolynomialElement.ofFamily_shaped hx).fullRows htable
    | time _ hx => exact (TimeFamily.create_shaped hx).fullRows htable
    | quadrature => exact ((tabulateNodes_safe _ _ _).of_eq_ok htable).components
    | polynomial _ hx => exact (PolynomialElement.ofFamily_shaped hx).fullRows htable
  restrict he _ derivative points table htable row hrow := by
    rw [tabulate, Result.bind_eq_ok] at htable
    obtain ⟨rows, hrows, htable⟩ := htable
    obtain ⟨i, -, hi⟩ := Result.exists_of_forall₂ (Result.mapM_eq_ok.mp htable).flip hrow
    exact he derivative points rows hrows row (List.mem_of_getElem? (Result.inRange_eq_ok.mp hi))
  enrich {a b _} ha hb h derivative points table htable := by
    obtain ⟨-, hvalues, -⟩ := enrich_compatible h
    obtain rfl := enrich_ok h
    have hsize : b.valueSize = a.valueSize := by
      rw [valueSize, valueSize, Layout.valueSize, Layout.valueSize, hvalues]
    simp only [tabulate, Result.bind_eq_ok, Result.pure_eq_ok] at htable
    obtain ⟨first, hfirst, second, hsecond, rfl⟩ := htable
    exact List.forall_mem_append.mpr
      ⟨ha derivative points first hfirst, hsize ▸ hb derivative points second hsecond⟩
  tensor _ _ h := by
    obtain rfl := tensor_ok h
    exact fullRows_product _ _ none
  wrap _ h := by
    obtain ⟨a, b, c, -, -, rfl⟩ := wrap_ok h
    exact fullRows_product _ _ _
  mix _ h derivative points table htable := by
    obtain rfl := mix_ok h
    rw [tabulate, Result.bind_eq_ok] at htable
    obtain ⟨tables, -, htable⟩ := htable
    exact length_of_mem_stack htable

/-- Every resolved element is a proper part of others. -/
theorem resolved_proper {c c' : Cache α} (hc : c.Reachable) {d : Descriptor} {e : Element α}
    (h : Resolve.Returns (resolve d) c e c') : e.Proper := by
  obtain ⟨-, -, hpartitioned⟩ :=
    (closed_partitioned.resolve d).of_returns (hc.all closed_partitioned) h
  obtain ⟨-, -, hrows⟩ := (closed_fullRows.resolve d).of_returns (hc.all closed_fullRows) h
  exact ⟨fun hl => hpartitioned.numbers.lt_of_on hl, fun htable => hrows _ _ _ htable⟩

end Resolved

section Rows

variable {α : Type} [Scalar α] {derivative : List ℕ} {points : List (List α)} {e : Element α} {table : Table α}

theorem Stacks.row {parts : List (Element α)} {place : (numPoints j : ℕ) → (row result : List (List α)) → Prop}
    (h : Stacks parts place e) (htable : e.tabulate derivative points = .ok table) {k j l : ℕ} {part : Element α}
    (hk : Decodes parts k j part l) {rows : Table α} (hrows : part.tabulate derivative points = .ok rows)
    {row : List (List α)} (hrow : rows[l]? = some row) :
    ∃ result, table[k]? = some result ∧ place points.length j row result := by
  obtain ⟨rows', row', result, hrows', hrow', hresult, hplace⟩ := (h.rows htable).2 k j part l hk
  obtain rfl : rows = rows' := Except.ok.inj (hrows.symm.trans hrows')
  obtain rfl : row = row' := Option.some.inj (hrow.symm.trans hrow')
  exact ⟨result, hresult, hplace⟩

theorem Multiplies.row {a b : Element α} {place : (numPoints : ℕ) → (row result : List (List α)) → Prop}
    (h : Multiplies a b place e) (htable : e.tabulate derivative points = .ok table) {ta tb : Table α}
    (hta : a.tabulate (derivative.take a.cell.dim) (points.map (·.take a.cell.dim)) = .ok ta)
    (htb : b.tabulate (derivative.drop a.cell.dim) (points.map (·.drop a.cell.dim)) = .ok tb) {i j : ℕ}
    {ra rb : List (List α)} (hra : ta[i]? = some ra) (hrb : tb[j]? = some rb) (hsize : ra.length = a.valueSize)
    (hsize' : rb.length = b.valueSize) : ∃ result, table[i * b.dimension + j]? = some result ∧
      place points.length (componentProducts ra rb) result := by
  have hi : i < a.dimension := length_tabulate a hta ▸ (List.getElem?_eq_some_iff.mp hra).1
  have hj : j < b.dimension := length_tabulate b htb ▸ (List.getElem?_eq_some_iff.mp hrb).1
  obtain ⟨-, ta', tb', hta', htb', hrows⟩ := h.rows htable
  obtain rfl : ta = ta' := Except.ok.inj (hta.symm.trans hta')
  obtain rfl : tb = tb' := Except.ok.inj (htb.symm.trans htb')
  obtain ⟨ra', rb', result, hra', hrb', hresult, hplace⟩ := hrows i hi j hj
  obtain rfl : ra = ra' := Option.some.inj (hra.symm.trans hra')
  obtain rfl : rb = rb' := Option.some.inj (hrb.symm.trans hrb')
  exact ⟨result, hresult, hplace hsize hsize'⟩

theorem Selects.row {base : Element α} {indices : List ℕ} (h : Selects base indices e)
    (htable : e.tabulate derivative points = .ok table) {k l : ℕ} (hk : indices[k]? = some l) {rows : Table α}
    (hrows : base.tabulate derivative points = .ok rows) : table[k]? = rows[l]? := by
  obtain ⟨-, rows', hrows', hselect⟩ := h.rows htable
  obtain rfl : rows = rows' := Except.ok.inj (hrows.symm.trans hrows')
  obtain ⟨row, hrow, hresult⟩ := hselect k l hk
  rw [hrow, hresult]

/-- The table of a product, from those of its factors. -/
theorem tabulate_product {a b : Element α} (w : Option Wrapping) {ta tb : Table α}
    (hlength : derivative.length = a.cell.dim + b.cell.dim) (hpoints : ∀ p ∈ points, a.cell.dim ≤ p.length)
    (hta : a.tabulate (derivative.take a.cell.dim) (points.map (·.take a.cell.dim)) = .ok ta)
    (htb : b.tabulate (derivative.drop a.cell.dim) (points.map (·.drop a.cell.dim)) = .ok tb) :
    (product a b w).tabulate derivative points = (ta.flatMap fun ra => tb.map fun rb => (ra, rb)).mapM fun x =>
      multiplyRows points.length (product a b w).valueSize (w.map (·.component)) x.1 x.2 := by
  have hshort : points.any (·.length < a.cell.dim) = false := by simpa using hpoints
  rw [tabulate, if_neg (not_not.mpr hlength), hshort, if_neg Bool.false_ne_true, hta, htb]
  rfl

end Rows

section Interval

/-- A Lagrange element on the interval. -/
def onInterval (family : String) (degree : ℕ) (entityDofs : EntityDofs) (coefficients : List (List (List ℝ))) :
    Element ℝ :=
  polynomial ⟨family, .interval, degree, degree, .identity, [], coefficients, entityDofs⟩

/-- Wherever its dofs are, there is one, with values one and zero at its nodes. -/
theorem exists_onInterval (family : String) {degree : ℕ} (hdegree : 1 ≤ degree) (entityDofs : EntityDofs)
    (hfamily : ofFamily family (.simple .interval) (some degree) = polynomial <$> PolynomialElement.ofPoints family
      .interval degree (Lagrange.points .interval degree : List (List ℝ)) entityDofs) :
    ∃ coefficients, coefficients.length = degree + 1 ∧
      ofFamily family (.simple .interval) (some degree) = .ok (onInterval family degree entityDofs coefficients) ∧
      (onInterval family degree entityDofs coefficients).tabulate [0] (Lagrange.points .interval degree) =
        .ok ((LinearSystem.identity (degree + 1)).map fun row => [row]) := by
  obtain ⟨x, hx⟩ : ∃ x : PolynomialElement ℝ,
      PolynomialElement.ofPoints family .interval degree (Lagrange.points .interval degree) entityDofs = .ok x :=
    Lagrange.exists_ofPoints hdegree family entityDofs
  have hnodes : (Lagrange.points .interval degree : List (List ℝ)).length = degree + 1 :=
    Lagrange.length_points_eq .interval hdegree
  have hvalues := (PolynomialElement.ofPoints_nodal hx).values
  obtain ⟨-, -, hdimension, hnumber⟩ := PolynomialElement.create_ok hx
  rw [← hnumber, List.length_map, hnodes] at hdimension
  rw [hx] at hfamily
  obtain ⟨coefficients, -, rfl⟩ := PolynomialElement.exists_dualBasis hx
  rw [hnodes] at hvalues
  exact ⟨coefficients, hdimension, hfamily, hvalues⟩

theorem exists_linear (family : String) (entityDofs : EntityDofs)
    (hfamily : ofFamily family (.simple .interval) (some 1) = polynomial <$>
      PolynomialElement.ofPoints family .interval 1 (Lagrange.points .interval 1 : List (List ℝ)) entityDofs) :
    ∃ φ₀ φ₁, ofFamily family (.simple .interval) (some 1) = .ok (onInterval family 1 entityDofs [φ₀, φ₁]) ∧
      (onInterval family 1 entityDofs [φ₀, φ₁]).tabulate [0] [[0], [1]] = .ok [[[1, 0]], [[0, 1]]] := by
  obtain ⟨φ, hφ, he, htable⟩ := exists_onInterval family le_rfl entityDofs hfamily
  obtain ⟨φ₀, φ₁, rfl⟩ := List.length_eq_two.mp hφ
  refine ⟨φ₀, φ₁, he, ?_⟩
  rw [← Lagrange.points_linear, htable]
  simp [LinearSystem.identity, List.range_succ]

theorem points_quadratic : (Lagrange.points .interval 2 : List (List ℝ)) = [[0], [1], [2⁻¹]] := by
  have hcast : (Lagrange.points .interval 2 : List (List ℝ)) = [[((0 : ℕ) : ℝ)], [((1 : ℕ) : ℝ)],
    [((0 : ℕ) : ℝ) + ((1 : ℕ) : ℝ) / ((2 : ℕ) : ℝ) * (((1 : ℕ) : ℝ) - ((0 : ℕ) : ℝ))]] := rfl
  rw [hcast]
  norm_num

theorem exists_quadratic : ∃ φ₀ φ₁ φ₂, ofFamily "Lagrange" (.simple .interval) (some 2) =
      .ok (onInterval "Lagrange" 2 [[[0], [1]], [[2]]] [φ₀, φ₁, φ₂]) ∧
    (onInterval "Lagrange" 2 [[[0], [1]], [[2]]] [φ₀, φ₁, φ₂]).tabulate [0] [[0], [1], [2⁻¹]] =
      .ok [[[1, 0, 0]], [[0, 1, 0]], [[0, 0, 1]]] := by
  obtain ⟨φ, hφ, he, htable⟩ := exists_onInterval "Lagrange" one_le_two [[[0], [1]], [[2]]] rfl
  obtain ⟨φ₀, φ₁, φ₂, rfl⟩ := List.length_eq_three.mp hφ
  refine ⟨φ₀, φ₁, φ₂, he, ?_⟩
  rw [← points_quadratic, htable]
  simp [LinearSystem.identity, List.range_succ]

/-- Products of two linear functions, of which the second has its dofs inside. -/
def square (φ₀ φ₁ ψ₀ ψ₁ : List (List ℝ)) (w : Option Wrapping) : Element ℝ :=
  product (onInterval "Lagrange" 1 [[[0], [1]], [[]]] [φ₀, φ₁])
    (onInterval "Discontinuous Lagrange" 1 [[[], []], [[0, 1]]] [ψ₀, ψ₁]) w

theorem exists_tables_square {φ₀ φ₁ ψ₀ ψ₁ : List (List ℝ)}
    (hφ : (onInterval "Lagrange" 1 [[[0], [1]], [[]]] [φ₀, φ₁]).tabulate [0] [[0], [1]] =
      .ok [[[1, 0]], [[0, 1]]])
    (hψ : (onInterval "Discontinuous Lagrange" 1 [[[], []], [[0, 1]]] [ψ₀, ψ₁]).tabulate [0] [[0], [1]] =
      .ok [[[1, 0]], [[0, 1]]]) :
    ∃ tq tw tm, (square φ₀ φ₁ ψ₀ ψ₁ none).tabulate [0, 0] [[0, 0], [1, 1]] = .ok tq ∧
      (square φ₀ φ₁ ψ₀ ψ₁ (some ⟨.hdiv, 0⟩)).tabulate [0, 0] [[0, 0], [1, 1]] = .ok tw ∧
      (mixed [square φ₀ φ₁ ψ₀ ψ₁ none, square φ₀ φ₁ ψ₀ ψ₁ (some ⟨.hdiv, 0⟩)]).tabulate [0, 0]
        [[0, 0], [1, 1]] = .ok tm := by
  have hpoints : ∀ x ∈ [[(0 : ℝ), 0], [1, 1]], 1 ≤ x.length := by simp
  have htable (w : Option Wrapping) : (square φ₀ φ₁ ψ₀ ψ₁ w).tabulate [0, 0] [[0, 0], [1, 1]] = _ :=
    tabulate_product w rfl hpoints hφ hψ
  have hscalar : (square φ₀ φ₁ ψ₀ ψ₁ none).tabulate [0, 0] [[0, 0], [1, 1]] =
      .ok [[[1, 0]], [[0, 0]], [[0, 0]], [[0, 1]]] := by
    rw [htable, show (product _ _ none).valueSize = 1 from rfl]
    simp [multiplyRows, Result.ok_bind]
  have hfield : (square φ₀ φ₁ ψ₀ ψ₁ (some ⟨.hdiv, 0⟩)).tabulate [0, 0] [[0, 0], [1, 1]] =
      .ok [[[1, 0], [0, 0]], [[0, 0], [0, 0]], [[0, 0], [0, 0]], [[0, 1], [0, 0]]] := by
    rw [htable, show (product _ _ (some ⟨.hdiv, 0⟩)).valueSize = 2 from rfl]
    simp [multiplyRows, Result.ok_bind]
  simp only [tabulate, tabulateAll, hscalar, hfield]
  exact ⟨_, _, _, rfl, rfl, rfl⟩

theorem exists_returns_family {family : String} (hfamily : canonicalFamily family = family) {cell : Cell}
    {degree : Option ℕ} {e : Element ℝ} (h : ofFamily family cell degree = .ok e) :
    ∃ c', Resolve.Returns (resolve (.simple family cell degree)) .empty e c' := by
  refine ⟨_, Prod.ext ((ofDescriptor_eq_direct (.simple family cell degree)).trans ?_) rfl⟩
  rw [direct, hfamily, h]

end Interval

/-- The ways of building elements from elements number the basis functions in the tables as they do on the
entities, whatever the parts are: those of sums of spaces and of direct sums one part after the other, with
the rows as they are or in the components of the part; those of products with the second factor fastest,
with the products of the rows as they are or in the component of the wrapping; those of restrictions by
their places among the selected ones. Parts that are resolved are proper, so that their dofs lie on the
same entities as those that they become. -/
theorem composite_numbering :
    (∀ {parts : List (Element α)} {e : Element α}, mix parts = .ok e →
      Stacks parts (fun numPoints j => Placed numPoints (before valueSize parts j) e.valueSize) e) ∧
    (∀ {a b e : Element α}, enrich a b = .ok e → Stacks [a, b] (fun _ _ row result => result = row) e) ∧
    (∀ {a b e : Element α}, tensor a b = .ok e → Multiplies a b (fun _ row result => result = row) e) ∧
    (∀ {space : SobolevSpace} {a b e : Element α}, wrap space (product a b none) = .ok e →
      ∃ c < e.valueSize, wrappingComponent? space a.layout b.layout = some c ∧
        Multiplies a b (fun numPoints => Placed numPoints c e.valueSize) e) ∧
    (∀ {family : String} {cell : Cell} {degree : Option ℕ} {domain : Domain} {e : Element α},
      restrictFamily family cell degree domain = .ok e →
      ∃ base indices, ofFamily family cell degree = .ok base ∧
        selectIndices base.layout domain = .ok indices ∧ Selects base indices e) ∧
    ∀ {c c' : Cache α} {d : Descriptor} {e : Element α}, c.Reachable →
      Resolve.Returns (resolve d) c e c' → e.Proper :=
  ⟨mix_stacks, enrich_stacks, tensor_multiplies, wrap_multiplies, restrictFamily_selects,
    fun hc h => resolved_proper hc h⟩

/-- Linear functions on the interval with dofs at its ends. -/
def intervalLinear : Descriptor := .simple "Lagrange" (.simple .interval) (some 1)

/-- Linear functions on the interval with dofs inside. -/
def intervalBroken : Descriptor := .simple "Discontinuous Lagrange" (.simple .interval) (some 1)

/-- On the square, the products of two functions that are one at the second end of the interval are one at the last
corner, as a scalar, as a field and as the field next to the scalar. The functions of the field are on the sides that
the ends of the first interval give. On the interval, the quadratic function that is left inside is one in the middle,
alone and next to the linear functions. -/
theorem composite_numbering_evaluated :
    (∃ (p d q w m : Element ℝ) (c c' : Cache ℝ) (tq tw tm : Table ℝ),
      Resolve.Returns (resolve intervalLinear) .empty p c ∧ Resolve.Returns (resolve intervalBroken) .empty d c' ∧
      tensor p d = .ok q ∧ wrap .hdiv (product p d none) = .ok w ∧ mix [q, w] = .ok m ∧
      p.tabulate [0] [[0], [1]] = .ok [[[1, 0]], [[0, 1]]] ∧ d.tabulate [0] [[0], [1]] = .ok [[[1, 0]], [[0, 1]]] ∧
      q.tabulate [0, 0] [[0, 0], [1, 1]] = .ok tq ∧ tq[3]? = some [[0, 1]] ∧
      w.tabulate [0, 0] [[0, 0], [1, 1]] = .ok tw ∧ tw[3]? = some [[0, 1], [0, 0]] ∧
      m.tabulate [0, 0] [[0, 0], [1, 1]] = .ok tm ∧ tm[7]? = some [[0, 0], [0, 1], [0, 0]] ∧
      1 ∈ p.dofsOn 0 1 ∧ 1 ∈ d.dofsOn 1 0 ∧ 3 ∈ w.dofsOn 1 1 ∧ 1 ∉ w.dofsOn 1 1 ∧ 7 ∈ m.dofsOn 1 1) ∧
    ∃ (p base r s : Element ℝ) (tr ts : Table ℝ),
      ofFamily "Lagrange" (.simple .interval) (some 1) = .ok p ∧
      ofFamily "Lagrange" (.simple .interval) (some 2) = .ok base ∧
      restrictFamily "Lagrange" (.simple .interval) (some 2) .interior = .ok r ∧ enrich p r = .ok s ∧
      base.tabulate [0] [[0], [1], [2⁻¹]] = .ok [[[1, 0, 0]], [[0, 1, 0]], [[0, 0, 1]]] ∧
      r.tabulate [0] [[0], [1], [2⁻¹]] = .ok tr ∧ tr[0]? = some [[0, 0, 1]] ∧
      s.tabulate [0] [[0], [1], [2⁻¹]] = .ok ts ∧ ts[2]? = some [[0, 0, 1]] ∧
      2 ∈ base.dofsOn 1 0 ∧ 0 ∈ r.dofsOn 1 0 ∧ 2 ∈ s.dofsOn 1 0 := by
  obtain ⟨φ₀, φ₁, hp, htp⟩ := exists_linear "Lagrange" [[[0], [1]], [[]]] rfl
  let p := onInterval "Lagrange" 1 [[[0], [1]], [[]]] [φ₀, φ₁]
  refine ⟨?_, ?_⟩
  · obtain ⟨ψ₀, ψ₁, hd, htd⟩ := exists_linear "Discontinuous Lagrange" [[[], []], [[0, 1]]] rfl
    obtain ⟨c, hpc⟩ := exists_returns_family rfl hp
    obtain ⟨c', hdc⟩ := exists_returns_family rfl hd
    let d := onInterval "Discontinuous Lagrange" 1 [[[], []], [[0, 1]]] [ψ₀, ψ₁]
    let q := square φ₀ φ₁ ψ₀ ψ₁ none
    let w := square φ₀ φ₁ ψ₀ ψ₁ (some ⟨.hdiv, 0⟩)
    have hq : tensor p d = .ok q := rfl
    have hw : wrap .hdiv (product p d none) = .ok w := rfl
    have hm : mix [q, w] = .ok (mixed [q, w]) := rfl
    obtain ⟨tq, tw, tm, htq, htw, htm⟩ := exists_tables_square htp htd
    have hproducts : componentProducts [[(0 : ℝ), 1]] [[0, 1]] = [[0, 1]] := by simp [componentProducts]
    -- The second rows of the factors are multiplied. The field has the products in its first component, and next to
    -- the scalar this is the second of three.
    obtain ⟨rowq, hrowq, hplaceq⟩ :=
      (composite_numbering.2.2.1 hq).row htq htp htd (i := 1) (j := 1) rfl rfl rfl rfl
    obtain ⟨component, -, hcomponent, hwrapped⟩ := composite_numbering.2.2.2.1 hw
    obtain rfl : 0 = component := Option.some.inj hcomponent
    obtain ⟨roww, hroww, hplacew⟩ := hwrapped.row htw htp htd (i := 1) (j := 1) rfl rfl rfl rfl
    rw [hproducts] at hplaceq hplacew
    have hmixed := composite_numbering.1 hm
    have hdecodes : Decodes [q, w] 7 1 w 3 := ⟨rfl, Nat.lt_succ_self 3, rfl⟩
    obtain ⟨rowm, hrowm, hplacem⟩ := hmixed.row htm hdecodes htw hroww
    have hvaluesw : roww = [[0, 1], [0, 0]] := by
      rw [hplacew.2, show w.valueSize = 2 from rfl]
      simp
    have hvaluesm : rowm = [[0, 0], [0, 1], [0, 0]] := by
      rw [hplacem.2, hvaluesw, show (mixed [q, w]).valueSize = 3 from rfl, show before valueSize [q, w] 1 = 1 from rfl]
      simp
    have hproper : d.Proper := composite_numbering.2.2.2.2.2 Cache.Reachable.empty hdc
    have hside (i : ℕ) := hwrapped.attached_iff (i := i) (j := 1) hproper one_lt_two
      (show 1 < (p.layout.entityDofs.getD 0 []).length from one_lt_two)
      (show 0 < (d.layout.entityDofs.getD 1 []).length from one_pos)
    have hend : 1 ∈ p.dofsOn 0 1 := List.mem_singleton_self 1
    have hinside : 1 ∈ d.dofsOn 1 0 := List.mem_cons_of_mem 0 (List.mem_singleton_self 1)
    have hlast : 3 ∈ w.dofsOn 1 1 := (hside 1).mpr ⟨hend, hinside⟩
    have hfirst : 1 ∉ w.dofsOn 1 1 := fun h => zero_ne_one (List.mem_singleton.mp ((hside 0).mp h).1)
    exact ⟨p, d, q, w, mixed [q, w], c, c', tq, tw, tm, hpc, hdc, hq, hw, hm, htp, htd, htq,
      hplaceq ▸ hrowq, htw, hvaluesw ▸ hroww, htm, hvaluesm ▸ hrowm, hend, hinside, hlast, hfirst,
      hmixed.attached hdecodes 1 1 hlast⟩
  · obtain ⟨χ₀, χ₁, χ₂, hbase, htbase⟩ := exists_quadratic
    let base := onInterval "Lagrange" 2 [[[0], [1]], [[2]]] [χ₀, χ₁, χ₂]
    let r := restricted base [2] .interior
    have hr : restrictFamily "Lagrange" (.simple .interval) (some 2) .interior = .ok r :=
      Result.bind_eq_ok.mpr ⟨base, hbase, rfl⟩
    have hs : enrich p r = .ok (enriched p r) := rfl
    obtain ⟨base', indices, hbase', hindices, hselects⟩ := composite_numbering.2.2.2.2.1 hr
    obtain rfl : base = base' := Except.ok.inj (hbase.symm.trans hbase')
    obtain rfl : [2] = indices := Except.ok.inj hindices
    have hstacks := composite_numbering.2.1 hs
    have hdecodes : Decodes [p, r] 2 1 r 0 := ⟨rfl, one_pos, rfl⟩
    have htables : ∃ tr ts, r.tabulate [0] [[0], [1], [2⁻¹]] = .ok tr ∧
        (enriched p r).tabulate [0] [[0], [1], [2⁻¹]] = .ok ts := by
      have hlengths : ∀ x ∈ [[(0 : ℝ)], [1], [2⁻¹]], 1 ≤ x.length := by simp
      have htr : r.tabulate [0] [[0], [1], [2⁻¹]] = .ok [[[0, 0, 1]]] := Result.bind_eq_ok.mpr ⟨_, htbase, rfl⟩
      exact ⟨_, _, htr, Result.bind_eq_ok.mpr
        ⟨_, PolynomialElement.tabulate_values _ hlengths, Result.bind_eq_ok.mpr ⟨_, htr, rfl⟩⟩⟩
    obtain ⟨tr, ts, htr, hts⟩ := htables
    have hrow : tr[0]? = some [[0, 0, 1]] := hselects.row htr (k := 0) (l := 2) rfl htbase
    obtain ⟨row, hrow', rfl⟩ := hstacks.row hts hdecodes htr hrow
    have hmiddle : 2 ∈ base.dofsOn 1 0 := List.mem_singleton_self 2
    have hkept : 0 ∈ r.dofsOn 1 0 := (hselects.attached_iff rfl 1 0).mpr hmiddle
    exact ⟨p, base, r, enriched p r, tr, ts, hp, hbase, hr, hs, htbase, htr, hrow, hts, hrow', hmiddle, hkept,
      hstacks.attached hdecodes 1 0 hkept⟩

end Element
end Variational
