import Variational.Proofs.CellEntities
import Variational.Proofs.ExpansionPolynomials

/-! Tables of polynomials. Where an element has no values at points of a rule, a derivative of its basis functions is a
list of polynomials whose degree is at most that of the element, and the table at any points holds their values
there. -/
namespace Variational

open Result

/-- Functions of the point, by basis function and component. -/
abbrev Functions := List (List (List ℝ → ℝ))

namespace Functions

/-- The table of the values at points. -/
def table (F : Functions) (points : List (List ℝ)) : Table ℝ := F.map (·.map fun f => points.map f)

/-- All functions are polynomials on a cell. -/
def OfDegree (cell : Cell) (n : ℕ) (F : Functions) : Prop := ∀ row ∈ F, ∀ f ∈ row, cell.IsPolynomial n f

theorem OfDegree.mono {cell : Cell} {n m : ℕ} {F : Functions} (h : F.OfDegree cell n) (hnm : n ≤ m) :
    F.OfDegree cell m := fun row hrow f hf => (h row hrow f hf).mono hnm

theorem table_append (F G : Functions) (points : List (List ℝ)) :
    table (F ++ G) points = table F points ++ table G points := List.map_append

end Functions

section Degrees

variable {α : Type} [Scalar α]

/-- The coefficients refer to the expansion set of the degree of the element. -/
theorem PolynomialElement.ofPoints_degree {family : String} {cell : ReferenceCell} {degree : ℕ}
    {points : List (List α)} {entityDofs : EntityDofs} {e : PolynomialElement α}
    (h : ofPoints family cell degree points entityDofs = .ok e) : e.embeddedDegree = e.degree := by
  obtain ⟨coefficients, -, rfl⟩ := exists_dualBasis h
  rfl

theorem TimeFamily.create_degree {f : TimeFamily} {degree : ℕ} {e : PolynomialElement α}
    (h : f.create degree = .ok e) : e.embeddedDegree = e.degree :=
  PolynomialElement.ofPoints_degree (create_ok h).2

theorem PolynomialElement.ofFamily_degree {family : String} {cell : ReferenceCell} {degree : ℕ}
    {e : PolynomialElement α} (h : ofFamily family cell degree = .ok e) : e.embeddedDegree = e.degree := by
  cases ofFamily_ok h with
  | values h => exact ofPoints_degree h
  | components hdegree _ h =>
    obtain ⟨coefficients, -, rfl⟩ := exists_dualBasis h
    exact hdegree.symm
  | interior hx h =>
    obtain ⟨coefficients, -, rfl⟩ := subset_ok h
    have hequal := ofPoints_degree hx
    exact hequal

end Degrees

namespace Element

/-- No part of the element has its values at the nodes of a rule. -/
def AllPolynomial {α : Type} : Element α → Prop :=
  EachLeaf fun e => ∀ cell degree nodes, e ≠ quadrature cell degree nodes

/-- The functions give the table of a derivative at all points of the cell, and their degree is at most that of the
element. -/
structure Presents (e : Element ℝ) (derivative : List ℕ) (F : Functions) : Prop where
  table : ∀ points, (∀ x ∈ points, x.length = e.cell.dim) → e.tabulate derivative points = .ok (F.table points)
  degree : F.OfDegree e.cell e.degree

/-- A derivative that can be tabulated at some points of the cell is given by polynomials. -/
def Presentable (e : Element ℝ) : Prop :=
  ∀ derivative points table, (∀ x ∈ points, x.length = e.cell.dim) → e.tabulate derivative points = .ok table →
    ∃ F, e.Presents derivative F

section Parts

theorem Presentable.restricted {e : Element ℝ} (he : e.Presentable) (indices : List ℕ) (domain : Domain) :
    (restricted e indices domain).Presentable := by
  intro derivative points table hpoints h
  rw [tabulate, bind_eq_ok] at h
  obtain ⟨whole, hwhole, hrows⟩ := h
  obtain ⟨F, hF⟩ := he derivative points whole hpoints hwhole
  obtain rfl := Except.ok.inj (hwhole.symm.trans (hF.table points hpoints))
  have hlt (i : ℕ) (hi : i ∈ indices) : i < F.length := by
    obtain ⟨row, -, hrow⟩ := exists_of_forall₂ (mapM_eq_ok.mp hrows) hi
    have hlength := (List.getElem?_eq_some_iff.mp (inRange_eq_ok.mp hrow)).1
    rwa [Functions.table, List.length_map] at hlength
  refine ⟨indices.map fun i => F.getD i [], fun ps hps => ?_, ?_⟩
  · rw [tabulate, hF.table ps hps, ok_bind, Functions.table, Functions.table, List.map_map]
    refine mapM_of_forall fun i hi => ?_
    simp [hlt i hi]
  · refine List.forall_mem_map.mpr fun i hi => hF.degree _ ?_
    rw [List.getD_eq_getElem _ _ (hlt i hi)]
    exact List.getElem_mem _

theorem Presentable.enriched {a b : Element ℝ} (ha : a.Presentable) (hb : b.Presentable) (hcell : a.cell = b.cell) :
    (enriched a b).Presentable := by
  intro derivative points table hpoints h
  simp only [tabulate, bind_eq_ok] at h
  obtain ⟨first, hfirst, second, hsecond, -⟩ := h
  obtain ⟨F, hF⟩ := ha derivative points first hpoints hfirst
  obtain ⟨G, hG⟩ := hb derivative points second (fun x hx => hcell ▸ hpoints x hx) hsecond
  refine ⟨F ++ G, fun ps hps => ?_, ?_⟩
  · rw [tabulate, hF.table ps hps, hG.table ps fun x hx => hcell ▸ hps x hx, Functions.table_append]
    rfl
  · refine List.forall_mem_append.mpr ⟨hF.degree.mono (le_max_left _ _), ?_⟩
    have hdegree := hG.degree.mono (le_max_right a.degree b.degree)
    rw [← hcell] at hdegree
    exact hdegree

/-- A row of functions among the components of a sum. -/
def placed (offset size : ℕ) (row : List (List ℝ → ℝ)) : List (List ℝ → ℝ) :=
  List.replicate offset (fun _ => 0) ++ row ++ List.replicate (size - offset - row.length) fun _ => 0

theorem placeRow_eq {offset size : ℕ} {row : List (List ℝ → ℝ)} (h : offset + row.length ≤ size)
    (points : List (List ℝ)) :
    placeRow points.length offset size (row.map fun f => points.map f) =
      .ok ((placed offset size row).map fun f => points.map f) := by
  have hzero : List.replicate points.length (0 : ℝ) = points.map fun _ => 0 := by simp
  simp only [placeRow, placed, List.length_map, if_pos h, List.map_append, List.map_replicate, Scalar.numeral_zero,
    hzero]

theorem le_of_placeRow {numPoints offset size : ℕ} {row row' : List (List ℝ)}
    (h : placeRow numPoints offset size row = .ok row') : offset + row.length ≤ size := by
  simp only [placeRow] at h
  split_ifs at h with hle
  exact hle

/-- Stacked functions, each part in its own components. -/
def stacked (size : ℕ) : ℕ → List (Functions × ℕ) → Functions
  | _, [] => []
  | offset, (F, width) :: rest => F.map (placed offset size) ++ stacked size (offset + width) rest

theorem stack_eq {size offset : ℕ} {parts : List (Functions × ℕ)} {points : List (List ℝ)} {table : Table ℝ}
    (h : stack points.length size offset (parts.map fun p => (p.1.table points, p.2)) = .ok table)
    (ps : List (List ℝ)) :
    stack ps.length size offset (parts.map fun p => (p.1.table ps, p.2)) =
      .ok ((stacked size offset parts).table ps) := by
  induction parts generalizing offset table with
  | nil => rfl
  | cons p parts ih =>
    obtain ⟨F, width⟩ := p
    simp only [List.map_cons, stack, bind_eq_ok] at h
    obtain ⟨first, hfirst, rest, hrest, -⟩ := h
    have hfit : ∀ row ∈ F, offset + row.length ≤ size := by
      intro row hrow
      have hmem : row.map (fun f => points.map f) ∈ F.table points := List.mem_map_of_mem hrow
      obtain ⟨row', -, hrow'⟩ := exists_of_forall₂ (mapM_eq_ok.mp hfirst) hmem
      simpa using le_of_placeRow hrow'
    have hplaced : (F.table ps).mapM (placeRow ps.length offset size) =
        .ok (Functions.table (F.map (placed offset size)) ps) := by
      rw [Functions.table, Functions.table, List.mapM_map, List.map_map]
      exact mapM_of_forall fun row hrow => placeRow_eq (hfit row hrow) ps
    simp only [List.map_cons, stack, hplaced, ih hrest, ok_bind, stacked, Functions.table_append]
    rfl

theorem stacked_ofDegree {cell : Cell} {n : ℕ} {parts : List (Functions × ℕ)} (h : ∀ p ∈ parts, p.1.OfDegree cell n)
    (size offset : ℕ) : (stacked size offset parts).OfDegree cell n := by
  have hzero (k : ℕ) : ∀ f ∈ List.replicate k fun _ : List ℝ => (0 : ℝ), cell.IsPolynomial n f := fun f hf => by
    rw [List.eq_of_mem_replicate hf]
    exact .const cell n 0
  induction parts generalizing offset with
  | nil => exact List.forall_mem_nil _
  | cons p parts ih =>
    rw [List.forall_mem_cons] at h
    refine List.forall_mem_append.mpr ⟨List.forall_mem_map.mpr fun row hrow => ?_, ih h.2 _⟩
    exact List.forall_mem_append.mpr ⟨List.forall_mem_append.mpr ⟨hzero _, h.1 row hrow⟩, hzero _⟩

/-- The tables of the parts of a sum. -/
theorem tabulateAll_presents {es : List (Element ℝ)} {dim : ℕ} (hes : ∀ e ∈ es, e.Presentable ∧ e.cell.dim = dim)
    {derivative : List ℕ} {points : List (List ℝ)} {tables : List (Table ℝ × ℕ)}
    (hpoints : ∀ x ∈ points, x.length = dim) (h : tabulateAll derivative points es = .ok tables) :
    ∃ parts : List (Functions × ℕ),
      List.Forall₂ (fun e p => e.Presents derivative p.1 ∧ p.2 = e.valueSize) es parts := by
  induction es generalizing tables with
  | nil => exact ⟨[], .nil⟩
  | cons e es ih =>
    rw [List.forall_mem_cons] at hes
    obtain ⟨⟨he, rfl⟩, hes⟩ := hes
    simp only [tabulateAll, bind_eq_ok] at h
    obtain ⟨table, htable, rest, hrest, -⟩ := h
    obtain ⟨F, hF⟩ := he derivative points table hpoints htable
    obtain ⟨parts, hparts⟩ := ih hes hrest
    exact ⟨(F, e.valueSize) :: parts, .cons ⟨hF, rfl⟩ hparts⟩

theorem tabulateAll_eq {es : List (Element ℝ)} {dim : ℕ} (hes : ∀ e ∈ es, e.cell.dim = dim) {derivative : List ℕ}
    {parts : List (Functions × ℕ)}
    (h : List.Forall₂ (fun e p => e.Presents derivative p.1 ∧ p.2 = e.valueSize) es parts) {points : List (List ℝ)}
    (hpoints : ∀ x ∈ points, x.length = dim) :
    tabulateAll derivative points es = .ok (parts.map fun p => (p.1.table points, p.2)) := by
  induction h with
  | nil => rfl
  | @cons e p es parts hp _ ih =>
    rw [List.forall_mem_cons] at hes
    obtain ⟨rfl, hes⟩ := hes
    rw [tabulateAll, hp.1.table points hpoints, ih hes, ok_bind, ok_bind, ← hp.2]
    rfl

theorem degree_le_mixed {e : Element ℝ} {es : List (Element ℝ)} (h : e ∈ es) : e.degree ≤ (mixed es).degree := by
  have hmem : e.degree ∈ (layouts es).map (·.degree) := by
    rw [layouts_eq_map, List.map_map]
    exact List.mem_map_of_mem h
  have hle {n : ℕ} {ns : List ℕ} (hn : n ∈ ns) : n ≤ ns.foldr max 0 := by
    induction ns with
    | nil => cases hn
    | cons m ns ih =>
      rcases List.mem_cons.mp hn with rfl | hn
      · exact le_max_left _ _
      · exact (ih hn).trans (le_max_right _ _)
  exact hle hmem

theorem Presentable.mixed {e : Element ℝ} {es : List (Element ℝ)} (h : ∀ x ∈ e :: es, x.Presentable)
    (hcell : ∀ x ∈ es, x.cell = e.cell) : (mixed (e :: es)).Presentable := by
  have hcells : ∀ x ∈ e :: es, x.cell = e.cell := List.forall_mem_cons.mpr ⟨rfl, hcell⟩
  have hdims : ∀ x ∈ e :: es, x.cell.dim = e.cell.dim := fun x hx => congrArg Cell.dim (hcells x hx)
  intro derivative points table hpoints htable
  simp only [tabulate, bind_eq_ok] at htable
  obtain ⟨tables, htables, hstack⟩ := htable
  obtain ⟨parts, hparts⟩ := tabulateAll_presents (fun x hx => ⟨h x hx, hdims x hx⟩) hpoints htables
  obtain rfl := Except.ok.inj (htables.symm.trans (tabulateAll_eq hdims hparts hpoints))
  refine ⟨stacked (Layout.mixed (layouts (e :: es))).valueSize 0 parts, fun ps hps => ?_,
    stacked_ofDegree (fun p hp => ?_) _ _⟩
  · rw [tabulate, tabulateAll_eq hdims hparts hps, ok_bind]
    exact stack_eq hstack ps
  · obtain ⟨x, hx, hpresents, -⟩ := exists_of_forall₂ hparts.flip hp
    have hdegree := hpresents.degree.mono (degree_le_mixed hx)
    rw [hcells x hx] at hdegree
    exact hdegree

/-- The products of the functions of two rows, each in its own coordinates, with the components that they go to. -/
def products (dim : ℕ) (component : Option ℕ) (ra rb : List (List ℝ → ℝ)) : List (ℕ × (List ℝ → ℝ)) :=
  ra.zipIdx.flatMap fun (u, i) => rb.zipIdx.map fun (v, j) =>
    (component.getD (max i j), fun x => u (x.take dim) * v (x.drop dim))

/-- The row of the products of two rows. -/
def multiplied (dim size : ℕ) (component : Option ℕ) (ra rb : List (List ℝ → ℝ)) : List (List ℝ → ℝ) :=
  (products dim component ra rb).foldl (fun row p => row.set p.1 p.2) (List.replicate size fun _ => 0)

theorem map_foldl_set {β γ : Type} (g : β → γ) (ps : List (ℕ × β)) (row : List β) :
    (ps.foldl (fun row p => row.set p.1 p.2) row).map g =
      ps.foldl (fun row p => row.set p.1 (g p.2)) (row.map g) := by
  induction ps generalizing row with
  | nil => rfl
  | cons p ps ih => rw [List.foldl_cons, List.foldl_cons, ih, List.map_set]

/-- The products of rows of values are the values of the products. Whether there are components for all of them does
not depend on the points. -/
theorem multiplyRows_eq (dim size : ℕ) (component : Option ℕ) (ra rb : List (List ℝ → ℝ)) (points : List (List ℝ)) :
    multiplyRows points.length size component (ra.map fun f => (points.map (·.take dim)).map f)
        (rb.map fun f => (points.map (·.drop dim)).map f) =
      if (products dim component ra rb).all (·.1 < size) then
        .ok ((multiplied dim size component ra rb).map fun f => points.map f)
      else .error .outOfRange := by
  have hproducts : ((ra.map fun f => (points.map (·.take dim)).map f).zipIdx.flatMap fun (u, i) =>
        (rb.map fun f => (points.map (·.drop dim)).map f).zipIdx.map fun (v, j) =>
          (component.getD (max i j), List.zipWith (· * ·) u v)) =
      (products dim component ra rb).map fun p => (p.1, points.map p.2) := by
    simp only [products, List.zipIdx_map, List.flatMap_map, List.map_flatMap, List.map_map, Function.comp_def,
      Prod.map_fst, Prod.map_snd, id_eq, List.zipWith_map, List.zipWith_self]
  have hzero : List.replicate points.length (0 : ℝ) = points.map fun _ => 0 := by simp
  simp only [multiplyRows, hproducts, List.all_map, Function.comp_def, List.foldl_map, Scalar.numeral_zero, hzero]
  refine if_congr Iff.rfl (congrArg Except.ok ?_) rfl
  rw [multiplied, map_foldl_set, List.map_replicate]

theorem isPolynomial_of_mem_multiplied {a b : Cell} {n : ℕ} {ra rb : List (List ℝ → ℝ)}
    (ha : ∀ u ∈ ra, a.IsPolynomial n u) (hb : ∀ v ∈ rb, b.IsPolynomial n v) (size : ℕ) (component : Option ℕ) :
    ∀ f ∈ multiplied a.dim size component ra rb, (Cell.product a b).IsPolynomial n f := by
  refine List.foldlRecOn _ _ (motive := fun row : List (List ℝ → ℝ) => ∀ f ∈ row, (Cell.product a b).IsPolynomial n f)
    (fun f hf => ?_) fun row hrow p hp f hf => ?_
  · rw [List.eq_of_mem_replicate hf]
    exact .const _ n 0
  · rcases List.mem_or_eq_of_mem_set hf with hf | rfl
    · exact hrow f hf
    · simp only [products, List.mem_flatMap, List.mem_map] at hp
      obtain ⟨u, hu, v, hv, rfl⟩ := hp
      exact (ha u.1 (List.fst_mem_of_mem_zipIdx hu)).tensor (hb v.1 (List.fst_mem_of_mem_zipIdx hv))

theorem Presentable.product {a b : Element ℝ} (ha : a.Presentable) (hb : b.Presentable) (w : Option Wrapping) :
    (product a b w).Presentable := by
  have hcell : (Element.product a b w).cell = .product a.cell b.cell := by cases w <;> rfl
  have hdegree : (Element.product a b w).degree = a.degree + b.degree := by cases w <;> rfl
  have htake {ps : List (List ℝ)} (hps : ∀ x ∈ ps, x.length = (Element.product a b w).cell.dim) :
      ∀ x ∈ ps.map (·.take a.cell.dim), x.length = a.cell.dim :=
    List.forall_mem_map.mpr fun x hx => Cell.length_take (hcell ▸ hps x hx)
  have hdrop {ps : List (List ℝ)} (hps : ∀ x ∈ ps, x.length = (Element.product a b w).cell.dim) :
      ∀ x ∈ ps.map (·.drop a.cell.dim), x.length = b.cell.dim :=
    List.forall_mem_map.mpr fun x hx => Cell.length_drop (hcell ▸ hps x hx)
  have hlong {ps : List (List ℝ)} (hps : ∀ x ∈ ps, x.length = (Element.product a b w).cell.dim) :
      ¬ ps.any (·.length < a.cell.dim) = true := by
    simp only [List.any_eq_true, decide_eq_true_eq, not_exists, not_and, not_lt]
    intro x hx
    rw [hps x hx, hcell]
    exact Nat.le_add_right _ _
  intro derivative points table hpoints h
  rw [tabulate] at h
  simp only [if_neg (hlong hpoints)] at h
  split at h
  · cases h
  rename_i hlength
  simp only [bind_eq_ok] at h
  obtain ⟨ta, hta, tb, htb, hrows⟩ := h
  obtain ⟨F, hF⟩ := ha _ _ ta (htake hpoints) hta
  obtain ⟨G, hG⟩ := hb _ _ tb (hdrop hpoints) htb
  obtain rfl := Except.ok.inj (hta.symm.trans (hF.table _ (htake hpoints)))
  obtain rfl := Except.ok.inj (htb.symm.trans (hG.table _ (hdrop hpoints)))
  have hpairs (ps : List (List ℝ)) :
      ((F.table (ps.map (·.take a.cell.dim))).flatMap fun ra =>
          (G.table (ps.map (·.drop a.cell.dim))).map fun rb => (ra, rb)) =
        (F.flatMap fun ra => G.map fun rb => (ra, rb)).map fun p =>
          (p.1.map fun f => (ps.map (·.take a.cell.dim)).map f,
            p.2.map fun f => (ps.map (·.drop a.cell.dim)).map f) := by
    simp only [Functions.table, List.flatMap_map, List.map_flatMap, List.map_map, Function.comp_def]
  rw [hpairs, List.mapM_map] at hrows
  have hfit (p : List (List ℝ → ℝ) × List (List ℝ → ℝ)) (hp : p ∈ F.flatMap fun ra => G.map fun rb => (ra, rb)) :
      (products a.cell.dim (w.map (·.component)) p.1 p.2).all (·.1 < (Element.product a b w).valueSize) = true := by
    obtain ⟨row, -, hrow⟩ := exists_of_forall₂ (mapM_eq_ok.mp hrows) hp
    by_contra hnot
    simp only [Function.comp_apply, multiplyRows_eq, if_neg hnot] at hrow
    cases hrow
  refine ⟨(F.flatMap fun ra => G.map fun rb => (ra, rb)).map fun p =>
    multiplied a.cell.dim (Element.product a b w).valueSize (w.map (·.component)) p.1 p.2, fun ps hps => ?_, ?_⟩
  · rw [tabulate]
    simp only [if_neg hlength, if_neg (hlong hps), hF.table _ (htake hps), hG.table _ (hdrop hps), ok_bind]
    rw [hpairs, List.mapM_map, Functions.table, List.map_map]
    refine mapM_of_forall fun p hp => ?_
    simp only [Function.comp_apply, multiplyRows_eq, if_pos (hfit p hp)]
  · refine List.forall_mem_map.mpr (List.forall_mem_flatMap.mpr fun ra hra => List.forall_mem_map.mpr fun rb hrb => ?_)
    rw [hcell, hdegree]
    exact isPolynomial_of_mem_multiplied (fun u hu => (hF.degree ra hra u hu).mono (Nat.le_add_right _ _))
      (fun v hv => (hG.degree rb hrb v hv).mono (Nat.le_add_left _ _)) _ _

end Parts

section Families

/-- An element that is tabulated as one of polynomials is. -/
theorem presentable_of_polynomial {e : Element ℝ} {x : PolynomialElement ℝ} (hcell : e.cell = .simple x.cell)
    (hdegree : x.embeddedDegree ≤ e.degree)
    (htabulate : ∀ derivative points, e.tabulate derivative points = x.tabulate derivative points) :
    e.Presentable := by
  intro derivative points table _ h
  simp only [htabulate, PolynomialElement.tabulate, bind_eq_ok] at h
  obtain ⟨values, hvalues, -⟩ := h
  obtain ⟨G, hG⟩ := Expansion.along_tabulates hvalues
  refine ⟨x.coefficients.map (·.map fun row y => Scalar.dot row (G.map (· y))), fun ps hps => ?_, ?_⟩
  · rw [hcell] at hps
    have hderivative : Expansion.derivative x.cell x.embeddedDegree derivative ps = _ := hG.eq ps hps
    rw [htabulate, PolynomialElement.tabulate, hderivative, ok_bind, Functions.table]
    simp only [List.map_map, Function.comp_def]
    rfl
  · rw [hcell]
    refine List.forall_mem_map.mpr fun dof _ => List.forall_mem_map.mpr fun row _ => ?_
    exact (Expansion.isPolynomial_dot hG.polynomial row).mono hdegree

theorem OfFamily.presentable {family : String} {cell : Cell} {degree : ℕ} {e : Element ℝ}
    (h : OfFamily family cell degree e) (he : e.AllPolynomial) : e.Presentable := by
  cases h with
  | reals _ _ hx =>
    exact presentable_of_polynomial rfl (PolynomialElement.ofFamily_degree hx).le fun _ _ => by rw [tabulate]
  | time _ hx => exact presentable_of_polynomial rfl (TimeFamily.create_degree hx).le fun _ _ => by rw [tabulate]
  | quadrature =>
    rw [AllPolynomial, EachLeaf] at he
    · exact absurd rfl (he _ _ _)
    all_goals simp
  | polynomial _ hx =>
    exact presentable_of_polynomial rfl (PolynomialElement.ofFamily_degree hx).le fun _ _ => by rw [tabulate]

/-- An element whose parts have no values at points of a rule is given by polynomials, and so are its factors, if it is
a product. -/
structure Smooth (e : Element ℝ) : Prop where
  presentable : e.AllPolynomial → e.Presentable
  factors : ∀ a b w, e = Element.product a b w →
    (a.AllPolynomial → a.Presentable) ∧ (b.AllPolynomial → b.Presentable)

theorem closed_smooth : Closed fun e : Element ℝ => e.Smooth where
  family h := by
    have hfamily := (ofFamily_ok h).2
    refine ⟨hfamily.presentable, ?_⟩
    rintro a b w rfl
    cases hfamily
  restrict he h := by
    refine ⟨fun hall => (he.presentable ?_).restricted _ _, by simp⟩
    rwa [AllPolynomial, EachLeaf] at hall
  enrich ha hb h := by
    obtain ⟨hcell, -⟩ := enrich_compatible h
    obtain rfl := enrich_ok h
    refine ⟨fun hall => ?_, by simp⟩
    rw [AllPolynomial, EachLeaf] at hall
    exact (ha.presentable hall.1).enriched (hb.presentable hall.2) hcell
  tensor ha hb h := by
    obtain rfl := tensor_ok h
    refine ⟨fun hall => ?_, ?_⟩
    · rw [AllPolynomial, EachLeaf] at hall
      exact (ha.presentable hall.1).product (hb.presentable hall.2) none
    · rintro _ _ _ ⟨⟩
      exact ⟨ha.presentable, hb.presentable⟩
  wrap ha h := by
    obtain ⟨a, b, c, rfl, hc, rfl⟩ := wrap_ok h
    obtain ⟨hpa, hpb⟩ := ha.factors a b none rfl
    refine ⟨fun hall => ?_, ?_⟩
    · rw [AllPolynomial, EachLeaf] at hall
      exact (hpa hall.1).product (hpb hall.2) _
    · rintro _ _ _ ⟨⟩
      exact ⟨hpa, hpb⟩
  mix hparts h := by
    obtain ⟨first, rest, rfl, hsame⟩ := mix_compatible h
    obtain rfl := mix_ok h
    refine ⟨fun hall => ?_, by simp⟩
    rw [AllPolynomial, eachLeaf_mixed] at hall
    have hpresentable (x : Element ℝ) (hx : x ∈ first :: rest) : x.Presentable :=
      (hparts x hx).presentable (hall x hx)
    exact .mixed hpresentable fun x hx => (hsame x hx).1

end Families
end Element
end Variational
