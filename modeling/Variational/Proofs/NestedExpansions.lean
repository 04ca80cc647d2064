import Variational.Proofs.EmbeddedExpansions
import Variational.Proofs.PolynomialSpaces

/-! Degrees of the members of the expansion sets. The members of a set that have at most some degree are those of the
set of this degree, and these span all polynomials of the degree. The members are independent, so each has exactly the
degree that is listed for it. -/
namespace Variational

open Result
open MvPolynomial hiding degrees

namespace ReferenceCell

section Degrees

/-- The degree of a polynomial on a reference cell: its total degree on simplices, its largest degree in one variable on
boxes. -/
noncomputable def polynomialDegree (c : ReferenceCell) (P : MvPolynomial (Fin c.dim) ℝ) : ℕ :=
  if c.isSimplex then P.totalDegree else Finset.univ.sup fun i => P.degreeOf i

/-- The degree of the monomial with the given exponents. -/
def exponentDegree (c : ReferenceCell) (s : List ℕ) : ℕ := if c.isSimplex then s.sum else s.foldr max 0

variable {c : ReferenceCell} {n : ℕ}

theorem mem_polynomialSpace_iff_degree {P : MvPolynomial (Fin c.dim) ℝ} :
    P ∈ c.polynomialSpace n ↔ c.polynomialDegree P ≤ n := by
  simp only [mem_polynomialSpace, admits_ofFn_iff]
  cases hc : c.isSimplex with
  | true =>
    rw [polynomialDegree, if_pos hc, totalDegree, Finset.sup_le_iff]
    refine forall₂_congr fun s _ => ?_
    rw [Finsupp.sum_fintype _ _ fun _ => rfl]
    exact ⟨fun h => h.1 rfl, fun h => ⟨fun _ => h, fun i =>
      (Finset.single_le_sum (fun _ _ => Nat.zero_le _) (Finset.mem_univ i)).trans h⟩⟩
  | false =>
    rw [polynomialDegree, hc, if_neg Bool.false_ne_true, Finset.sup_le_iff]
    simp only [degreeOf_le_iff]
    exact ⟨fun h i _ s hs => (h s hs).2 i, fun h s hs => ⟨nofun, fun i => h i (Finset.mem_univ i) s hs⟩⟩

theorem admits_iff_degree {s : List ℕ} (hs : s.length = c.dim) : c.Admits n s ↔ c.exponentDegree s ≤ n := by
  cases hc : c.isSimplex with
  | true =>
    rw [exponentDegree, if_pos hc]
    exact ⟨fun h => h.total hc, fun h => ⟨hs, fun _ => h, fun k hk => (List.le_sum_of_mem hk).trans h⟩⟩
  | false =>
    have hmax : s.foldr max 0 ≤ n ↔ ∀ k ∈ s, k ≤ n := by
      clear hs
      induction s with
      | nil => simp
      | cons k s ih => rw [List.foldr_cons, max_le_iff, ih, List.forall_mem_cons]
    rw [exponentDegree, hc, if_neg Bool.false_ne_true, hmax]
    exact ⟨fun h => h.each, fun h => ⟨hs, by simp [hc], h⟩⟩

end Degrees

section Exponents

open Expansion

variable {c : ReferenceCell} {n : ℕ}

theorem mem_exponents_iff {s : List ℕ} : s ∈ c.exponents n ↔ c.Admits n s := by
  refine ⟨fun h => ?_, fun h => h.mem_exponents⟩
  cases c with
  | point =>
    obtain rfl := List.mem_singleton.mp h
    exact (admits_iff_degree rfl).mpr (Nat.zero_le n)
  | interval =>
    obtain ⟨i, hi, rfl⟩ := List.mem_map.mp h
    exact (admits_iff_degree rfl).mpr (Nat.le_of_lt_succ (List.mem_range.mp hi))
  | triangle =>
    obtain ⟨m, hm, rfl⟩ := List.mem_map.mp h
    exact (admits_iff_degree rfl).mpr (degree_of_mem_triangleModes hm)
  | quadrilateral =>
    obtain ⟨m, hm, rfl⟩ := List.mem_map.mp h
    obtain ⟨hi, hj⟩ := List.mem_product.mp hm
    rw [List.mem_range, Nat.lt_succ_iff] at hi hj
    exact (admits_iff_degree rfl).mpr (by simp [exponentDegree, isSimplex, hi, hj])
  | tetrahedron =>
    obtain ⟨m, hm, rfl⟩ := List.mem_map.mp h
    have hdegree := degree_of_mem_tetrahedronModes hm
    exact (admits_iff_degree rfl).mpr (by simpa [exponentDegree, isSimplex, Nat.add_assoc] using hdegree)
  | hexahedron =>
    obtain ⟨m, hm, rfl⟩ := List.mem_map.mp h
    obtain ⟨hi, hrest⟩ := List.mem_product.mp hm
    obtain ⟨hj, hk⟩ := List.mem_product.mp hrest
    rw [List.mem_range, Nat.lt_succ_iff] at hi hj hk
    exact (admits_iff_degree rfl).mpr (by simp [exponentDegree, isSimplex, hi, hj, hk])

theorem nodup_exponents (c : ReferenceCell) (n : ℕ) : (c.exponents n).Nodup := by
  have hrange : (List.range (n + 1)).Nodup := List.nodup_range
  cases c with
  | point => exact List.nodup_singleton _
  | interval => exact hrange.map fun i j h => (List.cons.inj h).1
  | triangle => exact (nodup_triangleModes n).map fun m m' h => by simpa [Prod.ext_iff] using h
  | quadrilateral => exact (hrange.product hrange).map fun m m' h => by simpa [Prod.ext_iff] using h
  | tetrahedron => exact (nodup_tetrahedronModes n).map fun m m' h => by simpa [Prod.ext_iff] using h
  | hexahedron => exact (hrange.product (hrange.product hrange)).map fun m m' h => by simpa [Prod.ext_iff] using h

/-- The listed degrees are those of the exponents. -/
theorem degrees_eq_map (c : ReferenceCell) (n : ℕ) : degrees c n = (c.exponents n).map c.exponentDegree := by
  cases c with
  | point => rfl
  | interval =>
    rw [exponents, List.map_map]
    simp [degrees, exponentDegree, isSimplex, Function.comp_def]
  | triangle =>
    simp only [degrees, exponents, triangleModes, List.map_flatMap, List.map_map]
    refine List.flatMap_congr fun k _ => Eq.symm (List.eq_replicate_iff.mpr ⟨by simp, ?_⟩)
    refine List.forall_mem_map.mpr fun j hj => ?_
    have hj := List.mem_range.mp hj
    simp only [Function.comp_apply, exponentDegree, isSimplex, if_true, List.sum_cons, List.sum_nil]
    omega
  | quadrilateral =>
    rw [exponents, List.map_map, map_product]
    simp [degrees, exponentDegree, isSimplex]
  | tetrahedron =>
    simp only [degrees, exponents, tetrahedronModes, List.map_flatMap, List.map_map]
    refine List.flatMap_congr fun k _ => Eq.symm (List.eq_replicate_iff.mpr ⟨?_, ?_⟩)
    · have hlevel := length_tetrahedronLevel k
      simp only [List.length_flatMap, List.length_map] at hlevel ⊢
      omega
    · refine List.forall_mem_flatMap.mpr fun l hl => List.forall_mem_map.mpr fun j hj => ?_
      have hl := List.mem_range.mp hl
      have hj := List.mem_range.mp hj
      simp only [Function.comp_apply, exponentDegree, isSimplex, if_true, List.sum_cons, List.sum_nil]
      omega
  | hexahedron =>
    rw [exponents, List.map_map, map_product]
    simp only [map_product]
    simp [degrees, exponentDegree, isSimplex, max_assoc]

end Exponents
end ReferenceCell

namespace Expansion

section Picking

variable {β : Type} {m n : ℕ}

theorem pick_ofFn (e : Fin m → Fin n) (g : Fin n → β) :
    pick (List.ofFn fun p => (e p : ℕ)) (List.ofFn g) = List.ofFn fun p => g (e p) := by
  have hentry (p : Fin m) : (List.ofFn g)[(e p : ℕ)]? = some (g (e p)) := by
    rw [List.getElem?_ofFn, dif_pos (e p).isLt]
  have hplaces : List.ofFn (fun p => (e p : ℕ)) = (List.finRange m).map fun p => (e p : ℕ) := List.ofFn_eq_map
  have hpicked : List.ofFn (fun p => g (e p)) = (List.finRange m).map fun p => g (e p) := List.ofFn_eq_map
  rw [pick, hplaces, hpicked, List.filterMap_map, ← List.filterMap_eq_map]
  exact List.filterMap_congr fun p _ => hentry p

/-- If all entries of a list are different, only their own places pick them. -/
theorem mem_pick_iff {xs : List β} (hxs : xs.Nodup) {p : ℕ} {x : β} (hp : xs[p]? = some x) (places : List ℕ) :
    x ∈ pick places xs ↔ p ∈ places := by
  rw [pick, List.mem_filterMap]
  constructor
  · rintro ⟨i, hi, hx⟩
    have hlt := (List.getElem?_eq_some_iff.mp hx).1
    rwa [(List.getElem?_inj hlt hxs).mp (hx.trans hp.symm)] at hi
  · exact fun h => ⟨p, h, hp⟩

end Picking

section Nesting

variable {cell : ReferenceCell} {degree target : ℕ} (h : degree ≤ target)
include h

theorem pick_exponents (cell : ReferenceCell) :
    pick (embedding cell degree target) (cell.exponents target) = cell.exponents degree := by
  have hlt := lt_of_mem_degrees h
  have hrange := (pick_range (degree + 1) (List.range (target + 1))).trans (take_range_degrees h)
  have hsquare : pick (blockPlaces (target + 1) (List.range (degree + 1)) (List.range (degree + 1)))
      (List.range (target + 1) ×ˢ List.range (target + 1)) = List.range (degree + 1) ×ˢ List.range (degree + 1) := by
    refine (pick_blockPlaces hlt fun a _ => by simp).trans ?_
    simp only [pick_map, hrange]
    rfl
  cases cell with
  | point => rfl
  | interval => exact (pick_map _ _ _).trans (congrArg _ hrange)
  | triangle => exact (pick_map _ _ _).trans (congrArg _ (pick_triangleModes h))
  | quadrilateral => exact (pick_map _ _ _).trans (congrArg _ hsquare)
  | tetrahedron => exact (pick_map _ _ _).trans (congrArg _ (pick_tetrahedronModes h))
  | hexahedron =>
    refine (pick_map _ _ _).trans (congrArg _ ?_)
    rw [embedding_hexahedron]
    refine (pick_blockPlaces (lt_of_mem_blockPlaces hlt hlt) fun a _ => by simp [List.length_product]).trans ?_
    simp only [pick_map, hsquare, hrange]
    rfl

/-- The members of the smaller set are those of its degree or less. -/
theorem degree_le_iff_mem_embedding {p d : ℕ} (hp : (degrees cell target)[p]? = some d) :
    d ≤ degree ↔ p ∈ embedding cell degree target := by
  rw [ReferenceCell.degrees_eq_map, List.getElem?_map, Option.map_eq_some_iff] at hp
  obtain ⟨s, hs, rfl⟩ := hp
  have hlength := (ReferenceCell.mem_exponents_iff.mp (List.mem_of_getElem? hs)).length
  rw [← ReferenceCell.admits_iff_degree hlength, ← ReferenceCell.mem_exponents_iff, ← pick_exponents h,
    mem_pick_iff (cell.nodup_exponents target) hs]

end Nesting

section Degrees

variable {cell : ReferenceCell} {degree target n : ℕ}

/-- The place in the larger set of each member of the smaller one. -/
def place (cell : ReferenceCell) (h : degree ≤ target) : Fin (count cell degree) ↪ Fin (count cell target) where
  toFun p := ⟨(embedding cell degree target).get (p.cast (length_embedding cell degree target).symm),
    lt_of_mem_embedding h (List.get_mem _ _)⟩
  inj' p q hpq := by
    have hplaces := (nodup_embedding h cell).get_inj_iff.mp (congrArg Fin.val hpq)
    exact Fin.cast_injective _ hplaces

theorem ofFn_place (cell : ReferenceCell) (h : degree ≤ target) :
    (List.ofFn fun p => (place cell h p : ℕ)) = embedding cell degree target := by
  refine List.ext_get ?_ fun p hp _ => ?_
  · rw [List.length_ofFn, length_embedding]
  · rw [List.get_ofFn]
    rfl

theorem mem_embedding_iff (h : degree ≤ target) {p : Fin (count cell target)} :
    (p : ℕ) ∈ embedding cell degree target ↔ p ∈ Set.range (place cell h) := by
  rw [← ofFn_place cell h, List.mem_ofFn]
  exact exists_congr fun q => Fin.ext_iff.symm

/-- A member of the smaller set is the same polynomial at its place in the larger set. -/
theorem member_place (h : degree ≤ target) (p : Fin (count cell degree)) :
    member cell degree p = member cell target (place cell h p) := by
  refine MvPolynomial.funext fun x => ?_
  have hx : coordinates cell.dim (List.ofFn x) = x := by
    funext i
    simp [coordinates]
  have hlength : (List.ofFn x).length = cell.dim := List.length_ofFn
  have hpick := jets_eq_pick h cell (List.ofFn x)
  rw [jets_eq_jetAt hlength, jets_eq_jetAt hlength] at hpick
  have hlists : List.ofFn _ = pick (embedding cell degree target) (List.ofFn _) := Except.ok.inj hpick
  rw [← ofFn_place cell h, pick_ofFn] at hlists
  have hvalue := congrArg Jet.value (congrFun (List.ofFn_injective hlists) p)
  rwa [jetAt, jetAt, hx] at hvalue

theorem le_of_mem_degrees {d : ℕ} (h : d ∈ degrees cell n) : d ≤ n := by
  rw [ReferenceCell.degrees_eq_map] at h
  obtain ⟨s, hs, rfl⟩ := List.mem_map.mp h
  have hadmits := ReferenceCell.mem_exponents_iff.mp hs
  exact (ReferenceCell.admits_iff_degree hadmits.length).mp hadmits

/-- A member has exactly the degree that is listed for it. It has at most this degree, as a member of the set of the
degree; and it is no combination of the members of a smaller set that it is not in. -/
theorem polynomialDegree_member {p : Fin (count cell n)} {d : ℕ} (hd : (degrees cell n)[(p : ℕ)]? = some d) :
    cell.polynomialDegree (member cell n p) = d := by
  have hdn := le_of_mem_degrees (List.mem_of_getElem? hd)
  refine le_antisymm ?_ (not_lt.mp fun hlt => ?_)
  · obtain ⟨q, rfl⟩ := (mem_embedding_iff hdn).mp ((degree_le_iff_mem_embedding hdn hd).mp le_rfl)
    rw [← ReferenceCell.mem_polynomialSpace_iff_degree, ← member_place hdn]
    exact member_mem cell d q
  · let k := cell.polynomialDegree (member cell n p)
    have hkn : k ≤ n := (hlt.trans_le hdn).le
    have hnot : p ∉ Set.range (place cell hkn) := fun hp =>
      hlt.not_ge ((degree_le_iff_mem_embedding hkn hd).mpr ((mem_embedding_iff hkn).mpr hp))
    have hmembers : member cell n '' Set.range (place cell hkn) = Set.range (member cell k) := by
      rw [← Set.range_comp]
      exact congrArg Set.range (funext fun q => (member_place hkn q).symm)
    have hspan := (linearIndependent_member cell n).notMem_span_image hnot
    rw [hmembers, span_member] at hspan
    exact hspan (ReferenceCell.mem_polynomialSpace_iff_degree.mpr le_rfl)

theorem degrees_eq_ofFn (cell : ReferenceCell) (n : ℕ) :
    degrees cell n = List.ofFn fun p => cell.polynomialDegree (member cell n p) := by
  refine List.ext_getElem ?_ fun p hp hp' => ?_
  · rw [ReferenceCell.degrees_eq_map, List.length_map, ReferenceCell.length_exponents, List.length_ofFn]
  · rw [List.getElem_ofFn, polynomialDegree_member (List.getElem?_eq_getElem hp)]

end Degrees

/-- Polynomials that are the members of a set: the tables have their values and partial derivatives, and the list of
degrees has their degrees. -/
structure MemberPolynomials (cell : ReferenceCell) (n : ℕ) (P : Fin (count cell n) → MvPolynomial (Fin cell.dim) ℝ) :
    Prop where
  tabulate : ∀ points : List (List ℝ), (∀ x ∈ points, x.length = cell.dim) →
    tabulate cell n points = .ok (points.map fun x => List.ofFn fun p => jetAt x (P p))
  degrees : degrees cell n = List.ofFn fun p => cell.polynomialDegree (P p)

theorem memberPolynomials_member (cell : ReferenceCell) (n : ℕ) : MemberPolynomials cell n (member cell n) :=
  ⟨fun _ h => tabulate_eq_jetAt h n, degrees_eq_ofFn cell n⟩

/-- Expansion sets of different degrees are nested. At every point the loops write to each slot of the table of a set in
its turn, so the table holds just what they write. The places that the embedding lists are different places of the
larger set, one for each member of the smaller set, and the polynomials at these places of the larger set are the
members of the smaller one, with the degrees that both sets list for them. -/
theorem embedding_nests (cell : ReferenceCell) {degree target : ℕ} (h : degree ≤ target) :
    (∀ {α : Type} [Scalar α] (point : List α), cell.dim ≤ point.length →
      ∃ ws, writes cell degree point = .ok ws ∧ ws.map Prod.fst = List.range (count cell degree) ∧
        jets cell degree point = .ok (ws.map Prod.snd)) ∧
    ∃ (e : Fin (count cell degree) ↪ Fin (count cell target))
      (P : Fin (count cell target) → MvPolynomial (Fin cell.dim) ℝ),
      (embedding cell degree target = List.ofFn fun p => (e p : ℕ)) ∧
      MemberPolynomials cell target P ∧ MemberPolynomials cell degree (fun p => P (e p)) ∧
      ∀ p : Fin (count cell degree), (degrees cell degree)[(p : ℕ)]? = (degrees cell target)[(e p : ℕ)]? := by
  refine ⟨fun {α} _ point hpoint => ?_, place cell h, member cell target, (ofFn_place cell h).symm,
    memberPolynomials_member cell target, ?_, fun p => ?_⟩
  · obtain ⟨ws, hws⟩ := writes_of_le hpoint degree
    exact ⟨ws, hws, slots_of_writes hws, jets_of_writes hws⟩
  · simp only [← member_place h]
    exact memberPolynomials_member cell degree
  · simp only [degrees_eq_ofFn, List.getElem?_ofFn, Fin.is_lt, dif_pos, Fin.eta, member_place h]

/-- On the square the set of degree one is at the corner of the three by three members of the set of degree two. -/
theorem embedding_nests_square : 1 ≤ 2 ∧
    (∃ ws : List (ℕ × Jet ℝ), writes .quadrilateral 1 [1 / 4, 1 / 2] = .ok ws ∧ ws.map Prod.fst = [0, 1, 2, 3] ∧
      jets .quadrilateral 1 [1 / 4, 1 / 2] = .ok (ws.map Prod.snd)) ∧
    ∃ (e : Fin 4 ↪ Fin 9) (P : Fin 9 → MvPolynomial (Fin 2) ℝ),
      ([0, 1, 3, 4] = List.ofFn fun p => (e p : ℕ)) ∧
      ([0, 1, 2, 1, 1, 2, 2, 2, 2] = List.ofFn fun p => ReferenceCell.polynomialDegree .quadrilateral (P p)) ∧
      tabulate .quadrilateral 1 [[1 / 4, 1 / 2]] =
        .ok [List.ofFn fun p => jetAt [1 / 4, 1 / 2] (P (e p))] := by
  have hdegree : 1 ≤ 2 := by decide
  obtain ⟨hwrites, e, P, hplaces, hlarge, hsmall, -⟩ := embedding_nests .quadrilateral hdegree
  exact ⟨hdegree, hwrites [1 / 4, 1 / 2] le_rfl, e, P, hplaces, hlarge.degrees,
    hsmall.tabulate [[1 / 4, 1 / 2]] (by simp [ReferenceCell.dim])⟩

end Expansion
end Variational
