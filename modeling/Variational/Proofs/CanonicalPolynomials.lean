import Variational.Proofs.MonomialMeaning

/-! Collected sums of monomials as a normal form. A sum stands for a polynomial in the symbols and the inverse
determinant. Collecting like terms keeps it and leads to a sorted list, and a polynomial has only one such list. -/
namespace Variational

namespace Symbol

/-- Symbols are ordered by kind and then by their numbers. -/
def rank (s : Symbol) : ℕ ×ₗ ℕ ×ₗ ℕ := toLex (s.key.1, toLex s.key.2)

theorem rank_injective : Function.Injective rank := by
  intro s t h
  have hkey : s.key = t.key := by
    simpa only [rank, EmbeddingLike.apply_eq_iff_eq, Prod.mk.injEq, Prod.ext_iff] using h
  cases s <;> cases t <;> simp_all [key]

instance : LinearOrder Symbol := LinearOrder.lift' rank rank_injective

theorem lt_iff {s t : Symbol} : s < t ↔ rank s < rank t := Iff.rfl

theorem compare_eq_lt {s t : Symbol} : s.compare t = .lt ↔ s < t := by
  simp only [lt_iff, rank, Prod.Lex.toLex_lt_toLex, compare, Ordering.then_eq_lt, Nat.compare_eq_lt, Nat.compare_eq_eq]

theorem compare_eq_gt {s t : Symbol} : s.compare t = .gt ↔ t < s := by
  simp only [lt_iff, rank, Prod.Lex.toLex_lt_toLex, compare, Ordering.then_eq_gt, Nat.compare_eq_gt, Nat.compare_eq_eq]
  tauto

end Symbol

namespace Monomial

theorem compareSymbols_eq_lt {ss ts : List Symbol} : compareSymbols ss ts = .lt ↔ ss < ts := by
  induction ss generalizing ts with
  | nil => cases ts <;> simp [compareSymbols]
  | cons s ss ih =>
    cases ts with
    | nil => simp [compareSymbols]
    | cons t ts =>
      rw [compareSymbols, Ordering.then_eq_lt, Symbol.compare_eq_lt, Symbol.compare_eq_iff, ih, List.cons_lt_cons_iff]

section Order

theorem pairwise_insertSymbol (s : Symbol) {ss : List Symbol} (h : ss.Pairwise (· ≤ ·)) :
    (insertSymbol s ss).Pairwise (· ≤ ·) := by
  induction ss with
  | nil => simp [insertSymbol]
  | cons t ts ih =>
    obtain ⟨ht, hts⟩ := List.pairwise_cons.mp h
    rw [insertSymbol]
    split
    · rename_i hgt
      have hlt := Symbol.compare_eq_gt.mp hgt
      refine List.pairwise_cons.mpr ⟨fun u hu => ?_, ih hts⟩
      rcases List.mem_cons.mp ((insertSymbol_perm s ts).mem_iff.mp hu) with rfl | hu
      · exact hlt.le
      · exact ht u hu
    · rename_i hgt
      have hle : s ≤ t := not_lt.mp fun hlt => hgt (Symbol.compare_eq_gt.mpr hlt)
      refine List.pairwise_cons.mpr ⟨fun u hu => ?_, h⟩
      rcases List.mem_cons.mp hu with rfl | hu
      · exact hle
      · exact hle.trans (ht u hu)

theorem pairwise_sortSymbols (ss : List Symbol) : (sortSymbols ss).Pairwise (· ≤ ·) := by
  induction ss with
  | nil => exact List.Pairwise.nil
  | cons s ss ih => exact pairwise_insertSymbol s ih

variable {α : Type}

/-- Monomials are ordered by the power of the determinant and then by their symbols. -/
def key (m : Monomial α) : ℕ ×ₗ List Symbol := toLex (m.detPower, m.symbols)

theorem key_eq_iff {m n : Monomial α} : m.key = n.key ↔ m.detPower = n.detPower ∧ m.symbols = n.symbols := by
  simp [key]

theorem key_lt_iff {m n : Monomial α} :
    m.key < n.key ↔ m.detPower < n.detPower ∨ m.detPower = n.detPower ∧ m.symbols < n.symbols :=
  Prod.Lex.toLex_lt_toLex

theorem compare_eq_lt {m n : Monomial α} : m.compare n = .lt ↔ m.key < n.key := by
  simp only [compare, key_lt_iff, Ordering.then_eq_lt, Nat.compare_eq_lt, Nat.compare_eq_eq, compareSymbols_eq_lt]

theorem compare_eq_eq {m n : Monomial α} : m.compare n = .eq ↔ m.key = n.key := by
  simp only [compare, key_eq_iff, Ordering.then_eq_eq, Nat.compare_eq_eq, compareSymbols_eq_iff]

theorem lt_of_compare_eq_gt {m n : Monomial α} (h : m.compare n = .gt) : n.key < m.key := by
  refine lt_of_le_of_ne (not_lt.mp fun hlt => ?_) fun heq => ?_
  · rw [compare_eq_lt.mpr hlt] at h
    cases h
  · rw [compare_eq_eq.mpr heq.symm] at h
    cases h

end Order

section Collecting

variable {α : Type} [Scalar α]

theorem key_of_mem_collect {ms : List (Monomial α)} {m n : Monomial α} (h : n ∈ collect ms m) :
    n.key = m.key ∨ ∃ l ∈ ms, n.key = l.key := by
  induction ms with
  | nil =>
    obtain rfl := List.mem_singleton.mp h
    exact .inl rfl
  | cons l ls ih =>
    rw [collect] at h
    split at h
    · rcases List.mem_cons.mp h with rfl | h
      · exact .inl rfl
      · exact .inr ⟨n, h, rfl⟩
    · rcases List.mem_cons.mp h with rfl | h
      · exact .inr ⟨l, List.mem_cons_self, rfl⟩
      · exact .inr ⟨n, List.mem_cons_of_mem _ h, rfl⟩
    · rcases List.mem_cons.mp h with rfl | h
      · exact .inr ⟨n, List.mem_cons_self, rfl⟩
      · rcases ih h with h | ⟨k, hk, h⟩
        · exact .inl h
        · exact .inr ⟨k, List.mem_cons_of_mem _ hk, h⟩

theorem pairwise_collect {ms : List (Monomial α)} (h : ms.Pairwise fun m n => m.key < n.key) (m : Monomial α) :
    (collect ms m).Pairwise fun m n => m.key < n.key := by
  induction ms with
  | nil => exact List.pairwise_singleton _ _
  | cons n ns ih =>
    obtain ⟨hn, hns⟩ := List.pairwise_cons.mp h
    rw [collect]
    split
    · rename_i hlt
      have hlt := compare_eq_lt.mp hlt
      refine List.pairwise_cons.mpr ⟨fun l hl => ?_, h⟩
      rcases List.mem_cons.mp hl with rfl | hl
      · exact hlt
      · exact hlt.trans (hn l hl)
    · exact List.pairwise_cons.mpr ⟨hn, hns⟩
    · rename_i hgt
      refine List.pairwise_cons.mpr ⟨fun l hl => ?_, ih hns⟩
      rcases key_of_mem_collect hl with heq | ⟨k, hk, heq⟩
      · exact heq ▸ lt_of_compare_eq_gt hgt
      · exact heq ▸ hn k hk

end Collecting

/-- A sorted list of monomials with sorted symbols, none of which is zero. -/
structure IsCanonical {α : Type} [Zero α] (ms : List (Monomial α)) : Prop where
  increasing : ms.Pairwise fun m n => m.key < n.key
  sorted : ∀ m ∈ ms, m.symbols.Pairwise (· ≤ ·)
  nonzero : ∀ m ∈ ms, m.coefficient ≠ 0

section Simplify

variable {α : Type} [ExactScalar α] [LawfulBEq α]

theorem isCanonical_simplify (ms : List (Monomial α)) : IsCanonical (simplify ms) := by
  let sorted := ms.map fun m : Monomial α => { m with symbols := sortSymbols m.symbols }
  have hcollected : ∀ ns acc : List (Monomial α), (acc.Pairwise fun m n => m.key < n.key) →
      (∀ m ∈ acc ++ ns, m.symbols.Pairwise (· ≤ ·)) →
      ((ns.foldl collect acc).Pairwise fun m n => m.key < n.key) ∧
        ∀ m ∈ ns.foldl collect acc, m.symbols.Pairwise (· ≤ ·) := by
    intro ns
    induction ns with
    | nil => exact fun acc hacc hsorted => ⟨hacc, by simpa using hsorted⟩
    | cons n ns ih =>
      intro acc hacc hsorted
      refine ih (collect acc n) (pairwise_collect hacc n) fun m hm => ?_
      rcases List.mem_append.mp hm with hm | hm
      · rcases key_of_mem_collect hm with heq | ⟨l, hl, heq⟩
        · rw [(key_eq_iff.mp heq).2]
          exact hsorted n (by simp)
        · rw [(key_eq_iff.mp heq).2]
          exact hsorted l (by simp [hl])
      · exact hsorted m (by simp [hm])
  have hsorted : ∀ m ∈ [] ++ sorted, m.symbols.Pairwise (· ≤ ·) :=
    List.forall_mem_map.mpr fun m _ => pairwise_sortSymbols m.symbols
  obtain ⟨hincreasing, hsymbols⟩ := hcollected sorted [] List.Pairwise.nil hsorted
  refine ⟨hincreasing.filter _, fun m hm => hsymbols m (List.mem_of_mem_filter hm), fun m hm hzero => ?_⟩
  have hkeep := List.of_mem_filter hm
  simp [hzero] at hkeep

end Simplify

section Polynomials

variable {α : Type} [CommRing α]

open MvPolynomial in
/-- A monomial as a polynomial in the symbols and, as one more variable, the inverse determinant. -/
noncomputable def term (m : Monomial α) : MvPolynomial (Option Symbol) α :=
  C m.coefficient * X none ^ m.detPower * (m.symbols.map fun s => X (some s)).prod

/-- The formal polynomial of a sum of monomials. -/
noncomputable def polynomial (ms : List (Monomial α)) : MvPolynomial (Option Symbol) α := (ms.map term).sum

/-- The value of a monomial, where the symbols and the inverse determinant have values in a ring. -/
def value {R : Type} [CommRing R] [Algebra α R] (v : Symbol → R) (d : R) (m : Monomial α) : R :=
  algebraMap α R m.coefficient * d ^ m.detPower * (m.symbols.map v).prod

/-- Values of monomials come from the formal polynomial. -/
theorem aeval_polynomial {R : Type} [CommRing R] [Algebra α R] (v : Symbol → R) (d : R) (ms : List (Monomial α)) :
    MvPolynomial.aeval (fun s => s.elim d v) (polynomial ms) = (ms.map (value v d)).sum := by
  rw [polynomial, map_list_sum, List.map_map]
  refine congrArg _ (List.map_congr_left fun m _ => ?_)
  simp [term, value, map_list_prod, Function.comp_def]

/-- How often each variable is in a monomial. -/
noncomputable def exponents (m : Monomial α) : Option Symbol →₀ ℕ :=
  Finsupp.single none m.detPower + (m.symbols.map fun s => Finsupp.single (some s) 1).sum

theorem term_eq_monomial (m : Monomial α) : term m = MvPolynomial.monomial m.exponents m.coefficient := by
  have hsymbols (ss : List Symbol) : (ss.map fun s => (MvPolynomial.X (some s) : MvPolynomial (Option Symbol) α)).prod =
      MvPolynomial.monomial (ss.map fun s => Finsupp.single (some s) 1).sum 1 := by
    induction ss with
    | nil => rfl
    | cons s ss ih =>
      rw [List.map_cons, List.prod_cons, ih, List.map_cons, List.sum_cons, MvPolynomial.X, MvPolynomial.monomial_mul,
        one_mul]
  rw [term, hsymbols, MvPolynomial.X_pow_eq_monomial, MvPolynomial.C_mul_monomial, MvPolynomial.monomial_mul, mul_one,
    mul_one, exponents]

omit [CommRing α] in
/-- Sorted symbols follow from how often each of them occurs. -/
theorem key_eq_of_exponents_eq {m n : Monomial α} (hm : m.symbols.Pairwise (· ≤ ·)) (hn : n.symbols.Pairwise (· ≤ ·))
    (h : m.exponents = n.exponents) : m.key = n.key := by
  have hnone (ss : List Symbol) : (ss.map fun s => (Finsupp.single (some s) 1 : Option Symbol →₀ ℕ)).sum none = 0 := by
    induction ss with
    | nil => rfl
    | cons s ss ih => simp [ih]
  have hsome (ss : List Symbol) (t : Symbol) :
      (ss.map fun s => (Finsupp.single (some s) 1 : Option Symbol →₀ ℕ)).sum (some t) = ss.count t := by
    induction ss with
    | nil => rfl
    | cons s ss ih => simp [ih, List.count_cons, Finsupp.single_apply, add_comm]
  have hpower := DFunLike.congr_fun h none
  simp only [exponents, Finsupp.add_apply, hnone, Finsupp.single_eq_same, add_zero] at hpower
  have hperm : m.symbols.Perm n.symbols := List.perm_iff_count.mpr fun t => by
    have hcount := DFunLike.congr_fun h (some t)
    simpa [exponents, hsome] using hcount
  exact key_eq_iff.mpr ⟨hpower, hperm.eq_of_pairwise' hm hn⟩

theorem coeff_polynomial (e : Option Symbol →₀ ℕ) (ms : List (Monomial α)) :
    (polynomial ms).coeff e = (ms.map fun m => if m.exponents = e then m.coefficient else 0).sum := by
  rw [polynomial, ← MvPolynomial.lcoeff_apply, map_list_sum, List.map_map]
  refine congrArg _ (List.map_congr_left fun m _ => ?_)
  simp [term_eq_monomial, MvPolynomial.coeff_monomial]

namespace IsCanonical

variable {ms ns : List (Monomial α)}

theorem tail {m : Monomial α} (h : IsCanonical (m :: ms)) : IsCanonical ms :=
  ⟨(List.pairwise_cons.mp h.increasing).2, fun n hn => h.sorted n (List.mem_cons_of_mem _ hn),
    fun n hn => h.nonzero n (List.mem_cons_of_mem _ hn)⟩

/-- Different members have different exponents, so a coefficient of the polynomial is one of the list. -/
theorem coeff_eq (h : IsCanonical ms) {m : Monomial α} (hm : m ∈ ms) :
    (polynomial ms).coeff m.exponents = m.coefficient := by
  rw [coeff_polynomial]
  induction ms with
  | nil => cases hm
  | cons n ns ih =>
    have hapart (l : Monomial α) (hl : l ∈ ns) : n.exponents ≠ l.exponents := fun heq =>
      ((List.pairwise_cons.mp h.increasing).1 l hl).ne
        (key_eq_of_exponents_eq (h.sorted n List.mem_cons_self) (h.sorted l (List.mem_cons_of_mem _ hl)) heq)
    rw [List.map_cons, List.sum_cons]
    rcases List.mem_cons.mp hm with rfl | hm
    · rw [if_pos rfl, List.sum_eq_zero, add_zero]
      exact List.forall_mem_map.mpr fun l hl => if_neg (hapart l hl).symm
    · rw [if_neg (hapart m hm), zero_add, ih h.tail hm]

theorem subset_of_polynomial_eq (h : IsCanonical ms) (h' : IsCanonical ns) (heq : polynomial ms = polynomial ns) :
    ms ⊆ ns := by
  intro m hm
  have hcoeff : (polynomial ns).coeff m.exponents = m.coefficient := heq ▸ h.coeff_eq hm
  obtain ⟨n, hn, hexponents⟩ : ∃ n ∈ ns, n.exponents = m.exponents := by
    by_contra hnone
    push Not at hnone
    refine h.nonzero m hm ?_
    rw [← hcoeff, coeff_polynomial, List.sum_eq_zero]
    exact List.forall_mem_map.mpr fun n hn => if_neg (hnone n hn)
  obtain ⟨hpower, hsymbols⟩ := key_eq_iff.mp (key_eq_of_exponents_eq (h'.sorted n hn) (h.sorted m hm) hexponents)
  have hnumber : n.coefficient = m.coefficient := by
    rw [← hcoeff, ← hexponents, h'.coeff_eq hn]
  obtain ⟨c, p, ss⟩ := m
  obtain ⟨c', p', ss'⟩ := n
  subst hpower hsymbols hnumber
  exact hn

/-- A polynomial has only one canonical list. -/
theorem eq_of_polynomial_eq (h : IsCanonical ms) (h' : IsCanonical ns) (heq : polynomial ms = polynomial ns) :
    ms = ns := by
  have : Std.Irrefl fun m n : Monomial α => m.key < n.key := ⟨fun m => lt_irrefl _⟩
  have : Std.Antisymm fun m n : Monomial α => m.key < n.key := ⟨fun _ _ hlt hgt => absurd hgt hlt.asymm⟩
  exact List.Subset.antisymm_of_pairwise h.increasing h'.increasing (h.subset_of_polynomial_eq h' heq)
    (h'.subset_of_polynomial_eq h heq.symm)

end IsCanonical

end Polynomials

section NormalForm

variable {α : Type} [ExactScalar α]

theorem isAdditive_term : IsAdditive (term : Monomial α → MvPolynomial (Option Symbol) α) where
  zero p ss := by simp [term]
  add c d p ss := by simp only [term, map_add, add_mul]
  perm c p ss ts h := by simp only [term, (h.map _).prod_eq]

theorem polynomial_simplify (ms : List (Monomial α)) : polynomial (simplify ms) = polynomial ms :=
  isAdditive_term.sum_simplify ms

/-- Two sums of the same monomials, with the monomials and the symbols in them in any order. -/
def Rearranged (ms ns : List (Monomial α)) : Prop :=
  ∃ ls, ms.Perm ls ∧ List.Forall₂ (fun l n => l.coefficient = n.coefficient ∧ l.detPower = n.detPower ∧
    l.symbols.Perm n.symbols) ls ns

theorem Rearranged.polynomial_eq {ms ns : List (Monomial α)} (h : Rearranged ms ns) :
    polynomial ms = polynomial ns := by
  obtain ⟨ls, hperm, hlike⟩ := h
  rw [polynomial, (hperm.map term).sum_eq]
  clear hperm
  induction hlike with
  | nil => rfl
  | @cons l n ls ns hl _ ih =>
    obtain ⟨c, p, ss⟩ := l
    obtain ⟨hnumber, hpower, hsymbols⟩ := hl
    simp only at hnumber hpower
    subst hnumber hpower
    rw [List.map_cons, List.sum_cons, ih, isAdditive_term.perm _ _ hsymbols, polynomial, polynomial, List.map_cons,
      List.sum_cons]

variable [LawfulBEq α]

/-- Collecting like terms computes a normal form of sums of monomials, for any coefficients with exact arithmetic. The
value stays the same, whatever values in a ring the symbols and the inverse determinant have. The result is sorted, with
sorted symbols and without zeros, and two sums have the same result exactly when they are the same formal polynomial.
So doing it twice changes nothing, orders do not matter, and the result is empty exactly for the zero polynomial. -/
theorem simplify_canonical (ms : List (Monomial α)) :
    (∀ (R : Type) [CommRing R] [Algebra α R] (v : Symbol → R) (d : R),
      ((simplify ms).map (value v d)).sum = (ms.map (value v d)).sum) ∧
    IsCanonical (simplify ms) ∧
    (∀ ns, simplify ms = simplify ns ↔ polynomial ms = polynomial ns) ∧
    simplify (simplify ms) = simplify ms ∧
    (∀ ns, Rearranged ms ns → simplify ms = simplify ns) ∧
    (simplify ms = [] ↔ polynomial ms = 0) := by
  have hiff (ls ns : List (Monomial α)) : simplify ls = simplify ns ↔ polynomial ls = polynomial ns := by
    constructor
    · intro h
      rw [← polynomial_simplify ls, h, polynomial_simplify]
    · intro h
      refine (isCanonical_simplify ls).eq_of_polynomial_eq (isCanonical_simplify ns) ?_
      rw [polynomial_simplify, polynomial_simplify, h]
  refine ⟨fun R _ _ v d => ?_, isCanonical_simplify ms, hiff ms, (hiff _ _).mpr (polynomial_simplify ms),
    fun ns h => (hiff _ _).mpr h.polynomial_eq, hiff ms []⟩
  rw [← aeval_polynomial, ← aeval_polynomial, polynomial_simplify]

/-- Equality of real numbers is decided exactly. -/
instance : @LawfulBEq ℝ Scalar.toBEq :=
  @LawfulBEq.mk ℝ Scalar.toBEq ⟨decide_eq_true rfl⟩ ExactScalar.eq_of_beq

/-- Like terms with their symbols in different orders are added up, and others cancel. -/
theorem simplify_canonical_cancelling :
    let ms : List (Monomial ℝ) := [⟨2, 1, [.jacobian 0 1, .jacobian 0 0]⟩, ⟨1, 0, [.constant 0]⟩,
      ⟨3, 1, [.jacobian 0 0, .jacobian 0 1]⟩, ⟨-1, 0, [.constant 0]⟩]
    LawfulBEq ℝ ∧ simplify ms = [⟨5, 1, [.jacobian 0 0, .jacobian 0 1]⟩] ∧ IsCanonical (simplify ms) ∧
      simplify (simplify ms) = simplify ms ∧ polynomial ms ≠ 0 := by
  intro ms
  have hvalue : simplify ms = [⟨5, 1, [.jacobian 0 0, .jacobian 0 1]⟩] := by
    obtain ⟨z, hz, hcollected⟩ : ∃ z : ℝ, z = 0 ∧
        (ms.map fun m => { m with symbols := sortSymbols m.symbols }).foldl collect [] =
          [⟨z + 1 + -1, 0, [.constant 0]⟩, ⟨z + 2 + 3, 1, [.jacobian 0 0, .jacobian 0 1]⟩] :=
      ⟨_, Scalar.numeral_zero, rfl⟩
    have hnone : z + 1 + -1 = 0 := by linarith
    have hfive : z + 2 + 3 = 5 := by linarith
    rw [simplify, hcollected, hnone, hfive]
    simp
  obtain ⟨-, hcanonical, -, hidempotent, -, hempty⟩ := simplify_canonical ms
  refine ⟨inferInstance, hvalue, hcanonical, hidempotent, fun hzero => ?_⟩
  rw [hempty.mpr hzero] at hvalue
  cases hvalue

end NormalForm

end Monomial
end Variational
