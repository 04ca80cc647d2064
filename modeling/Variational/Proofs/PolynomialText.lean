import Variational.Proofs.PrintedNumbers
import Variational.Proofs.TensorNames

/-! What printed polynomials mean. A monomial is a product that groups to the left, with its coefficient in front unless
that is one; the determinant stands in one divisor at the end. Different symbols are different operands. -/
namespace Variational
open Code Grammar

namespace Symbol

/-- The name and the indices that a symbol is printed with. -/
def place : Symbol → String × List ℕ
  | coefficient n j => ("w", [n, j])
  | s => (s.name, [])

/-- The indices of entries of the Jacobian and of its inverse are single digits. -/
def ShortIndices : Symbol → Prop
  | jacobian i j => i < 10 ∧ j < 10
  | inverseJacobian i j => i < 10 ∧ j < 10
  | _ => True

theorem head?_place (s : Symbol) : s.place.1.toList.head? = some s.initial := by
  cases s with
  | coefficient => simp [place, initial]
  | _ => exact head?_name _

theorem isWordChar_place (s : Symbol) : ∀ c ∈ s.place.1.toList, isWordChar c = true := by
  have hnumber (n : ℕ) : ∀ c ∈ (toString n).toList, isWordChar c = true := by
    intro c hc
    exact isWordChar_of_isDigit (isDigit_of_mem_toString hc)
  cases s with
  | coefficient n j => simp [place, isWordChar, Char.isAlphanum]
  | jacobian i j | inverseJacobian i j =>
    simp only [place, name, String.toList_append, List.forall_mem_append]
    exact ⟨⟨by simp [toString, isWordChar, Char.isAlphanum], hnumber i⟩, hnumber j⟩
  | constant n =>
    simp only [place, name, String.toList_append, List.forall_mem_append]
    exact ⟨by simp [toString, isWordChar, Char.isAlphanum], hnumber n⟩

theorem toList_name (s : Symbol) : s.name.toList = s.place.1.toList ++ s.place.2.flatMap access := by
  cases s with
  | coefficient n j => simp [name, place, access, toString]
  | _ => simp [place]

theorem lexes_name (s : Symbol) : Lexes s.name.toList (.word s.place.1 :: s.place.2.flatMap Token.access) := by
  rw [toList_name]
  refine lexes_place (Grammar.lexes_name ?_ s.isWordChar_place ?_) _
  · intro hnil
    have hhead := s.head?_place
    rw [hnil] at hhead
    cases hhead
  · rw [head?_place]
    cases s <;> rfl

/-- A symbol is an operand. -/
theorem phrase_expr {K : Type} [Field K] (env : String × List ℕ → K) (places : ℕ) (s : Symbol) :
    Phrase env .operand ((s.expr : Expr Float).text places).toList (env s.place) ∧
      Opens ((s.expr : Expr Float).text places).toList := by
  rw [text_expr]
  refine ⟨⟨_, _, s.lexes_name, .place s.place.1 s.place.2, rfl⟩, s.initial, s.head?_name, .inl ?_⟩
  cases s <;> rfl

theorem digits_append_inj {i j k l : ℕ} (hi : i < 10) (hk : k < 10)
    (h : toString i ++ toString j = toString k ++ toString l) : i = k ∧ j = l := by
  have hlists := congrArg String.toList h
  rw [String.toList_append, String.toList_append] at hlists
  obtain ⟨hleft, hright⟩ := List.append_inj hlists ((length_digit hi).trans (length_digit hk).symm)
  exact ⟨toString_toList_inj hleft, toString_toList_inj hright⟩

theorem place_injective {s t : Symbol} (hs : s.ShortIndices) (ht : t.ShortIndices) (h : s.place = t.place) : s = t := by
  have hinitial : s.initial = t.initial := by
    have hhead := t.head?_place
    rw [← h, head?_place] at hhead
    exact Option.some.inj hhead
  cases s <;> cases t <;> simp only [initial, Char.reduceEq] at hinitial
  case jacobian.jacobian i j k l | inverseJacobian.inverseJacobian i j k l =>
    simp only [place, name, Prod.mk.injEq, and_true, String.append_assoc, String.append_right_inj] at h
    obtain ⟨rfl, rfl⟩ := digits_append_inj hs.1 ht.1 h
    rfl
  case constant.constant m n => simpa [place, name] using h
  case coefficient.coefficient m i n j => simpa [place] using h

/-- Symbols with the same text are read as the same operand. -/
theorem place_eq_of_name_eq {s t : Symbol} (h : s.name = t.name) : s.place = t.place := by
  have htokens := s.lexes_name.scan_eq.symm.trans (h ▸ t.lexes_name.scan_eq)
  have hs : Derives .sum (.word s.place.1 :: s.place.2.flatMap Token.access) (.place s.place.1 s.place.2) :=
    .product (.factor (.operand (.place _ _)))
  rw [Option.some.inj htokens] at hs
  have htree := hs.unique (.product (.factor (.operand (.place _ _))))
  rw [Tree.place.injEq] at htree
  exact Prod.ext htree.1 htree.2

theorem place_ne_determinant (s : Symbol) : s.place ≠ ("detJ", []) := by
  intro h
  have hhead := s.head?_place
  rw [h] at hhead
  cases s <;> simp [initial] at hhead

end Symbol

namespace Monomial

/-- The coefficient is not printed. -/
def hidesCoefficient {α : Type} [Scalar α] (m : Monomial α) : Bool := m.coefficient == 1 && !m.symbols.isEmpty

/-- The coefficient that the text has. -/
def printedCoefficient (places : ℕ) (m : Monomial Float) : ℚ :=
  if m.hidesCoefficient then 1 else Scientific.printed m.coefficient places

variable {K : Type} [Field K]

/-- The value of a monomial with the coefficient that the text has. -/
def printedValue (env : String × List ℕ → K) (places : ℕ) (m : Monomial Float) : K :=
  m.printedCoefficient places * (m.symbols.map fun s => env s.place).prod / env ("detJ", []) ^ m.detPower

variable (env : String × List ℕ → K) (places : ℕ) {m : Monomial Float} {ms : List (Monomial Float)}

theorem phrase_product (hm : (Scientific.Binary.ofFloat m.coefficient).isFinite = true) :
    Phrase env .product ((Expr.product ((if m.hidesCoefficient then [] else [.literal m.coefficient]) ++
      m.symbols.map Symbol.expr)).text places).toList
      (m.printedCoefficient places * (m.symbols.map fun s => env s.place).prod) := by
  unfold printedCoefficient
  split_ifs with hhides
  · obtain ⟨s, ss, hsymbols⟩ : ∃ s ss, m.symbols = s :: ss := by
      refine List.exists_cons_of_ne_nil fun hnil => ?_
      simp [hidesCoefficient, hnil] at hhides
    have hfirst := (s.phrase_expr env places).1.factor.product
    have hphrase := phrase_foldl_times hfirst fun t (_ : t ∈ ss) => t.phrase_expr env places
    rw [hsymbols]
    simpa [Expr.product] using hphrase
  · have hliteral : Phrase env .product ((Expr.literal m.coefficient).text places).toList
        (Scientific.printed m.coefficient places : ℚ) := (phrase_literal env places hm).product
    exact phrase_foldl_times hliteral fun t _ => t.phrase_expr env places

theorem phrase_determinant :
    Phrase env .operand ((Expr.name "detJ" : Expr Float).text places).toList (env ("detJ", [])) ∧
    Opens ((Expr.name "detJ" : Expr Float).text places).toList := by
  have hphrase := phrase_place env (s := "detJ") (by simp) (by simp [isWordChar, Char.isAlphanum]) (by simp) []
  exact ⟨by simpa [Expr.text] using hphrase, 'd', by simp [Expr.text], .inl rfl⟩

theorem phrase_divide {e d : Expr Float} {x y : K} (he : Phrase env .product (e.text places).toList x)
    (hd : Phrase env .operand (d.text places).toList y) (hopens : Opens (d.text places).toList) :
    Phrase env .product ((e.divide d).text places).toList (x / y) := by
  have hphrase := he.times .div rfl hd hopens
  simpa [Expr.divide, Expr.text, Op.sign, Op.mark, Op.value] using hphrase

/-- Division by a power of the determinant. -/
theorem phrase_quotient {e : Expr Float} {x : K} (he : Phrase env .product (e.text places).toList x) (p : ℕ) :
    Phrase env .product ((match p with
      | 0 => e
      | 1 => e.divide (.name "detJ")
      | p => e.divide (.parens (.product (List.replicate p (.name "detJ"))))).text places).toList
      (x / env ("detJ", []) ^ p) := by
  obtain ⟨hdeterminant, hopens⟩ := phrase_determinant env places
  match p with
  | 0 => simpa using he
  | 1 =>
    rw [pow_one]
    exact phrase_divide env places he hdeterminant hopens
  | p + 2 =>
    have hpower : Phrase env .product ((Expr.product (List.replicate (p + 2) (.name "detJ"))).text places).toList
        (env ("detJ", []) ^ (p + 2)) := by
      have hphrase := phrase_foldl_times hdeterminant.factor.product
        fun (u : Unit) (_ : u ∈ List.replicate (p + 1) ()) => phrase_determinant env places
      rw [List.map_replicate, List.map_replicate, List.prod_replicate, ← pow_succ'] at hphrase
      exact hphrase
    have hparens : Phrase env .operand
        ((Expr.parens (Expr.product (List.replicate (p + 2) (.name "detJ" : Expr Float)))).text places).toList
        (env ("detJ", []) ^ (p + 2)) := by
      simpa [Expr.text] using hpower.sum.parens
    exact phrase_divide env places he hparens ⟨'(', by simp [Expr.text], .inr rfl⟩

theorem phrase_expr (hm : (Scientific.Binary.ofFloat m.coefficient).isFinite = true) :
    Phrase env .product (m.expr.text places).toList (m.printedValue env places) :=
  phrase_quotient env places (phrase_product env places hm) m.detPower

/-- A sum of monomials. -/
theorem phrase_sumExpr (hms : ∀ m ∈ ms, (Scientific.Binary.ofFloat m.coefficient).isFinite = true) :
    Phrase env .sum ((sumExpr ms).text places).toList (ms.map (printedValue env places)).sum := by
  cases ms with
  | nil =>
    have hzero : Scientific.Binary.ofFloat (@OfNat.ofNat Float 0 (Scalar.numeral Float 0)) =
        .finite false 0 (-1074) := by
      decide
    have hliteral := (phrase_literal env places (by rw [hzero]; rfl)).product.sum
    rw [Scientific.printed_of_zero hzero, Rat.cast_zero] at hliteral
    exact hliteral
  | cons m ms =>
    rw [List.forall_mem_cons] at hms
    exact phrase_foldl_plus (phrase_expr env places hms.1).sum fun n hn => phrase_expr env places (hms.2 n hn)

/-- The text of a sum of monomials is an expression, and whatever the operands stand for, its value is the sum of the
products of the monomials with their printed coefficients. A literal denotes the decimal that is taken for its
coefficient, a symbol denotes its operand, and different symbols have different texts and operands. -/
theorem denotes_sumExpr (places : ℕ) (ms : List (Monomial Float))
    (hfinite : ∀ m ∈ ms, (Scientific.Binary.ofFloat m.coefficient).isFinite = true)
    (hshort : ∀ m ∈ ms, ∀ s ∈ m.symbols, s.ShortIndices) :
    (∀ (K : Type) [Field K] (env : String × List ℕ → K),
      Denotes env ((sumExpr ms).text places) (ms.map fun m => m.printedCoefficient places *
        (m.symbols.map fun s => env s.place).prod / env ("detJ", []) ^ m.detPower).sum ∧
      ∀ m ∈ ms, Denotes env (Scientific.literal m.coefficient places) (Scientific.printed m.coefficient places : ℚ) ∧
        ∀ s ∈ m.symbols, Denotes env s.name (env s.place)) ∧
    ∀ m ∈ ms, ∀ s ∈ m.symbols, s.place ≠ ("detJ", []) ∧
      ∀ n ∈ ms, ∀ t ∈ n.symbols, s ≠ t → s.name ≠ t.name ∧ s.place ≠ t.place := by
  refine ⟨fun K _ env => ⟨(phrase_sumExpr env places hfinite).denotes, fun m hm => ⟨?_, fun s _ => ?_⟩⟩,
    fun m hm s hs => ⟨s.place_ne_determinant, fun n hn t ht hne => ?_⟩⟩
  · exact (phrase_literal env places (hfinite m hm)).product.sum.denotes
  · have hphrase := (s.phrase_expr env places).1.factor.product.sum.denotes
    rwa [Symbol.text_expr] at hphrase
  · have hplace : s.place ≠ t.place :=
      fun h => hne (Symbol.place_injective (hshort m hm s hs) (hshort n hn t ht) h)
    exact ⟨fun h => hplace (Symbol.place_eq_of_name_eq h), hplace⟩

/-- A negative coefficient, and one that is left out in front of two factors and a square of the determinant. -/
theorem denotes_sumExpr_signed :
    (sumExpr [(⟨-2, 0, [.coefficient 0 1]⟩ : Monomial Float), ⟨1, 2, [.jacobian 0 0, .jacobian 0 1]⟩]).text 1 =
      "-2.0e+00*w[0][1] + J_00*J_01/(detJ*detJ)" ∧
    Denotes (fun p => (p.2.length : ℚ) + 2) "-2.0e+00*w[0][1] + J_00*J_01/(detJ*detJ)" (-7) := by
  have htext : (sumExpr [(⟨-2, 0, [.coefficient 0 1]⟩ : Monomial Float),
      ⟨1, 2, [.jacobian 0 0, .jacobian 0 1]⟩]).text 1 =
      "-2.0e+00*w[0][1] + J_00*J_01/(detJ*detJ)" := by decide +kernel
  have hdenotes := ((denotes_sumExpr 1 [⟨-2, 0, [.coefficient 0 1]⟩, ⟨1, 2, [.jacobian 0 0, .jacobian 0 1]⟩]
    (by decide) (by simp [Symbol.ShortIndices])).1 ℚ fun p => p.2.length + 2).1
  have hshown : hidesCoefficient (⟨-2, 0, [.coefficient 0 1]⟩ : Monomial Float) = false := by decide
  have hhidden : hidesCoefficient (⟨1, 2, [.jacobian 0 0, .jacobian 0 1]⟩ : Monomial Float) = true := by decide
  have hprinted : Scientific.printed (-2) 1 = -2 := by
    have hbinary : Scientific.Binary.ofFloat (-2) = .finite true (2 ^ 52) (-51) := by decide
    have hround : Scientific.round 1 (2 ^ 52 * Nat.pow 2 (-51 : ℤ).toNat) (Nat.pow 2 (-(-51) : ℤ).toNat) = ⟨20, 0⟩ := by
      decide +kernel
    rw [Scientific.printed, hbinary, Scientific.Binary.decimal, hround]
    norm_num [Scientific.Rounded.value]
  rw [htext] at hdenotes
  refine ⟨htext, ?_⟩
  norm_num [printedCoefficient, hshown, hhidden, hprinted, Symbol.place] at hdenotes
  exact hdenotes

end Monomial
end Variational
