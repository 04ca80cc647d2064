import Variational.Proofs.CodeMeaning
import Variational.Proofs.JacobiRecurrence
import Variational.Header.BasisEvaluation

/-! The arrays of Jacobi polynomials in the code that evaluates basis functions. Terms whose coefficients
are left out are zero, and the signs that are folded into the separators are those of the coefficients, so
each array holds the values of the polynomials. -/
namespace Variational
open Code Code.Memory

namespace Code.Piece

theorem isZero_iff (c : ℝ) : isZero c = true ↔ |c| < 1 / 10 ^ 15 := by
  have htenth : Scalar.tenth 15 = (1 / 10 ^ 15 : ℝ) := by
    simp only [Scalar.tenth, Scalar.numeral_eq_cast]
    norm_num
  rw [isZero, htenth]
  exact decide_eq_true_iff

theorem isZero_zero : isZero (0 : ℝ) = true := by
  rw [isZero_iff]
  norm_num

/-- Numbers that are large enough are written. -/
theorem isZero_of_le {c : ℝ} (h : 1 / 10 ^ 15 ≤ |c|) : isZero c = false := by
  rw [← Bool.not_eq_true, isZero_iff]
  exact not_lt.mpr h

theorem below_zero_iff (c : ℝ) : Scalar.below c 0 = true ↔ c < 0 := decide_eq_true_iff

end Code.Piece

namespace Code.Initial

variable {m : Memory}

theorem eval_joined {c₀ c₁ x : ℝ} {e : Expr ℝ} (he : e.eval m = some x) (htight : e.tightness = 3)
    (h₀ : c₀ = 0 ∨ 1 / 10 ^ 15 ≤ c₀) (h₁ : 1 / 10 ^ 15 ≤ c₁) :
    (Initial.joined [⟨c₀, [], false⟩, ⟨c₁, [e], false⟩]).eval m = some (c₀ + c₁ * x) := by
  have hpos : (0 : ℝ) < 1 / 10 ^ 15 := by norm_num
  have hone : Piece.isZero c₁ = false := Piece.isZero_of_le (h₁.trans (le_abs_self c₁))
  have hsign : Scalar.below c₁ 0 = false := by
    rw [← Bool.not_eq_true, Piece.below_zero_iff]
    linarith
  rcases h₀ with rfl | h₀
  · have hpieces : Piece.joined Weighted.coefficient [⟨0, [], false⟩, ⟨c₁, [e], false⟩] =
        [⟨"", c₁, ⟨c₁, [e], false⟩⟩] := by
      simp [Piece.joined, Piece.isZero_zero, hone]
    rw [Initial.eval, hpieces]
    simp [Piece.evalSum, Piece.eval, he, htight]
  · have hzero : Piece.isZero c₀ = false := Piece.isZero_of_le (h₀.trans (le_abs_self c₀))
    have hpieces : Piece.joined Weighted.coefficient [⟨c₀, [], false⟩, ⟨c₁, [e], false⟩] =
        [⟨"", c₀, ⟨c₀, [], false⟩⟩, ⟨" + ", c₁, ⟨c₁, [e], false⟩⟩] := by
      simp [Piece.joined, hzero, hone, hsign]
    rw [Initial.eval, hpieces]
    simp [Piece.evalSum, Piece.eval, Piece.hasSign, he, htight]

/-- A step of the recurrence: the coefficient of the constant may be zero, that of the variable is
positive and that of the polynomial before is negative. -/
theorem eval_folded {c₁ c₂ c₃ x y z : ℝ} {ex ey ez : Expr ℝ} (hx : ex.eval m = some x)
    (hy : ey.eval m = some y) (hz : ez.eval m = some z) (htx : ex.tightness = 3)
    (hty : ey.tightness = 3) (htz : ez.tightness = 3) (h₁ : c₁ = 0 ∨ 1 / 10 ^ 15 ≤ c₁)
    (h₂ : 1 / 10 ^ 15 ≤ c₂) (h₃ : c₃ ≤ -(1 / 10 ^ 15)) :
    (Initial.folded [⟨c₁, [ey], true⟩, ⟨c₂, [ex, ey], true⟩, ⟨c₃, [ez], true⟩]).eval m =
      some ((c₁ + c₂ * x) * y + c₃ * z) := by
  have hpos : (0 : ℝ) < 1 / 10 ^ 15 := by norm_num
  have htwo : Piece.isZero c₂ = false := Piece.isZero_of_le (h₂.trans (le_abs_self c₂))
  have hthree : Piece.isZero c₃ = false := Piece.isZero_of_le (by
    rw [abs_of_neg (by linarith)]
    linarith)
  have hsign₂ : Scalar.below c₂ 0 = false := by
    rw [← Bool.not_eq_true, Piece.below_zero_iff]
    linarith
  have hsign₃ : Scalar.below c₃ 0 = true := by
    rw [Piece.below_zero_iff]
    linarith
  have habs₂ : Scalar.abs c₂ = c₂ := abs_of_pos (by linarith)
  have habs₃ : Scalar.abs c₃ = -c₃ := abs_of_neg (by linarith)
  have hsigned : (0 : ℝ) ≤ -c₃ := by linarith
  -- When the first term is left out, the second one stands without a sign in front.
  rcases h₁ with rfl | h₁
  · have hpieces : Piece.folded Weighted.coefficient
          [⟨0, [ey], true⟩, ⟨c₂, [ex, ey], true⟩, ⟨c₃, [ez], true⟩] =
        [⟨"", c₂, ⟨c₂, [ex, ey], true⟩⟩, ⟨"-", -c₃, ⟨c₃, [ez], true⟩⟩] := by
      simp [Piece.folded, Piece.foldedAfter?, Piece.isZero_zero, htwo, hthree, hsign₂, hsign₃, habs₂,
        habs₃]
    rw [Initial.eval, hpieces]
    simp [Piece.evalSum, Piece.eval, Piece.hasSign, hx, hy, hz, htx, hty, htz, hsigned]
    ring
  · have hone : Piece.isZero c₁ = false := Piece.isZero_of_le (h₁.trans (le_abs_self c₁))
    have hpieces : Piece.folded Weighted.coefficient
          [⟨c₁, [ey], true⟩, ⟨c₂, [ex, ey], true⟩, ⟨c₃, [ez], true⟩] =
        [⟨"", c₁, ⟨c₁, [ey], true⟩⟩, ⟨"+", c₂, ⟨c₂, [ex, ey], true⟩⟩, ⟨"-", -c₃, ⟨c₃, [ez], true⟩⟩] := by
      simp [Piece.folded, Piece.foldedAfter?, hone, htwo, hthree, hsign₂, hsign₃, habs₂, habs₃]
    rw [Initial.eval, hpieces]
    simp [Piece.evalSum, Piece.eval, Piece.hasSign, hx, hy, hz, htx, hty, htz, hsigned]
    ring

end Code.Initial

namespace BasisEvaluation

/-- The parameters for which no coefficient is lost: zero, or one to which the degrees are bounded. -/
def Parameter (a : ℝ) (n : ℕ) : Prop := a = 0 ∨ 1 ≤ a ∧ ∃ bound : ℕ, bound ≤ 10 ^ 6 ∧
  a ≤ 2 * bound + 1 ∧ n ≤ bound

namespace Parameter

variable {a : ℝ} {n : ℕ}

theorem nonneg (h : Parameter a n) : 0 ≤ a := by
  rcases h with rfl | ⟨h, -⟩
  · exact le_refl 0
  · linarith

theorem linear_constant (h : Parameter a n) :
    (Jacobi.linear a 0).constant = 0 ∨ 1 / 10 ^ 15 ≤ (Jacobi.linear a 0).constant := by
  rw [Jacobi.linear_zero]
  rcases h with rfl | ⟨h, -⟩
  · exact .inl (zero_div 2)
  · refine .inr ?_
    have hsmall : (1 : ℝ) / 10 ^ 15 ≤ 1 / 2 := by norm_num
    linarith

theorem linear_slope (h : Parameter a n) : 1 / 10 ^ 15 ≤ (Jacobi.linear a 0).slope := by
  have hnonneg := h.nonneg
  have hsmall : (1 : ℝ) / 10 ^ 15 ≤ 1 := by norm_num
  rw [Jacobi.linear_zero]
  simp only
  linarith

theorem step_constant (h : Parameter a n) {k : ℕ} (hk : 2 ≤ k) (hkn : k ≤ n) :
    (Jacobi.step a 0 k).constant = 0 ∨ 1 / 10 ^ 15 ≤ (Jacobi.step a 0 k).constant := by
  rcases h with rfl | ⟨h, bound, hbound, ha, hn⟩
  · exact .inl (Jacobi.constant_zero k)
  · refine .inr (le_trans ?_ (Jacobi.constant_ge h ha hk (hkn.trans hn)))
    have hbound' : (bound : ℝ) ≤ 10 ^ 6 := by exact_mod_cast hbound
    have hpos : (2 : ℝ) ≤ bound := by exact_mod_cast hk.trans (hkn.trans hn)
    apply one_div_le_one_div_of_le (by nlinarith)
    nlinarith

end Parameter

variable {a x : ℝ} {n : ℕ} {var array : String} {m : Memory}

theorem length_recurrence (a : ℝ) (n : ℕ) (var array : String) :
    (recurrence a n var array).length = n + 1 := by
  simp [recurrence, Jacobi.steps]
  omega

/-- The value of each initializer, where the two before it are known. -/
theorem eval_recurrence (ha : Parameter a n) (hvar : var ≠ "*values") (harray : array ≠ "*values")
    {k : ℕ} {v : Initial ℝ} (hv : (recurrence a n var array)[k]? = some v)
    (hx : m.number var [] = some x)
    (hm : ∀ l < k, m.number array [l] = some (Jacobi.value a 0 l x)) :
    v.eval m = some (Jacobi.value a 0 k x) := by
  have hk : k < n + 1 := by
    rw [← length_recurrence a n var array]
    exact (List.getElem?_eq_some_iff.mp hv).1
  simp only [recurrence, Scalar.numeral_zero, List.getElem?_take_of_lt hk] at hv
  have hentry (l : ℕ) (hl : l < k) : (Expr.entry (.name array) (.natural l)).eval m =
      some (Jacobi.value a 0 l x) := by rw [Expr.eval_entry harray, hm l hl]
  have hvalue : (Expr.name var).eval m = some x := by rw [Expr.eval_name hvar, hx]
  match k with
  | 0 =>
    obtain rfl := Option.some.inj hv
    rw [Initial.eval, Expr.eval_one, Jacobi.value_zero, Scalar.numeral_one]
  | 1 =>
    obtain rfl := Option.some.inj hv
    rw [Jacobi.value_one]
    exact Initial.eval_joined hvalue rfl ha.linear_constant ha.linear_slope
  | k + 2 =>
    simp only [List.getElem?_cons_succ, List.getElem?_map, List.getElem?_zipIdx, Jacobi.steps] at hv
    rw [List.getElem?_range (by omega)] at hv
    obtain rfl := Option.some.inj hv
    rw [Jacobi.value_add_two]
    have hprevious := Jacobi.previous_le (k := k + 2) ha.nonneg (by omega)
    have hslope := Jacobi.one_le_slope (k := k + 2) ha.nonneg (by omega)
    have hsmall : (1 : ℝ) / 10 ^ 15 ≤ 1 / 4 := by norm_num
    rw [Nat.zero_add]
    exact Initial.eval_folded hvalue (hentry (k + 1) (by omega)) (hentry k (by omega)) rfl rfl rfl
      (ha.step_constant (by omega) (by omega)) (by linarith) (by linarith)

/-- The array of a recurrence holds the values of the polynomials. -/
theorem run_recurrence (ha : Parameter a n) (hvar : var ≠ "*values") (harray : array ≠ "*values")
    (hne : var ≠ array) (hx : m.number var [] = some x) :
    ∃ m', (Statement.array array (recurrence a n var array)).run m = some m' ∧ Frame {array} m m' ∧
      ∀ k ≤ n, m'.number array [k] = some (Jacobi.value a 0 k x) := by
  obtain ⟨m', hrun, hframe, hm'⟩ := Statement.run_array (m := m) (s := array)
    (f := fun k => Jacobi.value a 0 k x) fun k v hv m' hframe hl =>
      eval_recurrence ha hvar harray hv (by rw [hframe.number var hne, hx]) hl
  refine ⟨m', hrun, hframe, fun k hk => hm' k ?_⟩
  rw [length_recurrence]
  omega

end BasisEvaluation
end Variational
