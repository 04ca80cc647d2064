import Variational.Proofs.ExpressionText

/-! The decimals that doubles are printed as. The digits in front of an exponent are as many as the places ask for, so a
literal is read back as the number that its digits and its exponent stand for. -/
namespace Variational

namespace Scientific

def Binary.isFinite : Binary → Bool
  | finite .. => true
  | _ => false

/-- The decimal with the given digits and exponent. -/
def Rounded.value (places : ℕ) (r : Rounded) : ℚ := r.mantissa * 10 ^ (r.exponent - places)

/-- The decimal that a finite double is rounded to. -/
def Binary.decimal (places : ℕ) : Binary → ℚ
  | finite negative m q =>
    (if negative then -1 else 1) * (round places (m * Nat.pow 2 q.toNat) (Nat.pow 2 (-q).toNat)).value places
  | _ => 0

/-- The decimal that a number is printed as. -/
def printed (x : Float) (places : ℕ) : ℚ := (Binary.ofFloat x).decimal places

/-- Both zeros are printed as zero. -/
theorem printed_of_zero {x : Float} {negative : Bool} {q : ℤ}
    (hx : Binary.ofFloat x = .finite negative 0 q) (places : ℕ) :
    printed x places = 0 := by
  rw [printed, hx, Binary.decimal, Nat.zero_mul, round, if_pos rfl]
  simp [Rounded.value]

section Digits

theorem digitCount_eq (n : ℕ) : digitCount n = Nat.log 10 n + 1 := by
  induction n using Nat.strong_induction_on with
  | _ n ih =>
    rw [digitCount]
    split_ifs with hlt
    · rw [Nat.log_of_lt hlt]
    · rw [ih (n / 10) (by omega), Nat.log_of_one_lt_of_le (by norm_num) (not_lt.mp hlt)]

theorem ten_zpow (e : ℤ) : (10 : ℚ) ^ e * 10 ^ (-e).toNat = 10 ^ e.toNat := by
  rw [← zpow_natCast, ← zpow_natCast, ← zpow_add₀ (by norm_num)]
  congr 1
  omega

/-- A fraction is less than the power of ten after its leading one. -/
theorem lt_leadingExponent (num : ℕ) {den : ℕ} (hden : 0 < den) :
    (num : ℚ) < den * 10 ^ (leadingExponent num den + 1) := by
  have hnum : num < 10 ^ (Nat.log 10 num + 1) := Nat.lt_pow_succ_log_self (by norm_num) num
  have hlog : 10 ^ Nat.log 10 den ≤ den := Nat.pow_log_le_self 10 hden.ne'
  rw [leadingExponent, digitCount_eq, digitCount_eq]
  set e : ℤ := ((Nat.log 10 num + 1 : ℕ) : ℤ) - (Nat.log 10 den + 1 : ℕ) with he
  split_ifs with hlt
  · have hpos : (0 : ℚ) < 10 ^ (-e).toNat := by positivity
    have hcast : (num : ℚ) * 10 ^ (-e).toNat < den * 10 ^ e.toNat := by exact_mod_cast hlt
    rw [sub_add_cancel]
    rwa [← ten_zpow e, ← mul_assoc, mul_lt_mul_iff_left₀ hpos] at hcast
  · calc (num : ℚ) < 10 ^ (Nat.log 10 num + 1) := by exact_mod_cast hnum
      _ = 10 ^ Nat.log 10 den * 10 ^ (e + 1) := by
        rw [← zpow_natCast, ← zpow_natCast, ← zpow_add₀ (by norm_num)]
        congr 1
        omega
      _ ≤ den * 10 ^ (e + 1) := by
        gcongr
        exact_mod_cast hlog

theorem roundDiv_le {num den k : ℕ} (h : num < den * k) : roundDiv num den ≤ k := by
  have hlt : num / den < k := Nat.div_lt_of_lt_mul h
  rw [roundDiv]
  split_ifs
  · exact hlt.le
  · exact hlt

/-- A number is rounded to one digit and the places after it. -/
theorem round_mantissa_lt (places num : ℕ) {den : ℕ} (hden : 0 < den) :
    (round places num den).mantissa < 10 ^ (places + 1) := by
  rw [round]
  split_ifs with hnum
  · positivity
  set e := leadingExponent num den
  set shift : ℤ := places - e with hshift
  have hsum : e + 1 + shift = (places + 1 : ℕ) := by omega
  have hlt : num * 10 ^ shift.toNat < den * 10 ^ (-shift).toNat * 10 ^ (places + 1) := by
    have hscaled : (num : ℚ) * 10 ^ shift.toNat < den * 10 ^ (-shift).toNat * 10 ^ (places + 1) :=
      calc (num : ℚ) * 10 ^ shift.toNat < den * 10 ^ (e + 1) * 10 ^ shift.toNat := by
            gcongr
            exact lt_leadingExponent num hden
        _ = den * 10 ^ (-shift).toNat * (10 ^ (e + 1) * 10 ^ shift) := by
            rw [← ten_zpow shift]
            ring
        _ = den * 10 ^ (-shift).toNat * 10 ^ (places + 1) := by
            rw [← zpow_add₀ (by norm_num), hsum, zpow_natCast]
    exact_mod_cast hscaled
  have hle := roundDiv_le hlt
  dsimp only
  split_ifs with hcarry
  · exact Nat.pow_lt_pow_right (by norm_num) (Nat.lt_succ_self places)
  · exact lt_of_le_of_ne hle hcarry

theorem padded_digits (width n : ℕ) : ∀ c ∈ padded width n, c.isDigit = true := by
  intro c hc
  rcases List.mem_append.mp hc with hc | hc
  · rw [List.eq_of_mem_replicate hc]
    rfl
  · exact Nat.isDigit_of_mem_toDigits (by norm_num) (by norm_num) hc

theorem padded_ne_nil (width n : ℕ) : padded width n ≠ [] :=
  List.append_ne_nil_of_right_ne_nil _ (List.ne_nil_of_length_pos Nat.length_toDigits_pos)

theorem ofDigitChars_padded (width n : ℕ) : Nat.ofDigitChars 10 (padded width n) 0 = n := by
  rw [padded, Nat.ofDigitChars_append, Nat.ofDigitChars_replicate_zero, Nat.mul_zero, Nat.ofDigitChars_ten_toDigits]

theorem length_padded {width n : ℕ} (hwidth : 0 < width) (h : n < 10 ^ width) : (padded width n).length = width := by
  have hle := (Nat.length_toDigits_le_iff (by norm_num) hwidth).mpr h
  rw [padded, List.length_append, List.length_replicate, Nat.sub_add_cancel hle]

end Digits

end Scientific

namespace Grammar
open Scientific

/-- One digit stands in front of the point, and as many as the places behind it. -/
theorem rounded_eq {places : ℕ} {r : Rounded} (hr : r.mantissa < 10 ^ (places + 1)) :
    ∃ d ds, (∀ c ∈ d :: ds, c.isDigit = true) ∧ ds.length = places ∧ Nat.ofDigitChars 10 (d :: ds) 0 = r.mantissa ∧
      literalStyle.rounded places r =
        [d] ++ (pointed ds ++ exponent (r.exponent < 0) (padded 2 r.exponent.natAbs)) := by
  obtain ⟨d, ds, hpadded⟩ := List.exists_cons_of_ne_nil (padded_ne_nil (places + 1) r.mantissa)
  have hlength := length_padded places.succ_pos hr
  rw [hpadded, List.length_cons, Nat.add_left_inj] at hlength
  refine ⟨d, ds, hpadded ▸ padded_digits _ _, hlength, hpadded ▸ ofDigitChars_padded _ _, ?_⟩
  have hexponent : 'e' :: literalStyle.exponent r.exponent =
      exponent (r.exponent < 0) (padded 2 r.exponent.natAbs) := by
    by_cases hneg : r.exponent < 0 <;> simp [Style.exponent, exponent, literalStyle, hneg]
  rw [Style.rounded, hpadded, hexponent]
  cases ds <;> rfl

variable {K : Type} [Field K]

theorem phrase_rounded (env : String × List ℕ → K) {places : ℕ} {r : Rounded} (hr : r.mantissa < 10 ^ (places + 1)) :
    Phrase env .operand (literalStyle.rounded places r) (r.value places : ℚ) ∧
      Opens (literalStyle.rounded places r) := by
  obtain ⟨d, ds, hdigits, hlength, hmantissa, htext⟩ := rounded_eq hr
  rw [List.forall_mem_cons] at hdigits
  have hlexes := lexes_decimal (List.cons_ne_nil d []) (List.forall_mem_singleton.mpr hdigits.1) hdigits.2
    (padded_ne_nil 2 r.exponent.natAbs) (padded_digits _ _) (r.exponent < 0)
  have hvalue : decimal [d] ds (r.exponent < 0) (padded 2 r.exponent.natAbs) = r.value places := by
    rw [decimal, Rounded.value, List.singleton_append, hmantissa, ofDigitChars_padded, hlength]
    congr 3
    split_ifs with hneg <;> simp at hneg <;> omega
  rw [hvalue, ← htext] at hlexes
  refine ⟨⟨_, _, hlexes, .number _, rfl⟩, d, ?_, .inl (isWordChar_of_isDigit hdigits.1)⟩
  rw [htext]
  rfl

/-- The literal of a finite number denotes the decimal that it prints, with a sign in front if the number has one. -/
theorem phrase_literal (env : String × List ℕ → K) (places : ℕ) {x : Float}
    (hx : (Binary.ofFloat x).isFinite = true) :
      Phrase env .factor (literal x places).toList (printed x places : ℚ) := by
  rw [literal, Style.format, String.toList_ofList, printed]
  cases hbinary : Binary.ofFloat x with
  | nan => simp [hbinary, Binary.isFinite] at hx
  | infinite => simp [hbinary, Binary.isFinite] at hx
  | finite negative m q =>
    have hden : 0 < Nat.pow 2 (-q).toNat := Nat.pow_pos Nat.two_pos
    obtain ⟨hphrase, hopens⟩ := phrase_rounded env (round_mantissa_lt places (m * Nat.pow 2 q.toNat) hden)
    cases negative with
    | false => simpa [Style.chars, Binary.decimal] using hphrase.factor
    | true => simpa [Style.chars, Binary.decimal] using hphrase.neg hopens

end Grammar
end Variational
