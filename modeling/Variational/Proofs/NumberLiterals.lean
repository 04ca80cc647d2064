import Variational.Proofs.FloatValues
import Variational.Proofs.NearestDecimals

/-! The literals of doubles. A literal is a numeral in scientific notation, which is read in one way only, and it stands
for the number nearest to the double with the places that are asked for. -/
namespace Variational.Scientific

open Grammar (pointed)

/-- A number in scientific notation as it is written: a sign if it is negative, a digit, the places, and an exponent
with a sign and at least two digits. -/
structure Numeral (places : ℕ) where
  negative : Bool
  lead : Char
  fraction : List Char
  negativeExponent : Bool
  exponentDigits : List Char
  lead_digit : lead.isDigit = true
  fraction_digits : ∀ c ∈ fraction, c.isDigit = true
  exponent_digits : ∀ c ∈ exponentDigits, c.isDigit = true
  length_fraction : fraction.length = places
  two_le_length : 2 ≤ exponentDigits.length
  /-- Only an exponent of one digit has a zero in front. -/
  head_ne_zero : 2 < exponentDigits.length → exponentDigits.head? ≠ some '0'
  /-- The exponent zero is not negative. -/
  exponent_ne_zero : negativeExponent = true → Nat.ofDigitChars 10 exponentDigits 0 ≠ 0

namespace Numeral

variable {places : ℕ}

/-- The text of a numeral. The point is written only if there are places. -/
def chars (n : Numeral places) : List Char :=
  (if n.negative then ['-'] else []) ++
    n.lead :: (pointed n.fraction ++ Grammar.exponent n.negativeExponent n.exponentDigits)

/-- The number that the digits in front of the exponent are, with the sign. -/
def mantissa (n : Numeral places) : ℤ :=
  (if n.negative then -1 else 1) * Nat.ofDigitChars 10 (n.lead :: n.fraction) 0

def exponent (n : Numeral places) : ℤ :=
  (if n.negativeExponent then -1 else 1) * Nat.ofDigitChars 10 n.exponentDigits 0

def value (n : Numeral places) : ℚ := n.mantissa * 10 ^ (n.exponent - places)

theorem pointed_injective {cs ds : List Char} (h : pointed cs = pointed ds) : cs = ds := by
  unfold pointed at h
  split_ifs at h with hcs hds hds
  · rw [hcs, hds]
  · exact (List.cons.inj h).2

theorem length_pointed {cs ds : List Char} (h : cs.length = ds.length) : (pointed cs).length = (pointed ds).length := by
  have hnil : cs = [] ↔ ds = [] := by rw [← List.length_eq_zero_iff, h, List.length_eq_zero_iff]
  unfold pointed
  split_ifs with hcs hds hds
  · rfl
  · exact absurd (hnil.mp hcs) hds
  · exact absurd (hnil.mpr hds) hcs
  · rw [List.length_cons, List.length_cons, h]

theorem unsigned_inj {m n : Numeral places}
    (h : m.lead :: (pointed m.fraction ++ Grammar.exponent m.negativeExponent m.exponentDigits) =
      n.lead :: (pointed n.fraction ++ Grammar.exponent n.negativeExponent n.exponentDigits)) :
    m.lead = n.lead ∧ m.fraction = n.fraction ∧ m.negativeExponent = n.negativeExponent ∧
      m.exponentDigits = n.exponentDigits := by
  obtain ⟨hlead, htail⟩ := List.cons.inj h
  have hlength := length_pointed (m.length_fraction.trans n.length_fraction.symm)
  obtain ⟨hfraction, hexponent⟩ := List.append_inj htail hlength
  obtain ⟨hsign, hdigits⟩ := List.cons.inj (List.cons.inj hexponent).2
  refine ⟨hlead, pointed_injective hfraction, ?_, hdigits⟩
  cases hm : m.negativeExponent <;> cases hn : n.negativeExponent <;> simp [hm, hn] at hsign ⊢

/-- A text is that of one numeral at most. -/
theorem chars_injective : Function.Injective (chars : Numeral places → List Char) := by
  intro m n h
  have hminus (k : Numeral places) : k.lead ≠ '-' := fun hk => absurd (hk ▸ k.lead_digit) (by decide)
  have hparts : m.negative = n.negative ∧ m.lead = n.lead ∧ m.fraction = n.fraction ∧
      m.negativeExponent = n.negativeExponent ∧ m.exponentDigits = n.exponentDigits := by
    unfold chars at h
    cases hm : m.negative <;> cases hn : n.negative <;> rw [hm, hn] at h
    · exact ⟨rfl, unsigned_inj h⟩
    · exact absurd (List.cons.inj h).1 (hminus m)
    · exact absurd (List.cons.inj h).1.symm (hminus n)
    · exact ⟨rfl, unsigned_inj (List.cons.inj h).2⟩
  obtain ⟨hnegative, hlead, hfraction, hsign, hdigits⟩ := hparts
  cases m
  cases n
  simp_all

end Numeral

section Digits

theorem digit_lt {c : Char} (h : c.isDigit = true) : c.toNat - '0'.toNat < 10 := by
  simp only [Char.isDigit, Bool.and_eq_true, decide_eq_true_eq] at h
  have hnine : c.toNat ≤ 57 := by simpa [UInt32.le_iff_toNat_le] using h.2
  have hzero : '0'.toNat = 48 := rfl
  omega

theorem ofDigitChars_lt {ds : List Char} (h : ∀ c ∈ ds, c.isDigit = true) (start : ℕ) :
    Nat.ofDigitChars 10 ds start < (start + 1) * 10 ^ ds.length := by
  induction ds generalizing start with
  | nil => simp
  | cons c ds ih =>
    rw [List.forall_mem_cons] at h
    have hdigit := digit_lt h.1
    rw [Nat.ofDigitChars_cons, List.length_cons, pow_succ']
    calc _ < (10 * start + (c.toNat - '0'.toNat) + 1) * 10 ^ ds.length := ih h.2 _
      _ ≤ ((start + 1) * 10) * 10 ^ ds.length := Nat.mul_le_mul_right _ (by omega)
      _ = (start + 1) * (10 * 10 ^ ds.length) := by ring

/-- Exponents have two digits, and more only if they are large. -/
theorem padded_two (n : ℕ) : 2 ≤ (padded 2 n).length ∧ (2 < (padded 2 n).length → (padded 2 n).head? ≠ some '0') := by
  rw [padded, List.length_append, List.length_replicate]
  refine ⟨by omega, fun hlength => ?_⟩
  have hnone : 2 - (Nat.toDigits 10 n).length = 0 := by omega
  rw [hnone, List.replicate_zero, List.nil_append]
  refine (Grammar.head?_toDigits n).resolve_left fun hzero => ?_
  rw [hzero] at hlength
  simp at hlength

end Digits

/-- A rounded number is written as a numeral. -/
theorem exists_numeral (negative : Bool) {places : ℕ} {r : Rounded} (hr : r.mantissa < 10 ^ (places + 1)) :
    ∃ n : Numeral places, n.chars = (if negative then ['-'] else []) ++ literalStyle.rounded places r ∧
      n.negative = negative ∧ n.mantissa = (if negative then -1 else 1) * r.mantissa ∧ n.exponent = r.exponent ∧
      (10 ^ places ≤ r.mantissa → n.lead ≠ '0') := by
  obtain ⟨d, ds, hdigits, hlength, hmantissa, htext⟩ := Grammar.rounded_eq hr
  rw [List.forall_mem_cons] at hdigits
  have hsign : decide (r.exponent < 0) = true → Nat.ofDigitChars 10 (padded 2 r.exponent.natAbs) 0 ≠ 0 := by
    intro hneg
    rw [decide_eq_true_eq] at hneg
    rw [ofDigitChars_padded]
    omega
  let n : Numeral places := {
    negative, lead := d, fraction := ds, negativeExponent := r.exponent < 0
    exponentDigits := padded 2 r.exponent.natAbs
    lead_digit := hdigits.1, fraction_digits := hdigits.2, exponent_digits := padded_digits _ _
    length_fraction := hlength, two_le_length := (padded_two _).1, head_ne_zero := (padded_two _).2
    exponent_ne_zero := hsign }
  refine ⟨n, ?_, rfl, ?_, ?_, fun hlead hzero => ?_⟩
  · rw [htext]
    rfl
  · rw [← hmantissa]
    rfl
  · simp only [Numeral.exponent, n, ofDigitChars_padded, decide_eq_true_eq]
    split_ifs <;> omega
  · have hd : d = '0' := hzero
    have hlt := ofDigitChars_lt hdigits.2 0
    rw [hd, Nat.ofDigitChars_cons] at hmantissa
    rw [hlength] at hlt
    simp at hmantissa hlt
    omega

/-- The numeral of a finite double. -/
theorem exists_literal {x : Float} (hx : (Binary.ofFloat x).isFinite = true) (places : ℕ) :
    ∃ n : Numeral places, (literal x places).toList = n.chars ∧
      (n.negative = true ↔ x < 0 ∨ x.toBits = (-0.0 : Float).toBits) ∧
      (n.lead = '0' → exact x = 0) ∧
      NearestEven (exact x / 10 ^ (n.exponent - places)) n.mantissa ∧
      RoundsTo places (exact x) n.value := by
  cases hbinary : Binary.ofFloat x with
  | nan | infinite => simp [hbinary, Binary.isFinite] at hx
  | finite negative m q =>
    have hden : 0 < Nat.pow 2 (-q).toNat := Nat.pow_pos Nat.two_pos
    obtain ⟨hrounds, hnearest, hlead⟩ := round_spec places (m * Nat.pow 2 q.toNat) hden
    rw [← mul_zpow_eq] at hrounds hnearest
    obtain ⟨n, hchars, hnegative, hmantissa, hexponent, hzero⟩ :=
      exists_numeral negative (round_mantissa_lt places (m * Nat.pow 2 q.toNat) hden)
    have hexact : exact x = (if negative then -1 else 1) * (m * 2 ^ q) := by rw [exact, hbinary, Binary.value]
    have hvalue : n.value = (if negative then -1 else 1) *
        (round places (m * Nat.pow 2 q.toNat) (Nat.pow 2 (-q).toNat)).value places := by
      rw [Numeral.value, hmantissa, hexponent, Rounded.value]
      split_ifs <;> push_cast <;> ring
    refine ⟨n, ?_, ?_, fun hdigit => ?_, ?_, ?_⟩
    · rw [hchars, literal, Style.format, String.toList_ofList, hbinary, Style.chars]
    · rw [lt_zero_iff hbinary, toBits_eq_negZero_iff hbinary, hnegative, ← and_or_left]
      simp [em']
    · by_contra hne
      have hm : m * Nat.pow 2 q.toNat ≠ 0 := by
        refine Nat.mul_ne_zero (fun hm => hne ?_) (Nat.pow_pos Nat.two_pos).ne'
        rw [hexact, hm, Nat.cast_zero, zero_mul, mul_zero]
      exact hzero (hlead hm) hdigit
    · rw [hexact, hmantissa, hexponent]
      cases negative with
      | false => simpa using hnearest
      | true => simpa [neg_div] using hnearest.neg
    · rw [hexact, hvalue]
      cases negative with
      | false => simpa using hrounds
      | true => simpa using hrounds.neg

/-- The literal of a finite double is a numeral: its sign is that of the double, also of a zero, its first digit is zero
for zeros only, and in units of its last place it is the integer nearest to the double, the even one of two that are as
near. It is the double rounded at the places after its leading digit, so the literals of larger doubles are not
smaller. -/
theorem literal_nearest (places : ℕ) :
    (∀ x : Float, (Binary.ofFloat x).isFinite = true → ∃ n : Numeral places, (literal x places).toList = n.chars ∧
      (n.negative = true ↔ x < 0 ∨ x.toBits = (-0.0 : Float).toBits) ∧
      (n.lead = '0' → exact x = 0) ∧
      NearestEven (exact x / 10 ^ (n.exponent - places)) n.mantissa ∧
      RoundsTo places (exact x) n.value) ∧
    ∀ x y : Float, (Binary.ofFloat x).isFinite = true → (Binary.ofFloat y).isFinite = true → x ≤ y →
      ∀ m n : Numeral places, (literal x places).toList = m.chars → (literal y places).toList = n.chars →
        m.value ≤ n.value := by
  refine ⟨fun x hx => exists_literal hx places, fun x y hx hy hxy m n hm hn => ?_⟩
  obtain ⟨m', hm', -, -, -, hrounds⟩ := exists_literal hx places
  obtain ⟨n', hn', -, -, -, hrounds'⟩ := exists_literal hy places
  rw [Numeral.chars_injective (hm.symm.trans hm'), Numeral.chars_injective (hn.symm.trans hn')]
  exact hrounds.mono hrounds' ((le_iff_exact_le hx hy).mp hxy)

/-- Halfway between nine and ten the even number is taken, which has one digit more. -/
theorem literal_nearest_carry : literal 9.5 0 = "1e+01" ∧ exact 9.5 = 19 / 2 ∧
    (∃ n : Numeral 0, n.chars = "1e+01".toList ∧ RoundsTo 0 (19 / 2) n.value) ∧
    ∀ m n : Numeral 0, (literal 9.5 0).toList = m.chars → (literal 10.5 0).toList = n.chars → m.value ≤ n.value := by
  have hx : Binary.ofFloat 9.5 = .finite false 5348024557502464 (-49) := rfl
  have hy : Binary.ofFloat 10.5 = .finite false 5910974510923776 (-49) := rfl
  have hliteral : literal 9.5 0 = "1e+01" := by
    rw [literal, Style.format, hx]
    decide +kernel
  have hexact : exact 9.5 = 19 / 2 := by
    rw [exact, hx, Binary.value]
    norm_num
  have hfinite : (Binary.ofFloat 9.5).isFinite = true := by rw [hx, Binary.isFinite]
  have hfinite' : (Binary.ofFloat 10.5).isFinite = true := by rw [hy, Binary.isFinite]
  have hle : (9.5 : Float) ≤ 10.5 := by
    rw [le_iff_exact_le hfinite hfinite', exact, exact, hx, hy, Binary.value, Binary.value]
    norm_num
  obtain ⟨n, hchars, -, -, -, hrounds⟩ := (literal_nearest 0).1 9.5 hfinite
  rw [hliteral] at hchars
  rw [hexact] at hrounds
  exact ⟨hliteral, hexact, ⟨n, hchars.symm, hrounds⟩, (literal_nearest 0).2 9.5 10.5 hfinite hfinite' hle⟩

end Variational.Scientific
