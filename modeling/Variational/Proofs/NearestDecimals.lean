import Variational.Proofs.PrintedNumbers

/-! Rounding to a number of decimal places. A number is rounded to the nearest multiple of the unit of its last place,
to the even one if two are as near; the place is counted from the leading digit of the number, so a carry may lead to
one digit more. -/
namespace Variational.Scientific

/-- The nearest integer, and the even one if another one is as near. -/
def NearestEven (x : ℚ) (n : ℤ) : Prop :=
  ∀ m : ℤ, |x - n| ≤ |x - m| ∧ (|x - n| = |x - m| → m = n ∨ Even n)

section Integers

variable {x y : ℚ} {m n : ℤ}

theorem one_le_abs_sub_add (h : m ≠ n) (x : ℚ) : 1 ≤ |x - m| + |x - n| := by
  have hone : (1 : ℚ) ≤ |((n : ℚ) - m)| := by exact_mod_cast Int.one_le_abs (sub_ne_zero.mpr h.symm)
  calc (1 : ℚ) ≤ |(n : ℚ) - m| := hone
    _ = |(x - m) - (x - n)| := by ring_nf
    _ ≤ |x - m| + |x - n| := abs_sub _ _

theorem nearestEven_iff : NearestEven x n ↔ |x - n| < 1 / 2 ∨ |x - n| = 1 / 2 ∧ Even n := by
  constructor
  · intro h
    obtain ⟨hbelow, hdown⟩ := h (n - 1)
    obtain ⟨habove, hup⟩ := h (n + 1)
    push_cast at hbelow hdown habove hup
    have hlow : -(1 / 2) ≤ x - n := by nlinarith [sq_le_sq.mpr hbelow]
    have hhigh : x - n ≤ 1 / 2 := by nlinarith [sq_le_sq.mpr habove]
    rcases (abs_le.mpr ⟨hlow, hhigh⟩).lt_or_eq with hlt | heq
    · exact .inl hlt
    refine .inr ⟨heq, ?_⟩
    -- Halfway to a neighbour, this one is as near.
    rcases eq_or_eq_neg_of_abs_eq heq with hd | hd
    · have htie : |x - (n + 1)| = 1 / 2 := by
        rw [show x - (n + 1) = -(1 / 2) by linarith, abs_neg]
        norm_num
      exact (hup (heq.trans htie.symm)).resolve_left (by omega)
    · have htie : |x - (n - 1)| = 1 / 2 := by
        rw [show x - (n - 1) = 1 / 2 by linarith]
        norm_num
      exact (hdown (heq.trans htie.symm)).resolve_left (by omega)
  · intro h m
    rcases eq_or_ne m n with rfl | hmn
    · exact ⟨le_rfl, fun _ => .inl rfl⟩
    have hone := one_le_abs_sub_add hmn x
    rcases h with h | ⟨h, heven⟩
    · exact ⟨by linarith, fun heq => by linarith⟩
    · exact ⟨by linarith, fun _ => .inr heven⟩

theorem NearestEven.abs_sub_le (h : NearestEven x n) : |x - n| ≤ 1 / 2 := by
  rcases nearestEven_iff.mp h with h | h
  · exact h.le
  · exact h.1.le

theorem nearestEven_self (n : ℤ) : NearestEven n n := by
  rw [nearestEven_iff, sub_self, abs_zero]
  norm_num

theorem NearestEven.neg (h : NearestEven x n) : NearestEven (-x) (-n) := by
  have habs : |-x - ((-n : ℤ) : ℚ)| = |x - n| := by
    rw [← abs_neg]
    push_cast
    ring_nf
  rwa [nearestEven_iff, habs, even_neg, ← nearestEven_iff]

theorem NearestEven.even_of_eq (h : NearestEven x n) (hx : |x - n| = 1 / 2) : Even n :=
  ((nearestEven_iff.mp h).resolve_left hx.not_lt).2

theorem NearestEven.mono (hx : NearestEven x m) (hy : NearestEven y n) (h : x ≤ y) : m ≤ n := by
  by_contra hlt
  have hmn : (n : ℚ) + 1 ≤ m := by exact_mod_cast not_le.mp hlt
  have hm := abs_le.mp hx.abs_sub_le
  have hn := abs_le.mp hy.abs_sub_le
  -- Both numbers lie halfway between the two integers, which are then both even.
  have hsucc : m = n + 1 := by
    have : (m : ℚ) = n + 1 := by linarith
    exact_mod_cast this
  have hxm : |x - m| = 1 / 2 := by
    rw [show x - m = -(1 / 2) by linarith, abs_neg]
    norm_num
  have hyn : |y - n| = 1 / 2 := by
    rw [show y - n = 1 / 2 by linarith]
    norm_num
  have hodd : Even (n + 1) := hsucc ▸ hx.even_of_eq hxm
  exact Int.even_add_one.mp hodd (hy.even_of_eq hyn)

theorem NearestEven.unique (h : NearestEven x m) (h' : NearestEven x n) : m = n :=
  le_antisymm (h.mono h' le_rfl) (h'.mono h le_rfl)

theorem nearestEven_roundDiv (num : ℕ) {den : ℕ} (hden : 0 < den) :
    NearestEven ((num : ℚ) / den) (roundDiv num den : ℕ) := by
  have hpos : (0 : ℚ) < den := by exact_mod_cast hden
  have hsplit : (num : ℚ) / den = (num / den : ℕ) + (num % den : ℕ) / den := by
    rw [div_eq_iff hpos.ne', add_mul, div_mul_cancel₀ _ hpos.ne', mul_comm]
    exact_mod_cast (Nat.div_add_mod num den).symm
  have hrest : num % den < den := Nat.mod_lt num hden
  rw [nearestEven_iff, roundDiv, hsplit]
  generalize num / den = q at *
  generalize num % den = r at *
  split_ifs with h
  · have habs : |((q : ℕ) + (r : ℚ) / den) - ((q : ℕ) : ℤ)| = r / den := by
      rw [Int.cast_natCast, add_sub_cancel_left, abs_of_nonneg (by positivity)]
    rw [habs]
    rcases h with h | ⟨h, heven⟩
    · left
      rw [div_lt_div_iff₀ hpos two_pos, one_mul, mul_comm]
      exact_mod_cast h
    · right
      rw [div_eq_div_iff hpos.ne' two_ne_zero, one_mul, mul_comm]
      exact ⟨by exact_mod_cast h, by exact_mod_cast Nat.even_iff.mpr heven⟩
  · have habs : |((q : ℕ) + (r : ℚ) / den) - ((q + 1 : ℕ) : ℤ)| = (den - r) / den := by
      have hle : (r : ℚ) / den ≤ 1 := (div_le_one hpos).mpr (by exact_mod_cast hrest.le)
      rw [abs_of_nonpos (by push_cast; linarith), sub_div, div_self hpos.ne']
      push_cast
      ring
    have hle : (r : ℚ) ≤ den := by exact_mod_cast hrest.le
    rw [habs]
    rcases lt_or_eq_of_le (not_lt.mp fun hlt => h (.inl hlt)) with hlt | heq
    · left
      have hcast : (den : ℚ) < 2 * r := by exact_mod_cast hlt
      rw [div_lt_div_iff₀ hpos two_pos]
      linarith
    · right
      have hcast : (den : ℚ) = 2 * r := by exact_mod_cast heq
      have hodd : ¬ q % 2 = 0 := fun heven => h (.inr ⟨heq.symm, heven⟩)
      rw [div_eq_div_iff hpos.ne' two_ne_zero]
      refine ⟨by linarith, ?_⟩
      exact_mod_cast Nat.even_iff.mpr (show (q + 1) % 2 = 0 by omega)

end Integers

section Digits

variable {num : ℕ}

theorem leadingExponent_le (hnum : 0 < num) (den : ℕ) :
    (den : ℚ) * 10 ^ leadingExponent num den ≤ num := by
  have hlog : 10 ^ Nat.log 10 num ≤ num := Nat.pow_log_le_self 10 hnum.ne'
  have hlt : den < 10 ^ (Nat.log 10 den + 1) := Nat.lt_pow_succ_log_self (by norm_num) den
  rw [leadingExponent, digitCount_eq, digitCount_eq]
  set e : ℤ := ((Nat.log 10 num + 1 : ℕ) : ℤ) - (Nat.log 10 den + 1 : ℕ) with he
  split_ifs with hless
  · calc (den : ℚ) * 10 ^ (e - 1) ≤ 10 ^ (Nat.log 10 den + 1) * 10 ^ (e - 1) := by
          gcongr
          exact_mod_cast hlt.le
      _ = 10 ^ Nat.log 10 num := by
          rw [← zpow_natCast, ← zpow_natCast, ← zpow_add₀ (by norm_num)]
          congr 1
          omega
      _ ≤ num := by exact_mod_cast hlog
  · have hpos : (0 : ℚ) < 10 ^ (-e).toNat := by positivity
    have hcast : (den : ℚ) * 10 ^ e.toNat ≤ num * 10 ^ (-e).toNat := by exact_mod_cast not_lt.mp hless
    rwa [← ten_zpow e, ← mul_assoc, mul_le_mul_iff_left₀ hpos] at hcast

/-- The leading exponent is the logarithm of the fraction. -/
theorem leadingExponent_eq (hnum : 0 < num) {den : ℕ} (hden : 0 < den) :
    leadingExponent num den = Int.log 10 ((num : ℚ) / den) := by
  have hden' : (0 : ℚ) < den := by exact_mod_cast hden
  have hpos : (0 : ℚ) < num / den := by positivity
  have hle : ((10 : ℕ) : ℚ) ^ leadingExponent num den ≤ num / den := by
    rw [le_div_iff₀ hden', mul_comm]
    exact_mod_cast leadingExponent_le hnum den
  have hlt : (num : ℚ) / den < ((10 : ℕ) : ℚ) ^ (leadingExponent num den + 1) := by
    rw [div_lt_iff₀ hden', mul_comm]
    exact_mod_cast lt_leadingExponent num hden
  have hlow := (Int.zpow_le_iff_le_log (by norm_num) hpos).mp hle
  have hhigh := (Int.lt_zpow_iff_log_lt (by norm_num) hpos).mp hlt
  omega

end Digits

/-- The unit of the last place of a number with the given places after its leading digit. -/
def unit (places : ℕ) (x : ℚ) : ℚ := 10 ^ (Int.log 10 |x| - places)

/-- The second number is the first one rounded to the given places after its leading digit. -/
def RoundsTo (places : ℕ) (x v : ℚ) : Prop := ∃ n : ℤ, NearestEven (x / unit places x) n ∧ v = n * unit places x

section Rounding

variable {places : ℕ} {x y v w : ℚ}

theorem unit_pos (places : ℕ) (x : ℚ) : 0 < unit places x := by
  unfold unit
  positivity

theorem pow_mul_unit (places : ℕ) (hx : 0 < x) :
    ((10 ^ places : ℕ) : ℚ) * unit places x = 10 ^ Int.log 10 x ∧
      ((10 ^ (places + 1) : ℕ) : ℚ) * unit places x = 10 ^ (Int.log 10 x + 1) := by
  have hpow (k : ℕ) (e : ℤ) (he : k + (Int.log 10 x - places) = e) : ((10 ^ k : ℕ) : ℚ) * unit places x = 10 ^ e := by
    rw [unit, abs_of_pos hx, Nat.cast_pow, ← zpow_natCast, Nat.cast_ofNat, ← zpow_add₀ (by norm_num), he]
  exact ⟨hpow _ _ (by ring), hpow _ _ (by push_cast; ring)⟩

/-- A positive number counted in units of its last place. -/
theorem units_between (places : ℕ) (hx : 0 < x) :
    ((10 ^ places : ℕ) : ℚ) ≤ x / unit places x ∧ x / unit places x < (10 ^ (places + 1) : ℕ) := by
  obtain ⟨hlow, hhigh⟩ := pow_mul_unit places hx
  rw [le_div_iff₀ (unit_pos places x), div_lt_iff₀ (unit_pos places x), hlow, hhigh]
  exact ⟨Int.zpow_log_le_self (by norm_num) hx, Int.lt_zpow_succ_log_self (by norm_num) x⟩

theorem NearestEven.bounds {n : ℤ} (hx : 0 < x) (h : NearestEven (x / unit places x) n) :
    ((10 ^ places : ℕ) : ℤ) ≤ n ∧ n ≤ (10 ^ (places + 1) : ℕ) := by
  obtain ⟨hlow, hhigh⟩ := units_between places hx
  exact ⟨(nearestEven_self _).mono h (by exact_mod_cast hlow), h.mono (nearestEven_self _) (by exact_mod_cast hhigh.le)⟩

theorem RoundsTo.neg (h : RoundsTo places x v) : RoundsTo places (-x) (-v) := by
  obtain ⟨n, hn, rfl⟩ := h
  have hunit : unit places (-x) = unit places x := by rw [unit, unit, abs_neg]
  refine ⟨-n, ?_, ?_⟩
  · rw [hunit, neg_div]
    exact hn.neg
  · rw [hunit]
    push_cast
    ring

theorem RoundsTo.nonneg (h : RoundsTo places x v) (hx : 0 ≤ x) : 0 ≤ v := by
  obtain ⟨n, hn, rfl⟩ := h
  have hpos := unit_pos places x
  have hle : (0 : ℤ) ≤ n := (nearestEven_self 0).mono hn (by positivity)
  have hcast : (0 : ℚ) ≤ n := by exact_mod_cast hle
  positivity

theorem RoundsTo.bounds (h : RoundsTo places x v) (hx : 0 < x) :
    10 ^ Int.log 10 x ≤ v ∧ v ≤ 10 ^ (Int.log 10 x + 1) := by
  obtain ⟨n, hn, rfl⟩ := h
  obtain ⟨hlow, hhigh⟩ := hn.bounds hx
  have hpos := unit_pos places x
  have hlow' : ((10 ^ places : ℕ) : ℚ) ≤ n := by exact_mod_cast hlow
  have hhigh' : (n : ℚ) ≤ (10 ^ (places + 1) : ℕ) := by exact_mod_cast hhigh
  rw [← (pow_mul_unit places hx).1, ← (pow_mul_unit places hx).2]
  exact ⟨mul_le_mul_of_nonneg_right hlow' hpos.le, mul_le_mul_of_nonneg_right hhigh' hpos.le⟩

theorem RoundsTo.mono_of_pos (h : RoundsTo places x v) (h' : RoundsTo places y w) (hx : 0 < x) (hxy : x ≤ y) :
    v ≤ w := by
  have hy : 0 < y := hx.trans_le hxy
  rcases (Int.log_mono_right (b := 10) hx hxy).lt_or_eq with hlog | hlog
  · -- The power of ten between the two numbers is between the rounded ones, too.
    calc v ≤ 10 ^ (Int.log 10 x + 1) := (h.bounds hx).2
      _ ≤ 10 ^ Int.log 10 y := by
        gcongr
        · norm_num
        · omega
      _ ≤ w := (h'.bounds hy).1
  · obtain ⟨m, hm, rfl⟩ := h
    obtain ⟨n, hn, rfl⟩ := h'
    have hunit : unit places x = unit places y := by rw [unit, unit, abs_of_pos hx, abs_of_pos hy, hlog]
    have hpos := unit_pos places y
    rw [hunit] at hm ⊢
    have hle : (m : ℚ) ≤ n := by exact_mod_cast hm.mono hn (by gcongr)
    gcongr

theorem RoundsTo.mono_of_nonneg (h : RoundsTo places x v) (h' : RoundsTo places y w) (hx : 0 ≤ x) (hxy : x ≤ y) :
    v ≤ w := by
  rcases hx.eq_or_lt with rfl | hx
  · obtain ⟨n, hn, rfl⟩ := h
    rw [zero_div] at hn
    rw [hn.unique (by exact_mod_cast nearestEven_self 0), Int.cast_zero, zero_mul]
    exact h'.nonneg hxy
  · exact h.mono_of_pos h' hx hxy

/-- Rounding is monotone. -/
theorem RoundsTo.mono (h : RoundsTo places x v) (h' : RoundsTo places y w) (hxy : x ≤ y) : v ≤ w := by
  rcases le_or_gt 0 x with hx | hx
  · exact h.mono_of_nonneg h' hx hxy
  rcases le_or_gt 0 y with hy | hy
  · have hv := h.neg.nonneg (neg_nonneg.mpr hx.le)
    exact (neg_nonneg.mp hv).trans (h'.nonneg hy)
  · exact neg_le_neg_iff.mp (h'.neg.mono_of_nonneg h.neg (neg_nonneg.mpr hy.le) (neg_le_neg hxy))

end Rounding

section Decimals

variable {num den : ℕ}

/-- The quotient that is rounded counts the units of the last place. -/
theorem scaled_eq (places : ℕ) (hnum : 0 < num) (hden : 0 < den) :
    let shift : ℤ := places - leadingExponent num den
    ((num * Nat.pow 10 shift.toNat : ℕ) : ℚ) / (den * Nat.pow 10 (-shift).toNat : ℕ) =
      num / den / unit places (num / den) := by
  intro shift
  have hpos : (0 : ℚ) < num / den := by positivity
  have hden' : (den : ℚ) ≠ 0 := by exact_mod_cast hden.ne'
  have hunit : unit places (num / den) * 10 ^ shift = 1 := by
    rw [unit, abs_of_pos hpos, ← leadingExponent_eq hnum hden, ← zpow_add₀ (by norm_num), sub_add_sub_cancel, sub_self,
      zpow_zero]
  have hshift := ten_zpow shift
  rw [Nat.pow_eq, Nat.pow_eq]
  push_cast
  rw [div_eq_div_iff (by positivity) (unit_pos _ _).ne', ← hshift]
  field_simp
  linear_combination hunit

/-- The number with its carry, if there is one. -/
theorem round_eq (places : ℕ) (hnum : 0 < num) (hden : 0 < den) :
    ∃ n : ℕ, NearestEven (num / den / unit places (num / den)) n ∧ round places num den =
      if n = 10 ^ (places + 1) then ⟨10 ^ places, Int.log 10 ((num : ℚ) / den) + 1⟩
      else ⟨n, Int.log 10 ((num : ℚ) / den)⟩ := by
  have hscaled := scaled_eq places hnum hden
  dsimp only at hscaled
  refine ⟨_, hscaled ▸ nearestEven_roundDiv _ (Nat.mul_pos hden (Nat.pow_pos (by norm_num))), ?_⟩
  rw [round, if_neg hnum.ne', ← leadingExponent_eq hnum hden]
  simp only [Nat.pow_eq]

/-- With a carry the number is ten units of the place before the last one, and nearest to the number in these, too. -/
theorem NearestEven.carry {x : ℚ} {places : ℕ} (h : NearestEven x (10 ^ (places + 1) : ℕ)) :
    NearestEven (x / 10) (10 ^ places : ℕ) := by
  have hle := abs_le.mp h.abs_sub_le
  push_cast at hle
  rw [pow_succ] at hle
  rw [nearestEven_iff]
  left
  rw [abs_lt]
  push_cast
  constructor <;> linarith

/-- What the digits and the exponent of a rounded number say about the number. -/
theorem round_spec (places num : ℕ) {den : ℕ} (hden : 0 < den) :
    let r := round places num den
    RoundsTo places (num / den) (r.value places) ∧
      NearestEven (num / den / 10 ^ (r.exponent - places)) r.mantissa ∧ (num ≠ 0 → 10 ^ places ≤ r.mantissa) := by
  intro r
  have hnearest : NearestEven 0 0 := by exact_mod_cast nearestEven_self 0
  rcases Nat.eq_zero_or_pos num with rfl | hnum
  · have hr : r = ⟨0, 0⟩ := if_pos rfl
    rw [hr, Nat.cast_zero, zero_div, zero_div]
    refine ⟨⟨0, by rwa [zero_div], ?_⟩, hnearest, fun h => absurd rfl h⟩
    rw [Rounded.value, Nat.cast_zero, zero_mul, Int.cast_zero, zero_mul]
  have hpos : (0 : ℚ) < num / den := by positivity
  obtain ⟨n, hn, hr⟩ := round_eq places hnum hden
  have hunit : unit places ((num : ℚ) / den) = 10 ^ (Int.log 10 ((num : ℚ) / den) - places) := by
    rw [unit, abs_of_pos hpos]
  split_ifs at hr with hcarry
  · have hr : r = ⟨10 ^ places, Int.log 10 ((num : ℚ) / den) + 1⟩ := hr
    subst hcarry
    have hnext : (10 : ℚ) ^ (Int.log 10 ((num : ℚ) / den) + 1 - places) = unit places (num / den) * 10 := by
      rw [hunit, ← zpow_add_one₀ (by norm_num)]
      congr 1
      ring
    rw [hr]
    refine ⟨⟨_, hn, ?_⟩, ?_, fun _ => le_rfl⟩
    · rw [Rounded.value, hnext]
      push_cast
      ring
    · rw [hnext, ← div_div]
      exact hn.carry
  · have hr : r = ⟨n, Int.log 10 ((num : ℚ) / den)⟩ := hr
    rw [hr]
    refine ⟨⟨_, hn, ?_⟩, ?_, fun _ => ?_⟩
    · rw [Rounded.value, hunit]
      rfl
    · rwa [← hunit]
    · exact_mod_cast (hn.bounds hpos).1

end Decimals

end Variational.Scientific
