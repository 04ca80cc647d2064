import Variational.Proofs.FloatSigns

/-! The numbers that doubles stand for. Finite doubles are compared as these numbers: mantissas are so large that a
larger exponent means a larger number. -/
namespace Variational.Scientific
open Float.Model Float.Model.UnpackedFloat

/-- The number that a finite double stands for. -/
def Binary.value : Binary → ℚ
  | finite negative m q => (if negative then -1 else 1) * (m * 2 ^ q)
  | _ => 0

/-- The exact value of a double. -/
def exact (x : Float) : ℚ := (Binary.ofFloat x).value

/-- The number as a fraction, up to the sign. -/
theorem mul_zpow_eq (m : ℕ) (q : ℤ) :
    (m : ℚ) * 2 ^ q = (m * Nat.pow 2 q.toNat : ℕ) / (Nat.pow 2 (-q).toNat : ℕ) := by
  have hpow : (2 : ℚ) ^ q * 2 ^ (-q).toNat = 2 ^ q.toNat := by
    rw [← zpow_natCast, ← zpow_natCast, ← zpow_add₀ (by norm_num)]
    congr 1
    omega
  rw [Nat.pow_eq, Nat.pow_eq, eq_div_iff (by positivity)]
  push_cast
  rw [mul_assoc, hpow]

/-- The mantissa is as large as it can be without leaving the range of the exponents. -/
structure Canonical (m : ℕ) (q : ℤ) : Prop where
  mantissa_lt : m < 2 ^ 53
  exponent_ge : -1074 ≤ q
  normal : q = -1074 ∨ 2 ^ 52 ≤ m

theorem canonical_of_unpack {b : BitVec 64} {s : Sign} {m : ℕ} {q : ℤ} {hm : 0 < m}
    (h : UnpackedFloat.unpack .binary64 b = .finite s m q hm) : Canonical m q := by
  have hmantissa : b.toNat % 2 ^ 52 < 2 ^ 52 := Nat.mod_lt _ (by norm_num)
  rw [unpack_eq] at h
  split_ifs at h
  · obtain ⟨-, rfl, rfl⟩ := UnpackedFloat.finite.inj h
    exact ⟨by omega, le_rfl, .inl rfl⟩
  · obtain ⟨-, rfl, rfl⟩ := UnpackedFloat.finite.inj h
    exact ⟨by omega, by omega, .inr (Nat.le_add_right _ _)⟩

variable {m n : ℕ} {q r : ℤ}

theorem Canonical.lt_of_exponent_lt (h : Canonical m q) (h' : Canonical n r) (hqr : q < r) :
    (m : ℚ) * 2 ^ q < n * 2 ^ r := by
  have hm : (m : ℚ) < 2 ^ 53 := by exact_mod_cast h.mantissa_lt
  have hn : (2 : ℚ) ^ 52 ≤ n := by
    have hq := h.exponent_ge
    exact_mod_cast h'.normal.resolve_left (by omega)
  calc (m : ℚ) * 2 ^ q < 2 ^ 53 * 2 ^ q := by gcongr
    _ = 2 ^ 52 * 2 ^ (q + 1) := by
      rw [zpow_add_one₀ (by norm_num)]
      ring
    _ ≤ n * 2 ^ r := by
      gcongr
      · norm_num
      · omega

theorem Canonical.compare_isLE (h : Canonical m q) (h' : Canonical n r) :
    ((compare q r).then (compare m n)).isLE = true ↔ (m : ℚ) * 2 ^ q ≤ n * 2 ^ r := by
  rcases lt_trichotomy q r with hqr | rfl | hqr
  · have hlt := h.lt_of_exponent_lt h' hqr
    simp [Std.compare_eq_lt.mpr hqr, hlt.le]
  · have hpos : (0 : ℚ) < 2 ^ q := by positivity
    simp [mul_le_mul_iff_left₀ hpos, Nat.isLE_compare]
  · have hlt := h'.lt_of_exponent_lt h hqr
    simp [Std.compare_eq_gt.mpr hqr, hlt]

section Values

variable (s : Sign) (hm : 0 < m)

@[simp] theorem value_zero : (Binary.ofUnpacked (.zero s)).value = 0 := by
  simp [Binary.ofUnpacked, Binary.value]

@[simp] theorem value_positive : (Binary.ofUnpacked (.finite .positive m q hm)).value = m * 2 ^ q := by
  simp [Binary.ofUnpacked, Binary.value, isNegative]

@[simp] theorem value_negative : (Binary.ofUnpacked (.finite .negative m q hm)).value = -(m * 2 ^ q) := by
  simp [Binary.ofUnpacked, Binary.value, isNegative]

end Values

section Signs

variable {x : Float} {negative : Bool} {m : ℕ} {q : ℤ}

theorem lt_zero_iff (hx : Binary.ofFloat x = .finite negative m q) : x < 0 ↔ negative = true ∧ m ≠ 0 := by
  rw [← below_zero_iff hx]
  change x < 0 ↔ decide (x < _) = true
  rw [decide_eq_true_iff]

theorem toBits_negZero : (-0.0 : Float).toBits.toNat = 2 ^ 63 := rfl

/-- The zero with a sign is told by its bits. -/
theorem toBits_eq_negZero_iff (hx : Binary.ofFloat x = .finite negative m q) :
    x.toBits = (-0.0 : Float).toBits ↔ negative = true ∧ m = 0 := by
  rw [← UInt64.toNat_inj, toBits_negZero]
  have hlt : x.toBits.toNat < 2 ^ 64 := x.toBits.toNat_lt
  rw [Binary.ofFloat] at hx
  generalize x.toBits.toNat = b at hx hlt
  simp only [Binary.ofBits, Nat.pow_eq] at hx
  split_ifs at hx
  · obtain ⟨rfl, rfl, -⟩ := Binary.finite.inj hx
    rw [beq_iff_eq]
    omega
  · obtain ⟨rfl, rfl, -⟩ := Binary.finite.inj hx
    omega

end Signs

theorem le_iff_unpack (x y : Float) : x ≤ y ↔ x.toModel.unpack.le y.toModel.unpack = true := by
  simp only [LE.le, Float.le, decide_eq_true_iff]
  rfl

/-- Finite doubles are compared as the numbers that they stand for. -/
theorem le_iff_exact_le {x y : Float} (hx : (Binary.ofFloat x).isFinite = true)
    (hy : (Binary.ofFloat y).isFinite = true) : x ≤ y ↔ exact x ≤ exact y := by
  rw [le_iff_unpack, exact, exact]
  rw [ofFloat_eq] at hx hy ⊢
  rw [ofFloat_eq]
  cases hunpack : x.toModel.unpack with
  | infinity | notANumber => simp [hunpack, Binary.ofUnpacked, Binary.isFinite] at hx
  | zero s =>
    cases hunpack' : y.toModel.unpack with
    | infinity | notANumber => simp [hunpack', Binary.ofUnpacked, Binary.isFinite] at hy
    | zero s' => simp [UnpackedFloat.le, UnpackedFloat.compare]
    | finite s' n r hn =>
      have hpos : (0 : ℚ) < n * 2 ^ r := by positivity
      cases s' <;> simp [UnpackedFloat.le, UnpackedFloat.compare, hpos, hpos.le]
  | finite s m q hm =>
    have hpos : (0 : ℚ) < m * 2 ^ q := by positivity
    cases hunpack' : y.toModel.unpack with
    | infinity | notANumber => simp [hunpack', Binary.ofUnpacked, Binary.isFinite] at hy
    | zero s' =>
      cases s <;> simp [UnpackedFloat.le, UnpackedFloat.compare, hpos, hpos.le]
    | finite s' n r hn =>
      have hpos' : (0 : ℚ) < n * 2 ^ r := by positivity
      have hcanonical := canonical_of_unpack hunpack
      have hcanonical' := canonical_of_unpack hunpack'
      -- Negative numbers are compared the other way round.
      cases s <;> cases s'
      · have hswap : ((compare q r).then (compare m n)).swap = (compare r q).then (compare n m) := by
          rw [Ordering.swap_then, ← Std.OrientedCmp.eq_swap, ← Std.OrientedCmp.eq_swap]
        have hmagnitude := hcanonical'.compare_isLE hcanonical
        simp [UnpackedFloat.le, UnpackedFloat.compare, hswap, hmagnitude]
      · have hlt : -((m : ℚ) * 2 ^ q) ≤ n * 2 ^ r := by linarith
        simp [UnpackedFloat.le, UnpackedFloat.compare, hlt]
      · have hlt : -((n : ℚ) * 2 ^ r) < m * 2 ^ q := by linarith
        simp [UnpackedFloat.le, UnpackedFloat.compare, hlt]
      · have hmagnitude := hcanonical.compare_isLE hcanonical'
        simp [UnpackedFloat.le, UnpackedFloat.compare, hmagnitude]

end Variational.Scientific
