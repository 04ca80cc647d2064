import Mathlib
import Variational.Code.Combination
import Variational.Proofs.PrintedNumbers

/-! Signs of doubles. Whether a double is below zero, and its absolute value, are told by its bits: the parts that it is
taken apart into for printing are those that comparisons and absolute values work on. -/
namespace Variational.Scientific
open Float.Model Float.Model.UnpackedFloat

section Fields

variable (b : BitVec 64)

theorem toNat_unpackMantissa : (@unpackMantissa .binary64 b).toNat = b.toNat % 2 ^ 52 := by
  simp [unpackMantissa, BitVec.extractLsb]

theorem toNat_unpackExponent : (@unpackExponent .binary64 b).toNat = b.toNat / 2 ^ 52 % 2 ^ 11 := by
  simp [unpackExponent, BitVec.extractLsb, Nat.shiftRight_eq_div_pow]

theorem toNat_unpackSign : (@unpackSign .binary64 b).toNat = b.toNat / 2 ^ 63 % 2 := by
  simp [unpackSign, BitVec.extractLsb, Nat.shiftRight_eq_div_pow]

theorem toNat_implicit (m : BitVec 52) : (1#1 ++ m).toNat = 2 ^ 52 + m.toNat := by
  rw [BitVec.toNat_append, ← Nat.shiftLeft_add_eq_or_of_lt m.isLt]
  simp [Nat.shiftLeft_eq]

theorem toNat_packComponents (e : BitVec 11) (m : BitVec 52) :
    (packComponents .binary64 .positive e m).toNat = e.toNat * 2 ^ 52 + m.toNat := by
  rw [packComponents, BitVec.toNat_append, ← Nat.shiftLeft_add_eq_or_of_lt m.isLt, BitVec.toNat_append]
  simp [Sign.toBitVec, Nat.shiftLeft_eq]

end Fields

def isNegative : Sign → Bool
  | .negative => true
  | .positive => false

/-- The sign in the bits of a double. -/
def signOf (b : BitVec 64) : Sign := Sign.ofBitVec (@unpackSign .binary64 b)

/-- The parts of a double by the class that it is in. -/
def Binary.ofUnpacked : UnpackedFloat → Binary
  | .notANumber => .nan
  | .infinity s => .infinite (isNegative s)
  | .zero s => .finite (isNegative s) 0 (-1074)
  | .finite s m e _ => .finite (isNegative s) m e

theorem isNegative_ofBitVec (b : BitVec 64) :
    isNegative (signOf b) = (b.toNat / 2 ^ 63 % 2 == 1) := by
  have hsign := toNat_unpackSign b
  unfold signOf
  rcases Nat.mod_two_eq_zero_or_one (b.toNat / 2 ^ 63) with hbit | hbit
  · have hzero : @unpackSign .binary64 b = 0#1 := BitVec.eq_of_toNat_eq (hsign.trans hbit)
    rw [hzero, hbit]
    rfl
  · have hone : @unpackSign .binary64 b = 1#1 := BitVec.eq_of_toNat_eq (hsign.trans hbit)
    rw [hone, hbit]
    rfl

/-- The classes that the fields of the bits tell apart. -/
theorem unpack_eq (b : BitVec 64) : UnpackedFloat.unpack .binary64 b =
    if b.toNat / 2 ^ 52 % 2 ^ 11 = 2047 then
      if b.toNat % 2 ^ 52 = 0 then .infinity (signOf b) else .notANumber
    else if b.toNat / 2 ^ 52 % 2 ^ 11 = 0 then
      if h : b.toNat % 2 ^ 52 = 0 then .zero (signOf b)
      else .finite (signOf b) (b.toNat % 2 ^ 52) (-1074) (Nat.pos_of_ne_zero h)
    else .finite (signOf b) (2 ^ 52 + b.toNat % 2 ^ 52) ((b.toNat / 2 ^ 52 % 2 ^ 11 : ℕ) - 1075)
      (by positivity) := by
  have hmantissa := toNat_unpackMantissa b
  have hexponent := toNat_unpackExponent b
  have hlarge : @unpackExponent .binary64 b = -1#11 ↔ b.toNat / 2 ^ 52 % 2 ^ 11 = 2047 := by
    rw [← BitVec.toNat_inj, hexponent]
    rfl
  have hsmall : @unpackExponent .binary64 b = 0#11 ↔ b.toNat / 2 ^ 52 % 2 ^ 11 = 0 := by
    rw [← BitVec.toNat_inj, hexponent]
    rfl
  have hnone : @unpackMantissa .binary64 b = 0#52 ↔ b.toNat % 2 ^ 52 = 0 := by
    rw [← BitVec.toNat_inj, hmantissa]
    rfl
  unfold UnpackedFloat.unpack
  simp only [hmantissa, hexponent, hlarge, hsmall, hnone, toNat_implicit]
  split_ifs
  · rfl
  · rfl
  · rfl
  · simp only [Format.exponentBias, signOf, finite.injEq, true_and]
    omega
  · simp [Format.exponentBias, signOf]

theorem ofBits_eq (b : BitVec 64) : Binary.ofBits b.toNat = .ofUnpacked (UnpackedFloat.unpack .binary64 b) := by
  have hsign := isNegative_ofBitVec b
  rw [unpack_eq]
  unfold Binary.ofBits
  simp only [Nat.pow_eq]
  split_ifs <;> simp_all [Binary.ofUnpacked]

/-- The parts of a double are those of its class. -/
theorem ofFloat_eq (x : Float) : Binary.ofFloat x = .ofUnpacked x.toModel.unpack :=
  ofBits_eq x.toBits.toBitVec

/-- The bits of the absolute value of a finite double are the same but for the sign. -/
theorem toNat_pack_abs {b : BitVec 64} (hb : b.toNat / 2 ^ 52 % 2 ^ 11 ≠ 2047) :
    (UnpackedFloat.pack .binary64 (UnpackedFloat.unpack .binary64 b).abs).toNat = b.toNat % 2 ^ 63 := by
  rw [unpack_eq, if_neg hb]
  split_ifs with hfield hfraction
  · rw [UnpackedFloat.abs, UnpackedFloat.pack, packedZero, toNat_packComponents]
    simp
    omega
  · have hlog : (b.toNat % 2 ^ 52).log2 < 52 := (Nat.log2_lt hfraction).mpr (Nat.mod_lt _ (by norm_num))
    have hnormal : (b.toNat % 2 ^ 52).log2 + 1 ≠ Format.binary64.mantissaBits := by
      change _ ≠ 53
      omega
    rw [UnpackedFloat.abs, UnpackedFloat.pack]
    dsimp only
    rw [if_neg (by decide), if_neg hnormal, toNat_packComponents]
    simp
    omega
  · have hlog : (2 ^ 52 + b.toNat % 2 ^ 52).log2 = 52 := by
      rw [Nat.log2_eq_iff (by positivity)]
      omega
    have hbiased : ((b.toNat / 2 ^ 52 % 2 ^ 11 : ℕ) - 1075 + (Format.binary64.exponentBias : ℤ) + (52 : ℕ)).toNat =
        b.toNat / 2 ^ 52 % 2 ^ 11 := by
      change ((b.toNat / 2 ^ 52 % 2 ^ 11 : ℕ) - 1075 + ((1023 : ℕ) : ℤ) + (52 : ℕ)).toNat = _
      omega
    rw [UnpackedFloat.abs, UnpackedFloat.pack]
    dsimp only
    rw [hbiased, hlog, if_neg (by omega), if_pos (by decide), toNat_packComponents]
    simp
    omega

/-- The absolute value has the same parts without the sign. -/
theorem ofFloat_abs {x : Float} {negative : Bool} {m : ℕ} {q : ℤ} (hx : Binary.ofFloat x = .finite negative m q) :
    Binary.ofFloat x.abs = .finite false m q := by
  have hfield : x.toBits.toNat / 2 ^ 52 % 2 ^ 11 ≠ 2047 := by
    intro hfield
    simp only [Binary.ofFloat, Binary.ofBits, Nat.pow_eq, hfield, if_true] at hx
    split_ifs at hx
  have hbits : x.abs.toBits.toNat = x.toBits.toNat % 2 ^ 63 := toNat_pack_abs hfield
  have hfields (n : ℕ) : n % 2 ^ 63 / 2 ^ 63 % 2 = 0 ∧ n % 2 ^ 63 / 2 ^ 52 % 2 ^ 11 = n / 2 ^ 52 % 2 ^ 11 ∧
      n % 2 ^ 63 % 2 ^ 52 = n % 2 ^ 52 := by
    omega
  obtain ⟨hsign, hexponent, hfraction⟩ := hfields x.toBits.toNat
  simp only [Binary.ofFloat, Binary.ofBits, Nat.pow_eq] at hx ⊢
  rw [hbits, hsign, hexponent, hfraction]
  split_ifs at hx ⊢ <;> simp_all

theorem below_iff (x y : Float) : Scalar.below x y = true ↔ x.toModel.unpack.lt y.toModel.unpack = true := by
  change decide (x < y) = true ↔ _
  rw [decide_eq_true_iff]
  simp only [LT.lt, Float.lt, decide_eq_true_iff]
  rfl

/-- A double is below zero if it has a sign and is not zero. -/
theorem below_zero_iff {x : Float} {negative : Bool} {m : ℕ} {q : ℤ} (hx : Binary.ofFloat x = .finite negative m q) :
    Scalar.below x 0 = true ↔ negative = true ∧ m ≠ 0 := by
  have hzero : (@OfNat.ofNat Float 0 (Scalar.numeral Float 0)).toModel.unpack = .zero .positive := rfl
  rw [below_iff, hzero]
  rw [ofFloat_eq] at hx
  cases hunpack : x.toModel.unpack with
  | infinity | notANumber => simp [hunpack, Binary.ofUnpacked] at hx
  | zero s =>
    rw [hunpack] at hx
    obtain ⟨-, rfl, -⟩ := Binary.finite.inj hx
    cases s <;> simp [UnpackedFloat.lt, UnpackedFloat.compare]
  | finite s m' e hpos =>
    rw [hunpack] at hx
    obtain ⟨rfl, rfl, -⟩ := Binary.finite.inj hx
    cases s <;> simp [UnpackedFloat.lt, UnpackedFloat.compare, isNegative, hpos.ne']

/-- Zero is not written as a coefficient. -/
theorem isZero_of_zero {x : Float} {negative : Bool} {q : ℤ} (hx : Binary.ofFloat x = .finite negative 0 q) :
    Code.Piece.isZero x = true := by
  have htolerance : (Scalar.tenth 15 : Float).toModel.unpack =
      .finite .positive 5070602400912918 (-102) (by decide) := rfl
  have habs := ofFloat_abs hx
  rw [ofFloat_eq] at habs
  refine (below_iff _ _).mpr ?_
  change x.abs.toModel.unpack.lt _ = true
  rw [htolerance]
  cases hunpack : x.abs.toModel.unpack with
  | infinity | notANumber => simp [hunpack, Binary.ofUnpacked] at habs
  | zero s => rfl
  | finite s m e hpos =>
    rw [hunpack] at habs
    exact absurd (Binary.finite.inj habs).2.1 hpos.ne'

end Variational.Scientific
