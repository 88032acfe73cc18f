import Mathlib.Data.Nat.Bitwise
import Mathlib.Data.Int.Init

/-! Machine words: masks and unions of words as arithmetic, and the conversion to a C `int`. -/
namespace Foundation

variable {w : ℕ}

/-- Clearing the low `k` bits rounds down to a multiple of `2 ^ k`. -/
theorem toNat_and_not_low (x : BitVec w) (k : ℕ) :
    (x &&& ~~~(BitVec.ofNat w (2 ^ k - 1))).toNat = x.toNat / 2 ^ k * 2 ^ k := by
  have h : x &&& ~~~(BitVec.ofNat w (2 ^ k - 1)) = (x >>> k) <<< k := by
    apply BitVec.eq_of_getLsbD_eq
    intro i hi
    simp only [BitVec.getLsbD_and, BitVec.getLsbD_not, hi, BitVec.getLsbD_ofNat,
      Nat.testBit_two_pow_sub_one, BitVec.getLsbD_shiftLeft, BitVec.getLsbD_ushiftRight,
      decide_true, Bool.true_and]
    by_cases hk : i < k
    · simp [hk]
    · simp [hk, show k + (i - k) = i by omega]
  have hle := Nat.div_mul_le_self x.toNat (2 ^ k)
  rw [h, BitVec.toNat_shiftLeft, BitVec.toNat_ushiftRight, Nat.shiftRight_eq_div_pow,
    Nat.shiftLeft_eq, Nat.mod_eq_of_lt (by have := x.isLt; omega)]

/-- Keeping the low `k` bits is the remainder by `2 ^ k`. -/
theorem toNat_and_low (x : BitVec w) (k : ℕ) (hk : k ≤ w) :
    (x &&& BitVec.ofNat w (2 ^ k - 1)).toNat = x.toNat % 2 ^ k := by
  have hpos : 0 < 2 ^ k := Nat.two_pow_pos k
  have hle : 2 ^ k ≤ 2 ^ w := Nat.pow_le_pow_right (by omega) hk
  rw [BitVec.toNat_and, BitVec.toNat_ofNat, Nat.mod_eq_of_lt (by omega),
    Nat.and_two_pow_sub_one_eq_mod]

/-- Cutting a word down to `k` bits keeps the low bits, masked out before or not. -/
theorem setWidth_and_low (x : BitVec w) (k : ℕ) (hk : k ≤ w) :
    (x &&& BitVec.ofNat w (2 ^ k - 1)).setWidth k = x.setWidth k := by
  apply BitVec.eq_of_toNat_eq
  rw [BitVec.toNat_setWidth, BitVec.toNat_setWidth, toNat_and_low x k hk, Nat.mod_mod]

/-- Or-ing a small word into a multiple of `2 ^ k` adds it. -/
theorem toNat_or_low {x y : BitVec w} {k : ℕ} (hx : x.toNat % 2 ^ k = 0)
    (hy : y.toNat < 2 ^ k) : (x ||| y).toNat = x.toNat + y.toNat := by
  have hd : 2 ^ k * (x.toNat / 2 ^ k) = x.toNat := by
    have := Nat.div_add_mod x.toNat (2 ^ k)
    omega
  rw [BitVec.toNat_or, ← hd, ← Nat.two_pow_add_eq_or_of_lt hy]

/-- A wrap-around counter moved twice is moved by the sum. -/
theorem sub_ofNat_sub_ofNat (x : BitVec w) (a b : ℕ) :
    x - BitVec.ofNat w a - BitVec.ofNat w b = x - BitVec.ofNat w (a + b) := by
  rw [BitVec.ofNat_add]
  generalize BitVec.ofNat w a = y
  generalize BitVec.ofNat w b = z
  rw [BitVec.sub_eq_add_neg, BitVec.sub_eq_add_neg, BitVec.sub_eq_add_neg, BitVec.neg_add,
    BitVec.sub_eq_add_neg, BitVec.add_assoc]

/-- The value of a 64-bit word converted to a C `int`. -/
def cInt (x : BitVec 64) : ℤ := (x.setWidth 32).toInt

theorem cInt_ofNat (n : ℕ) : cInt (BitVec.ofNat 64 n) = (n : ℤ).bmod (2 ^ 32) := by
  have h : n % 2 ^ 64 % 2 ^ 32 = n % 2 ^ 32 := by omega
  rw [cInt, BitVec.toInt_eq_toNat_bmod, BitVec.toNat_setWidth, BitVec.toNat_ofNat, h]
  exact_mod_cast Int.emod_bmod (n : ℤ) (2 ^ 32)

theorem cInt_ofNat_of_lt {n : ℕ} (h : n < 2 ^ 31) : cInt (BitVec.ofNat 64 n) = n := by
  rw [cInt_ofNat, Int.bmod_def]
  split <;> omega

/-- The conversion looks at a word modulo `2 ^ 32` only. -/
theorem cInt_congr {x y : BitVec 64} (h : x.toNat % 2 ^ 32 = y.toNat % 2 ^ 32) :
    cInt x = cInt y := by
  have hw : x.setWidth 32 = y.setWidth 32 := by
    apply BitVec.eq_of_toNat_eq
    simpa only [BitVec.toNat_setWidth] using h
  rw [cInt, cInt, hw]

end Foundation
