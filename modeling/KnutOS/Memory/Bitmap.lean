import Mathlib.Logic.Function.Basic
import KnutOS.Memory.Mem

/-! The allocation bitmap, byte by byte (`libk/alloc/bitmap.c`), and what its calls do to
the single bits. -/
namespace KnutOS

open Foundation

/-- `BITMAP_t` with the memory it points at: `bytes k` is `map[k]`. Only the offsets from 0
to `size - 1` belong to the bitmap; the rest is whatever lies around it. -/
structure Bitmap where
  map : Word
  size : Word
  bytes : ℤ → BitVec 8

/-- `1 << (bit % 8)` stored to a byte. C's `%` truncates towards zero, and the shift
instruction takes its count modulo 32. -/
def bitMask (bit : ℤ) : BitVec 8 := (1#32 <<< (bit.tmod 8 % 32).toNat).setWidth 8

def bitmapSetBit (bitmap : Bitmap) (bit : ℤ) : Bitmap :=
  { bitmap with
    bytes := Function.update bitmap.bytes (bit.tdiv 8)
      (bitmap.bytes (bit.tdiv 8) ||| bitMask bit) }

def bitmapUnsetBit (bitmap : Bitmap) (bit : ℤ) : Bitmap :=
  { bitmap with
    bytes := Function.update bitmap.bytes (bit.tdiv 8)
      (bitmap.bytes (bit.tdiv 8) &&& ~~~bitMask bit) }

def bitmapCheckBit (bitmap : Bitmap) (bit : ℤ) : BitVec 8 :=
  bitmap.bytes (bit.tdiv 8) &&& bitMask bit

/-- `libk/string/string.c`: the bytes of `buffer` from offset 0 on, `size` of them, become
the low byte of `value`. -/
def memset (buffer : ℤ → BitVec 8) (value : BitVec 32) (size : ℕ) : ℤ → BitVec 8 :=
  Nat.fold size (fun i _ b => Function.update b (i : ℤ) (value.setWidth 8)) buffer

theorem memset_apply (buffer : ℤ → BitVec 8) (value : BitVec 32) (size : ℕ) (k : ℤ) :
    memset buffer value size k =
      if 0 ≤ k ∧ k < size then value.setWidth 8 else buffer k := by
  induction size with
  | zero =>
    rw [if_neg (by omega)]
    rfl
  | succ n ih =>
    simp only [memset, Nat.fold_succ] at ih ⊢
    by_cases hk : k = n
    · rw [hk, Function.update_self, if_pos (by omega)]
    · have hiff : (0 ≤ k ∧ k < (n : ℤ)) ↔ (0 ≤ k ∧ k < ((n + 1 : ℕ) : ℤ)) := by omega
      rw [Function.update_of_ne hk, ih]
      simp only [hiff]

theorem memset_eq (buffer : ℤ → BitVec 8) (value : BitVec 32) (size : ℕ) :
    memset buffer value size =
      fun k : ℤ => if 0 ≤ k ∧ k < size then value.setWidth 8 else buffer k :=
  funext (memset_apply buffer value size)

namespace Bitmap

/-- Bit `f` of the map. -/
def test (b : Bitmap) (f : ℕ) : Bool := (b.bytes (f / 8 : ℕ)).getLsbD (f % 8)

theorem bitMask_getLsbD_nat (n k : ℕ) (hk : k < 8) :
    (bitMask n).getLsbD k = decide (n % 8 = k) := by
  have ht : ((n : ℤ).tmod 8 % 32).toNat = n % 8 := by
    rw [Int.tmod_eq_emod_of_nonneg (by omega)]
    omega
  simp only [bitMask, ht, BitVec.getLsbD_setWidth, BitVec.getLsbD_shiftLeft, hk,
    BitVec.getLsbD_one]
  rw [Bool.eq_iff_iff]
  simp
  omega

/-- A negative bit number selects no bit of the byte at `map[0]`. -/
theorem bitMask_neg {bit : ℤ} (h : bit < 0) (h0 : bit.tdiv 8 = 0) : bitMask bit = 0#8 := by
  have hr : bit = -7 ∨ bit = -6 ∨ bit = -5 ∨ bit = -4 ∨ bit = -3 ∨ bit = -2 ∨ bit = -1 := by
    have := Int.mul_tdiv_add_tmod bit 8
    have := Int.lt_tmod_of_pos bit (show (0 : ℤ) < 8 by decide)
    omega
  rcases hr with rfl | rfl | rfl | rfl | rfl | rfl | rfl <;> decide

/-- The byte a bit number leads to is a byte of the map only for the map's own bits, and
for the last seven negative numbers. -/
theorem tdiv_eq_natCast {bit : ℤ} {k : ℕ} (h : bit.tdiv 8 = k) :
    (∃ n : ℕ, bit = n ∧ n / 8 = k) ∨ (bit < 0 ∧ bit.tdiv 8 = 0 ∧ k = 0) := by
  by_cases hb : 0 ≤ bit
  · left
    obtain ⟨n, rfl⟩ := Int.eq_ofNat_of_zero_le hb
    refine ⟨n, rfl, ?_⟩
    rw [Int.tdiv_eq_ediv_of_nonneg (by omega)] at h
    omega
  · right
    have := Int.mul_tdiv_add_tmod bit 8
    have := Int.lt_tmod_of_pos bit (show (0 : ℤ) < 8 by decide)
    omega

/-- On the byte that holds bit `f`, the mask of `bit` selects bit `f` or nothing. -/
theorem bitMask_getLsbD {bit : ℤ} {f : ℕ} (h : bit.tdiv 8 = (f / 8 : ℕ)) :
    (bitMask bit).getLsbD (f % 8) = decide (bit = f) := by
  rcases tdiv_eq_natCast h with ⟨n, rfl, hn⟩ | ⟨hneg, h0, _⟩
  · rw [bitMask_getLsbD_nat n _ (Nat.mod_lt _ (by omega)), decide_eq_decide]
    omega
  · have hne : bit ≠ f := by omega
    simp [bitMask_neg hneg h0, hne]

theorem ne_of_tdiv_ne {bit : ℤ} {f : ℕ} (h : bit.tdiv 8 ≠ (f / 8 : ℕ)) : bit ≠ f := by
  rintro rfl
  exact h (by rw [Int.tdiv_eq_ediv_of_nonneg (by omega)]; omega)

@[simp] theorem test_setBit (b : Bitmap) (bit : ℤ) (f : ℕ) :
    (bitmapSetBit b bit).test f = (decide (bit = f) || b.test f) := by
  simp only [test, bitmapSetBit]
  by_cases hd : bit.tdiv 8 = (f / 8 : ℕ)
  · rw [← hd, Function.update_self, BitVec.getLsbD_or, bitMask_getLsbD hd, Bool.or_comm]
  · rw [Function.update_of_ne (Ne.symm hd)]
    simp [ne_of_tdiv_ne hd]

@[simp] theorem test_unsetBit (b : Bitmap) (bit : ℤ) (f : ℕ) :
    (bitmapUnsetBit b bit).test f = (!decide (bit = f) && b.test f) := by
  simp only [test, bitmapUnsetBit]
  by_cases hd : bit.tdiv 8 = (f / 8 : ℕ)
  · rw [← hd, Function.update_self, BitVec.getLsbD_and, BitVec.getLsbD_not,
      bitMask_getLsbD hd, Bool.and_comm, decide_eq_true (Nat.mod_lt f (by omega)),
      Bool.true_and]
  · rw [Function.update_of_ne (Ne.symm hd)]
    simp [ne_of_tdiv_ne hd]

theorem checkBit_natCast (b : Bitmap) (f : ℕ) :
    bitmapCheckBit b f = 0#8 ↔ b.test f = false := by
  have hd : (f : ℤ).tdiv 8 = (f / 8 : ℕ) := by
    rw [Int.tdiv_eq_ediv_of_nonneg (by omega)]
    omega
  simp only [bitmapCheckBit, test, hd]
  constructor
  · intro h
    have hbit := congrArg (fun x => x.getLsbD (f % 8)) h
    simpa [bitMask_getLsbD_nat f _ (Nat.mod_lt f (by omega))] using hbit
  · intro h
    apply BitVec.eq_of_getLsbD_eq
    intro i hi
    rw [BitVec.getLsbD_and, bitMask_getLsbD_nat f i hi]
    by_cases hf : f % 8 = i
    · rw [← hf, h, Bool.false_and, BitVec.getLsbD_zero]
    · simp [hf]

/-! The loops of `pmm_alloc` and `pmm_free` over `count` bits from `index` on. -/

def setRun (b : Bitmap) (index : Word) (count : ℕ) : Bitmap :=
  Nat.fold count (fun i _ b => bitmapSetBit b (cInt (index + BitVec.ofNat 64 i))) b

def unsetRun (b : Bitmap) (index : Word) (count : ℕ) : Bitmap :=
  Nat.fold count (fun i _ b => bitmapUnsetBit b (cInt (index + BitVec.ofNat 64 i))) b

/-- Some of the `count` bits from `index` on is bit `f` of the map. -/
def Hits (index : Word) (count f : ℕ) : Prop :=
  ∃ i < count, cInt (index + BitVec.ofNat 64 i) = f

instance (index : Word) (count f : ℕ) : Decidable (Hits index count f) := by
  unfold Hits
  infer_instance

theorem hits_succ {index : Word} {n f : ℕ} :
    Hits index (n + 1) f ↔ cInt (index + BitVec.ofNat 64 n) = f ∨ Hits index n f := by
  constructor
  · rintro ⟨i, hi, h⟩
    rcases Nat.lt_succ_iff_lt_or_eq.mp hi with hi | rfl
    · exact .inr ⟨i, hi, h⟩
    · exact .inl h
  · rintro (h | ⟨i, hi, h⟩)
    · exact ⟨n, Nat.lt_succ_self n, h⟩
    · exact ⟨i, Nat.lt_succ_of_lt hi, h⟩

theorem test_setRun (b : Bitmap) (index : Word) (n f : ℕ) :
    (b.setRun index n).test f = (decide (Hits index n f) || b.test f) := by
  induction n with
  | zero => simp [setRun, Hits]
  | succ n ih =>
    simp only [setRun, Nat.fold_succ] at ih ⊢
    rw [test_setBit, ih]
    simp only [hits_succ, Bool.decide_or, Bool.or_assoc]

theorem test_unsetRun (b : Bitmap) (index : Word) (n f : ℕ) :
    (b.unsetRun index n).test f = (!decide (Hits index n f) && b.test f) := by
  induction n with
  | zero => simp [unsetRun, Hits]
  | succ n ih =>
    simp only [unsetRun, Nat.fold_succ] at ih ⊢
    rw [test_unsetBit, ih]
    simp only [hits_succ, Bool.decide_or, Bool.not_or, Bool.and_assoc]

/-- The loops leave the pointer and the size of the bitmap alone. -/
@[simp] theorem map_setRun (b : Bitmap) (index : Word) (n : ℕ) :
    (b.setRun index n).map = b.map := by
  induction n with
  | zero => rfl
  | succ n ih =>
    simp only [setRun, Nat.fold_succ] at ih ⊢
    exact ih

@[simp] theorem map_unsetRun (b : Bitmap) (index : Word) (n : ℕ) :
    (b.unsetRun index n).map = b.map := by
  induction n with
  | zero => rfl
  | succ n ih =>
    simp only [unsetRun, Nat.fold_succ] at ih ⊢
    exact ih

@[simp] theorem size_setRun (b : Bitmap) (index : Word) (n : ℕ) :
    (b.setRun index n).size = b.size := by
  induction n with
  | zero => rfl
  | succ n ih =>
    simp only [setRun, Nat.fold_succ] at ih ⊢
    exact ih

@[simp] theorem size_unsetRun (b : Bitmap) (index : Word) (n : ℕ) :
    (b.unsetRun index n).size = b.size := by
  induction n with
  | zero => rfl
  | succ n ih =>
    simp only [unsetRun, Nat.fold_succ] at ih ⊢
    exact ih

/-- As long as the run ends below bit `2 ^ 31`, the truncation of the bit numbers to `int`
takes it to the bits that `index` names modulo `2 ^ 32`. -/
theorem cInt_run {index : Word} {f n i : ℕ} (hf : index.toNat % 2 ^ 32 = f)
    (h : f + n ≤ 2 ^ 31) (hi : i < n) : cInt (index + BitVec.ofNat 64 i) = (f + i : ℕ) := by
  rw [← cInt_ofNat_of_lt (show f + i < 2 ^ 31 by omega)]
  apply cInt_congr
  rw [BitVec.toNat_add, BitVec.toNat_ofNat, BitVec.toNat_ofNat]
  omega

theorem hits_iff {index : Word} {f n g : ℕ} (hf : index.toNat % 2 ^ 32 = f)
    (h : f + n ≤ 2 ^ 31) : Hits index n g ↔ f ≤ g ∧ g < f + n := by
  constructor
  · rintro ⟨i, hi, hg⟩
    have := (cInt_run hf h hi).symm.trans hg
    omega
  · rintro ⟨hfg, hg⟩
    refine ⟨g - f, by omega, ?_⟩
    rw [cInt_run hf h (by omega)]
    omega

theorem hits_ofNat_iff {f n g : ℕ} (h : f + n ≤ 2 ^ 31) :
    Hits (BitVec.ofNat 64 f) n g ↔ f ≤ g ∧ g < f + n := by
  apply hits_iff _ h
  rw [BitVec.toNat_ofNat]
  omega

/-- The loop looks at its first bit modulo `2 ^ 32` only. -/
theorem unsetRun_congr (b : Bitmap) {index index' : Word}
    (h : index.toNat % 2 ^ 32 = index'.toNat % 2 ^ 32) (n : ℕ) :
    b.unsetRun index n = b.unsetRun index' n := by
  have hc : ∀ i : ℕ, cInt (index + BitVec.ofNat 64 i) = cInt (index' + BitVec.ofNat 64 i) := by
    intro i
    apply cInt_congr
    simp only [BitVec.toNat_add]
    omega
  simp only [unsetRun, hc]

/-- A run of bits of the map leaves the bytes in front of the map alone. -/
theorem unsetRun_bytes_neg (b : Bitmap) {index : Word} {f n : ℕ} (hf : index.toNat % 2 ^ 32 = f)
    (h : f + n ≤ 2 ^ 31) {k : ℤ} (hk : k < 0) : (b.unsetRun index n).bytes k = b.bytes k := by
  induction n with
  | zero => rfl
  | succ n ih =>
    have hc := cInt_run hf h (Nat.lt_succ_self n)
    have hne : k ≠ (cInt (index + BitVec.ofNat 64 n)).tdiv 8 := by
      rw [hc, Int.tdiv_eq_ediv_of_nonneg (by omega)]
      omega
    have hrest := ih (by omega)
    simp only [unsetRun, Nat.fold_succ] at hrest ⊢
    exact (Function.update_of_ne hne _ _).trans hrest

end Bitmap

end KnutOS
