import KnutOS.Foundation.Bytes
import KnutOS.Memory.Pmm
import KnutOS.Memory.Slab

/-! The kernel heap (`libk/alloc/kmalloc.c`): blocks of pages or slab objects behind one header. -/
namespace KnutOS

open Foundation

/-- The `while` loop. `none` is a loop that is still running after `fuel` tests. -/
def nextPowLoop (num : Word) : ℕ → Word → Option Word
  | 0, _ => none
  | fuel + 1, result =>
    if result < num then nextPowLoop num fuel (result <<< 1) else some result

/-- After 64 doublings `result` is 0 and stays 0. -/
def nextPowOfTwo (num : Word) : Option Word := nextPowLoop num 64 2#64

/-- The allocators that `kmalloc` and `kfree` call, over whatever state they keep. -/
structure Allocators (σ : Type) where
  pmmAlloc : σ → Word → Word × σ
  pmmFree : σ → Word → Word → σ
  slabAlloc : σ → Word → Word × σ
  slabFree : σ → Word → σ

def kernelAllocators (la57 : Bool) : Allocators (Pmm × Slabs) where
  pmmAlloc s pageCount :=
    let (ptr, pmm) := pmmAlloc la57 s.1 pageCount.toNat
    (ptr, pmm, s.2)
  pmmFree s pointer pageCount := (pmmFree la57 s.1 pointer pageCount.toNat, s.2)
  slabAlloc s size :=
    let (ptr, slabs) := slabAlloc s.2 size
    (ptr, s.1, slabs)
  slabFree s ptr := (s.1, slabFree s.2 ptr)

/-- Memory and the state of the allocators. -/
structure Heap (σ : Type) where
  bytes : Bytes
  alloc : σ

/-- `sizeof(kmalloc_metadata_t)`. -/
def metadataSize : Word := 8#64

section

variable {σ : Type} (A : Allocators σ)

/-- `metadata->size = new_size` is the store at `ptr`. -/
def kmalloc (h : Heap σ) (size : Word) : Option (Word × Heap σ) := do
  let newSize ← nextPowOfTwo size
  if pageSize ≤ newSize then
    let (ptr, alloc) := A.pmmAlloc h.alloc (newSize / pageSize + 1#64)
    some (ptr + pageSize, ⟨store64 h.bytes ptr newSize, alloc⟩)
  else
    let newSize ← nextPowOfTwo (size + metadataSize)
    let (ptr, alloc) := A.slabAlloc h.alloc newSize
    some (ptr + metadataSize, ⟨store64 h.bytes ptr newSize, alloc⟩)

def kfree (h : Heap σ) (ptr : Word) : Heap σ :=
  if ptr = 0#64 then h
  else if ptr &&& 0xFFF#64 = 0#64 then
    let metadata := ptr - pageSize
    { h with alloc := A.pmmFree h.alloc metadata (load64 h.bytes metadata / 4096#64 + 1#64) }
  else
    let metadata := ptr - metadataSize
    { h with alloc := A.slabFree h.alloc metadata }

end

namespace Kmalloc

theorem kernelAllocators_pmmAlloc {la57 : Bool} {pmm pmm' : Pmm} {pageCount ptr : Word}
    (slabs : Slabs) (h : pmmAlloc la57 pmm pageCount.toNat = (ptr, pmm')) :
    (kernelAllocators la57).pmmAlloc (pmm, slabs) pageCount = (ptr, pmm', slabs) := by
  simp only [kernelAllocators, h]

theorem kernelAllocators_slabAlloc {la57 : Bool} {slabs slabs' : Slabs} {size ptr : Word}
    (pmm : Pmm) (h : slabAlloc slabs size = (ptr, slabs')) :
    (kernelAllocators la57).slabAlloc (pmm, slabs) size = (ptr, pmm, slabs') := by
  simp only [kernelAllocators, h]

variable {σ : Type} {A : Allocators σ} {h : Heap σ} {num size ptr : Word} {fuel k : ℕ}

theorem shiftLeft_two_pow (k : ℕ) :
    BitVec.ofNat 64 (2 ^ k) <<< 1 = BitVec.ofNat 64 (2 ^ (k + 1)) := by
  apply BitVec.eq_of_toNat_eq
  simp only [BitVec.toNat_shiftLeft, BitVec.toNat_ofNat, Nat.shiftLeft_eq, Nat.mod_mul_mod,
    pow_succ 2 k, pow_one]

theorem toNat_two_pow (hk : k ≤ 63) : (BitVec.ofNat 64 (2 ^ k)).toNat = 2 ^ k := by
  have hle : 2 ^ k ≤ 2 ^ 63 := Nat.pow_le_pow_right (by decide) hk
  rw [BitVec.toNat_ofNat, Nat.mod_eq_of_lt (by omega)]

/-- From `2 ^ k` on the loop finds the next power that is large enough. -/
theorem nextPowLoop_eq (hnum : num.toNat ≤ 2 ^ 63) (hk : k ≤ 63) (hfuel : 64 ≤ fuel + k) :
    ∃ n, k ≤ n ∧ n ≤ 63 ∧ nextPowLoop num fuel (BitVec.ofNat 64 (2 ^ k)) =
      some (BitVec.ofNat 64 (2 ^ n)) ∧ num.toNat ≤ 2 ^ n ∧ (k < n → 2 ^ (n - 1) < num.toNat) := by
  induction fuel generalizing k with
  | zero => omega
  | succ fuel ih =>
    have hpow := toNat_two_pow hk
    by_cases hlt : BitVec.ofNat 64 (2 ^ k) < num
    · have hlt' : 2 ^ k < num.toNat := hpow ▸ hlt
      have hk' : k < 63 := by
        by_contra hge
        obtain rfl : k = 63 := by omega
        omega
      obtain ⟨n, hkn, hn, heq, hle, hmin⟩ := ih (k := k + 1) hk' (by omega)
      refine ⟨n, by omega, hn, by rw [nextPowLoop, if_pos hlt, shiftLeft_two_pow, heq], hle, ?_⟩
      intro _
      by_cases hkn' : k + 1 < n
      · exact hmin hkn'
      · rwa [show n - 1 = k by omega]
    · refine ⟨k, le_rfl, hk, by rw [nextPowLoop, if_neg hlt], ?_, fun h => by omega⟩
      have hle : num.toNat ≤ (BitVec.ofNat 64 (2 ^ k)).toNat := Nat.le_of_not_lt hlt
      omega

theorem nextPowOfTwo_eq (hnum : num.toNat ≤ 2 ^ 63) :
    ∃ n, 1 ≤ n ∧ n ≤ 63 ∧ nextPowOfTwo num = some (BitVec.ofNat 64 (2 ^ n)) ∧
      num.toNat ≤ 2 ^ n ∧ (1 < n → 2 ^ (n - 1) < num.toNat) :=
  nextPowLoop_eq (k := 1) hnum (by decide) (by decide)

/-- Beyond `2 ^ 63` no word is large enough, and the loop never ends. -/
theorem nextPowLoop_diverges (hnum : 2 ^ 63 < num.toNat) (fuel k : ℕ) :
    nextPowLoop num fuel (BitVec.ofNat 64 (2 ^ k)) = none := by
  induction fuel generalizing k with
  | zero => rfl
  | succ fuel ih =>
    have hlt : (BitVec.ofNat 64 (2 ^ k)).toNat < num.toNat := by
      by_cases hk : k ≤ 63
      · have hle : 2 ^ k ≤ 2 ^ 63 := Nat.pow_le_pow_right (by decide) hk
        rw [toNat_two_pow hk]
        omega
      · have hdvd : 2 ^ 64 ∣ 2 ^ k := Nat.pow_dvd_pow 2 (by omega)
        rw [BitVec.toNat_ofNat, Nat.mod_eq_zero_of_dvd hdvd]
        omega
    rw [nextPowLoop, if_pos (BitVec.lt_def.mpr hlt), shiftLeft_two_pow, ih]

/-- The header has a page of its own. -/
theorem kmalloc_pages (A : Allocators σ) (h : Heap σ)
    (heq : nextPowOfTwo size = some (BitVec.ofNat 64 (2 ^ k))) (hk : 12 ≤ k) (hk' : k ≤ 63) :
    kmalloc A h size =
      let a := A.pmmAlloc h.alloc (BitVec.ofNat 64 (2 ^ k) / pageSize + 1#64)
      some (a.1 + pageSize, ⟨store64 h.bytes a.1 (BitVec.ofNat 64 (2 ^ k)), a.2⟩) := by
  have hbig : pageSize ≤ BitVec.ofNat 64 (2 ^ k) := by
    have hle : 2 ^ 12 ≤ 2 ^ k := Nat.pow_le_pow_right (by decide) hk
    rw [BitVec.le_def, toNat_two_pow hk']
    exact hle
  simp only [kmalloc, heq, Option.bind_eq_bind, Option.bind_some, if_pos hbig]

/-- The header takes the first bytes of the object. -/
theorem kmalloc_object (A : Allocators σ) (h : Heap σ) {m : ℕ}
    (heq : nextPowOfTwo size = some (BitVec.ofNat 64 (2 ^ k))) (hk : k < 12)
    (heq' : nextPowOfTwo (size + metadataSize) = some (BitVec.ofNat 64 (2 ^ m))) :
    kmalloc A h size =
      let a := A.slabAlloc h.alloc (BitVec.ofNat 64 (2 ^ m))
      some (a.1 + metadataSize, ⟨store64 h.bytes a.1 (BitVec.ofNat 64 (2 ^ m)), a.2⟩) := by
  have hsmall : ¬ pageSize ≤ BitVec.ofNat 64 (2 ^ k) := by
    have hlt : 2 ^ k < 2 ^ 12 := Nat.pow_lt_pow_right (by decide) hk
    rw [BitVec.le_def, toNat_two_pow (by omega)]
    exact Nat.not_le_of_lt hlt
  simp only [kmalloc, heq, heq', Option.bind_eq_bind, Option.bind_some, if_neg hsmall]

/-- A size has room for a header behind it when it is not close to `2 ^ 64`. -/
theorem toNat_add_metadata (h : size.toNat ≤ 2 ^ 63) :
    (size + metadataSize).toNat = size.toNat + 8 := by
  rw [BitVec.toNat_add, show metadataSize.toNat = 8 from rfl]
  omega

/-- What `kmalloc` does for a size up to `2 ^ 63`: it takes a page for the header and the pages
of a power of two, or an object that has room for the header. -/
theorem kmalloc_cases (A : Allocators σ) (h : Heap σ) (hsize : size.toNat ≤ 2 ^ 63) :
    (∃ n, 12 ≤ n ∧ n ≤ 63 ∧ size.toNat ≤ 2 ^ n ∧
      kmalloc A h size =
        let a := A.pmmAlloc h.alloc (BitVec.ofNat 64 (2 ^ n) / pageSize + 1#64)
        some (a.1 + pageSize, ⟨store64 h.bytes a.1 (BitVec.ofNat 64 (2 ^ n)), a.2⟩)) ∨
    ∃ n, n ≤ 63 ∧ size.toNat + 8 ≤ 2 ^ n ∧
      kmalloc A h size =
        let a := A.slabAlloc h.alloc (BitVec.ofNat 64 (2 ^ n))
        some (a.1 + metadataSize, ⟨store64 h.bytes a.1 (BitVec.ofNat 64 (2 ^ n)), a.2⟩) := by
  obtain ⟨n, _, hn, heq, hle, _⟩ := nextPowOfTwo_eq hsize
  by_cases hbig : 12 ≤ n
  · exact .inl ⟨n, hbig, hn, hle, kmalloc_pages A h heq hbig hn⟩
  · have hsmall : 2 ^ n ≤ 2 ^ 11 := Nat.pow_le_pow_right (by decide) (by omega)
    have hadd := toNat_add_metadata hsize
    obtain ⟨m, _, hm, heq', hle', _⟩ := nextPowOfTwo_eq (show (size + metadataSize).toNat ≤ 2 ^ 63 by omega)
    exact .inr ⟨m, hm, by omega, kmalloc_object A h heq (by omega) heq'⟩

/-- The rounding ends, for sizes up to `2 ^ 63` with the least power of two that is at least 2 and
at least the size. -/
def RoundsUp (num : Word) : Prop :=
  ∃ r, (∃ fuel, nextPowLoop num fuel 2#64 = some r) ∧
    (num.toNat ≤ 2 ^ 63 → IsLeast {p | (∃ k, p = 2 ^ k) ∧ 2 ≤ p ∧ num.toNat ≤ p} r.toNat)

theorem roundsUp_of_le (hnum : num.toNat ≤ 2 ^ 63) : RoundsUp num := by
  obtain ⟨n, hn1, hn, heq, hle, hmin⟩ := nextPowOfTwo_eq hnum
  refine ⟨_, ⟨64, heq⟩, fun _ => ?_⟩
  rw [toNat_two_pow hn]
  refine ⟨⟨⟨n, rfl⟩, Nat.pow_le_pow_right Nat.two_pos hn1, hle⟩, ?_⟩
  rintro p ⟨⟨k, rfl⟩, h2, hk⟩
  apply Nat.pow_le_pow_right (by decide)
  by_contra hlt
  have hk1 : 1 ≤ k := by
    by_contra hk0
    obtain rfl : k = 0 := by omega
    omega
  -- the power before the result was too small
  have hbefore : 2 ^ k ≤ 2 ^ (n - 1) := Nat.pow_le_pow_right (by decide) (by omega)
  have hsmall := hmin (by omega)
  omega

/-- The rounding is right, and `kmalloc` gets past it, exactly for the sizes up to `2 ^ 63`. -/
theorem roundsUp_iff (A : Allocators σ) (h : Heap σ) (num : Word) :
    RoundsUp num ∧ (∃ r, kmalloc A h num = some r) ↔ num.toNat ≤ 2 ^ 63 := by
  constructor
  · rintro ⟨⟨r, ⟨fuel, hr⟩, _⟩, _⟩
    by_contra hnum
    have hnone := nextPowLoop_diverges (Nat.lt_of_not_le hnum) fuel 1
    cases hr.symm.trans hnone
  · intro hnum
    refine ⟨roundsUp_of_le hnum, ?_⟩
    obtain ⟨n, _, _, _, heq⟩ | ⟨n, _, _, heq⟩ := kmalloc_cases A h hnum
    · exact ⟨_, heq⟩
    · exact ⟨_, heq⟩

/-- One byte more than half of the address space. -/
theorem rounding_hangs : ¬ ∀ num : Word, RoundsUp num := by
  intro h
  obtain ⟨r, ⟨fuel, hr⟩, _⟩ := h 0x8000000000000001#64
  have hnone := nextPowLoop_diverges (show 2 ^ 63 < (0x8000000000000001#64).toNat by decide) fuel 1
  cases hr.symm.trans hnone

theorem and_page_eq_zero_iff : ptr &&& 0xFFF#64 = 0#64 ↔ ptr.toNat % 4096 = 0 := by
  have hmask := toNat_and_low ptr 12 (by decide)
  constructor
  · intro h0
    have hn := congrArg BitVec.toNat h0
    exact hmask.symm.trans hn
  · intro h0
    exact BitVec.eq_of_toNat_eq (hmask.trans h0)

theorem kfree_pages (hne : ptr ≠ 0#64) (hpage : ptr.toNat % 4096 = 0) :
    kfree A h ptr = ⟨h.bytes, A.pmmFree h.alloc (ptr - pageSize)
      (load64 h.bytes (ptr - pageSize) / 4096#64 + 1#64)⟩ := by
  rw [kfree, if_neg hne, if_pos (and_page_eq_zero_iff.mpr hpage)]

theorem kfree_object (hpage : ptr.toNat % 4096 ≠ 0) :
    kfree A h ptr = ⟨h.bytes, A.slabFree h.alloc (ptr - metadataSize)⟩ := by
  have hne : ptr ≠ 0#64 := by
    rintro rfl
    exact hpage rfl
  rw [kfree, if_neg hne, if_neg fun h0 => hpage (and_page_eq_zero_iff.mp h0)]

end Kmalloc

end KnutOS
