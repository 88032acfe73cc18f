import KnutOS.Memory.PmmRuns

/-! Whether the bitmap of `pmm_init` has a byte for every bit that is read or cleared. -/
namespace KnutOS

open Foundation Pmm

/-- The byte of bit `bit` is one of the `size` bytes at `map`. -/
def Bitmap.Inside (b : Bitmap) (bit : ℤ) : Prop := 0 ≤ bit ∧ bit < 8 * b.size.toNat

namespace MmapEntry

/-- Bit `bit` is cleared when `pmm_init` frees the pages of the entry. -/
def Clears (la57 : Bool) (e : MmapEntry) (bit : ℤ) : Prop :=
  ∃ j < (e.length / pageSize).toNat,
    cInt (higherHalfDataToPhys la57 e.base / pageSize + BitVec.ofNat 64 j) = bit

/-- An entry of a page or more that does not end below `2 ^ 64`. -/
def Wraps (e : MmapEntry) : Prop :=
  4096 ≤ e.length.toNat ∧ 2 ^ 64 ≤ e.base.toNat + e.length.toNat

instance (e : MmapEntry) : Decidable e.Wraps := inferInstanceAs (Decidable (_ ∧ _))

end MmapEntry

/-- The bitmap has a bit for every page below `highest_page`, the bits that the scan can
examine in any state reached later are its own, and so are those that `pmm_init` clears. -/
structure Covers (la57 : Bool) (memoryMap : List MmapEntry) (bytes : ℤ → BitVec 8) : Prop where
  pages : (pmmInit la57 memoryMap bytes).pages ≤
    8 * (pmmInit la57 memoryMap bytes).bitmap.size.toNat
  scan : ∀ calls c, Run (Step la57) (start la57 memoryMap bytes) calls c →
    ∀ i < c.pmm.pages, c.pmm.bitmap.Inside (cInt (BitVec.ofNat 64 i))
  clear : ∀ e ∈ (pmmInit la57 memoryMap bytes).info.memoryMap, e.Usable →
    ∀ bit, e.Clears la57 bit → (pmmInit la57 memoryMap bytes).bitmap.Inside bit

variable {la57 : Bool} {memoryMap l : List MmapEntry} {e : MmapEntry} {bytes : ℤ → BitVec 8}
  {size h : Word} {p : ℕ}

/-- Rounding down to bytes loses up to seven pages, which rounding up to a page of bytes
makes good unless the number of bytes is already a multiple of the page size. -/
theorem pages_le_iff (hp : Word) :
    hp.toNat / 4096 ≤ 8 * (bitmapByteSize hp).toNat ↔
      ¬ (0 < hp.toNat / 4096 % 32768 ∧ hp.toNat / 4096 % 32768 < 8) := by
  rw [toNat_bitmapByteSize]
  omega

/-- Hosting the bitmap moves the start of an entry, not its end. -/
theorem top_shrink : (e.shrink size).base + (e.shrink size).length = e.base + e.length := by
  simp only [MmapEntry.shrink]
  bv_omega

theorem exists_of_mem_hostBitmap (he : e ∈ (hostBitmap la57 size l).2) (hu : e.Usable) :
    ∃ d ∈ l, d.Usable ∧ d.base + d.length = e.base + e.length := by
  by_cases hex : ∃ d ∈ l, d.Usable ∧ size ≤ d.length
  · obtain ⟨l₁, d, l₂, rfl, hdu, hs, hhost⟩ := hostBitmap_split la57 hex
    rw [hhost] at he
    simp only [List.mem_append, List.mem_cons] at he
    rcases he with he | rfl | he
    · exact ⟨e, by simp [he], hu, rfl⟩
    · exact ⟨d, by simp, hdu, top_shrink.symm⟩
    · exact ⟨e, by simp [he], hu, rfl⟩
  · have hsame : (hostBitmap la57 size l).2 = l := by
      clear he
      induction l with
      | nil => rfl
      | cons d l ih =>
        have hd : ¬ (d.type = mmapUsable ∧ size ≤ d.length) := by
          rintro ⟨hdu, hs⟩
          exact hex ⟨d, List.mem_cons_self, hdu, hs⟩
        have htail : ¬ ∃ d ∈ l, d.Usable ∧ size ≤ d.length := by
          rintro ⟨d', hd', h⟩
          exact hex ⟨d', List.mem_cons_of_mem d hd', h⟩
        simp only [hostBitmap, hd, if_false, ih htail]
    exact ⟨e, hsame ▸ he, hu, rfl⟩

/-- An entry that ends below `2 ^ 64` ends at `highest_page` at most. -/
theorem end_le_highestPage (he : e ∈ (hostBitmap la57 size memoryMap).2) (hu : e.Usable)
    (hw : e.base.toNat + e.length.toNat < 2 ^ 64) :
    e.base.toNat + e.length.toNat ≤ (findHighestPage memoryMap).toNat := by
  obtain ⟨d, hd, hdu, htop⟩ := exists_of_mem_hostBitmap he hu
  have hle : (d.base + d.length).toNat ≤ (findHighestPage memoryMap).toNat :=
    top_le_findHighestPage hd hdu
  rwa [htop, BitVec.toNat_add, Nat.mod_eq_of_lt hw] at hle

/-- The bits that freeing an entry clears are numbered by its frames, modulo `2 ^ 32`. -/
theorem clears_iff (la57 : Bool) (e : MmapEntry) (bit : ℤ) :
    e.Clears la57 bit ↔ ∃ j < e.length.toNat / 4096,
      cInt (BitVec.ofNat 64 (e.base.toNat / 4096 + j)) = bit := by
  have hn : (e.length / pageSize).toNat = e.length.toNat / 4096 := by
    rw [BitVec.toNat_udiv]
    rfl
  have hbit (j : ℕ) : cInt (higherHalfDataToPhys la57 e.base / pageSize + BitVec.ofNat 64 j) =
      cInt (BitVec.ofNat 64 (e.base.toNat / 4096 + j)) := by
    apply cInt_congr
    have hi := index_phys la57 e.base
    rw [BitVec.toNat_add, BitVec.toNat_ofNat, BitVec.toNat_ofNat]
    omega
  simp only [MmapEntry.Clears, hn, hbit]

/-- An entry that runs past the end of memory has a page whose bit number is `-1` or `-2`. -/
theorem clears_neg (la57 : Bool) (hw : e.Wraps) : ∃ bit < 0, e.Clears la57 bit := by
  obtain ⟨hl, hend⟩ := hw
  have hb := e.base.isLt
  have hneg {f : ℕ} (hf : f = 2 ^ 52 - 1 ∨ f = 2 ^ 52 - 2) : cInt (BitVec.ofNat 64 f) < 0 := by
    rcases hf with rfl | rfl <;> decide
  by_cases hlast : e.base.toNat / 4096 + e.length.toNat / 4096 = 2 ^ 52 - 1
  · refine ⟨_, hneg (.inr rfl), (clears_iff la57 e _).mpr
      ⟨e.length.toNat / 4096 - 1, by omega, ?_⟩⟩
    congr 2
    omega
  · refine ⟨_, hneg (.inl rfl), (clears_iff la57 e _).mpr
      ⟨2 ^ 52 - 1 - e.base.toNat / 4096, by omega, ?_⟩⟩
    congr 2
    omega

theorem inside_of_lt {b : Bitmap} (hp : p ≤ 8 * b.size.toNat) (hi : p ≤ 2 ^ 31) {f : ℕ}
    (hf : f < p) : b.Inside (cInt (BitVec.ofNat 64 f)) := by
  rw [cInt_ofNat_of_lt (by omega)]
  constructor <;> omega

/-- When the bitmap is large enough: the number of pages below `highest_page` is not one to
seven more than a multiple of 32768, bit numbers fit in an `int`, and no usable entry, less
the bitmap at the start of its host, has a page past the end of memory. -/
theorem bitmap_covers_iff (la57 : Bool) (memoryMap : List MmapEntry) (bytes : ℤ → BitVec 8) :
    Covers la57 memoryMap bytes ↔
      ¬ (0 < (findHighestPage memoryMap).toNat / 4096 % 32768 ∧
        (findHighestPage memoryMap).toNat / 4096 % 32768 < 8) ∧
      (findHighestPage memoryMap).toNat / 4096 ≤ 2 ^ 31 ∧
      ∀ e ∈ (hostBitmap la57 (bitmapByteSize (findHighestPage memoryMap)) memoryMap).2,
        e.Usable → ¬ e.Wraps := by
  obtain ⟨_, hsize, hhigh, hmap, _⟩ := pmmInit_frame la57 memoryMap bytes
  have hpages : (pmmInit la57 memoryMap bytes).pages =
      (findHighestPage memoryMap).toNat / 4096 := by rw [Pmm.pages, hhigh]
  rw [← pages_le_iff]
  constructor
  · rintro ⟨hp, hscan, hclear⟩
    refine ⟨by rwa [hpages, hsize] at hp, ?_, ?_⟩
    · by_contra hlt
      have hin := hscan [] _ (.refl _) (2 ^ 31) (by
        change 2 ^ 31 < (pmmInit la57 memoryMap bytes).pages
        omega)
      have hneg : cInt (BitVec.ofNat 64 (2 ^ 31)) < 0 := by decide
      exact absurd hin.1 (by omega)
    · intro e he hu hw
      obtain ⟨bit, hneg, hbit⟩ := clears_neg la57 hw
      have hin := hclear e (hmap ▸ he) hu bit hbit
      exact absurd hin.1 (by omega)
  · rintro ⟨hp, hint, hwrap⟩
    refine ⟨by rwa [hpages, hsize], ?_, ?_⟩
    · intro calls c hrun i hi
      obtain ⟨_, hs, hh, _⟩ := run_frame hrun
      have hpc : c.pmm.pages = (findHighestPage memoryMap).toNat / 4096 := by
        rw [← hpages, Pmm.pages, hh]
        rfl
      have hsc : c.pmm.bitmap.size = bitmapByteSize (findHighestPage memoryMap) := hs.trans hsize
      exact inside_of_lt (by rwa [hsc]) hint (hpc ▸ hi)
    · intro e he hu bit hbit
      obtain ⟨j, hj, rfl⟩ := (clears_iff la57 e bit).mp hbit
      rw [hmap] at he
      have hend := end_le_highestPage he hu (by
        by_contra hge
        exact hwrap e he hu ⟨by omega, by omega⟩)
      exact inside_of_lt (by rwa [hsize]) hint (by omega)

/-- Of 128 MiB and a page, the last page has no bit: the bitmap ends at bit 32767. -/
theorem bitmap_covers_fails :
    bitmapByteSize (findHighestPage [⟨0x100000#64, 0x7F01000#64, mmapUsable⟩]) ≤ 0x7F01000#64 ∧
      ¬ Covers false [⟨0x100000#64, 0x7F01000#64, mmapUsable⟩] fun _ => 0#8 := by
  refine ⟨by decide, fun hc => ?_⟩
  obtain ⟨_, hsize, hhigh, _⟩ := pmmInit_frame false
    [⟨0x100000#64, 0x7F01000#64, mmapUsable⟩] fun _ => 0#8
  have hp := hc.pages
  rw [Pmm.pages, hhigh, hsize] at hp
  revert hp
  decide

end KnutOS
