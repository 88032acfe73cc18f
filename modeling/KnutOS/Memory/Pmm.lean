import KnutOS.Foundation.Lists
import KnutOS.Memory.Bitmap

/-! The physical memory manager (`memory/pmm.c`) and what one call of it does. -/
namespace KnutOS

open Foundation

/-- `struct stivale2_mmap_entry`. -/
structure MmapEntry where
  base : Word
  length : Word
  type : BitVec 32
deriving DecidableEq

def mmapUsable : BitVec 32 := 1#32
def mmapBootloaderReclaimable : BitVec 32 := 0x1000#32
def mmapKernelAndModules : BitVec 32 := 0x1001#32

structure PmmInfo where
  memorySize : Word
  maxPages : BitVec 32
  usedPages : BitVec 32
  memoryMap : List MmapEntry

/-- The globals `pmm_info`, `bitmap` and `highest_page`. -/
structure Pmm where
  info : PmmInfo
  bitmap : Bitmap
  highestPage : Word

def bitToPage (bit : Word) : Word := bit * 0x1000#64

def pageToBit (page : Word) : Word := page / 0x1000#64

/-- Both loops of the source: the outer one repeats the scan `pageCount` times. -/
def pmmFindFirstFreePage (s : Pmm) (pageCount : ℕ) : Word :=
  if pageCount = 0 then 0#64
  else
    ((List.range pageCount).findSome? fun _ =>
      (List.range (pageToBit s.highestPage).toNat).findSome? fun i =>
        if bitmapCheckBit s.bitmap (cInt (BitVec.ofNat 64 i)) = 0#8 then
          some (bitToPage (BitVec.ofNat 64 i))
        else none).getD 0#64

def pmmAlloc (la57 : Bool) (s : Pmm) (pageCount : ℕ) : Word × Pmm :=
  if s.info.usedPages = 0#32 then (0#64, s)
  else
    let pointer := pmmFindFirstFreePage s pageCount
    if pointer = 0#64 then (0#64, s)
    else
      let index := pointer / pageSize
      (physToHigherHalfData la57 (index * pageSize),
        { s with
          bitmap := s.bitmap.setRun index pageCount
          info := { s.info with usedPages := s.info.usedPages + BitVec.ofNat 32 pageCount } })

def pmmFree (la57 : Bool) (s : Pmm) (pointer : Word) (pageCount : ℕ) : Pmm :=
  let index := higherHalfDataToPhys la57 pointer / pageSize
  { s with
    bitmap := s.bitmap.unsetRun index pageCount
    info := { s.info with usedPages := s.info.usedPages - BitVec.ofNat 32 pageCount } }

/-- Step 2 of `pmm_init`, one entry of it: entries of three types count. -/
def raiseHighestPage (highestPage : Word) (e : MmapEntry) : Word :=
  if e.type ≠ mmapUsable ∧ e.type ≠ mmapBootloaderReclaimable ∧
      e.type ≠ mmapKernelAndModules then highestPage
  else
    let top := e.base + e.length
    if highestPage < top then top else highestPage

def findHighestPage (memoryMap : List MmapEntry) : Word := memoryMap.foldl raiseHighestPage 0#64

/-- Step 3. -/
def bitmapByteSize (highestPage : Word) : Word :=
  alignUp (alignDown highestPage pageSize / pageSize / 8#64) pageSize

/-- What is left of the entry that hosts a bitmap of `size` bytes. -/
def MmapEntry.shrink (e : MmapEntry) (size : Word) : MmapEntry :=
  { e with base := e.base + size, length := e.length - size }

/-- Step 4: the first usable entry that is long enough hosts the bitmap and shrinks. The
result is `bitmap.map`, which stays `NULL` when no entry is, and the map after the change. -/
def hostBitmap (la57 : Bool) (size : Word) : List MmapEntry → Word × List MmapEntry
  | [] => (0#64, [])
  | e :: es =>
    if e.type = mmapUsable ∧ size ≤ e.length then
      (physToHigherHalfData la57 e.base, e.shrink size :: es)
    else
      let (map, es') := hostBitmap la57 size es
      (map, e :: es')

/-- Step 6: the pages of every usable entry become free. -/
def freeUsable (la57 : Bool) (s : Pmm) (memoryMap : List MmapEntry) : Pmm :=
  memoryMap.foldl (fun s e =>
    if e.type = mmapUsable then pmmFree la57 s e.base (e.length / pageSize).toNat else s) s

/-- `bytes` is what memory holds around the place of the bitmap beforehand. -/
def pmmInit (la57 : Bool) (memoryMap : List MmapEntry) (bytes : ℤ → BitVec 8) : Pmm :=
  let highestPage := findHighestPage memoryMap
  let maxPages := (kbToPages highestPage).setWidth 32
  let size := bitmapByteSize highestPage
  let host := hostBitmap la57 size memoryMap
  let s : Pmm :=
    { info := ⟨highestPage, maxPages, maxPages, host.2⟩
      bitmap := ⟨host.1, size, memset bytes 0xFF#32 size.toNat⟩
      highestPage := highestPage }
  let s := freeUsable la57 s host.2
  { s with bitmap := bitmapSetBit s.bitmap 0 }

namespace Pmm

variable {s : Pmm} {la57 : Bool} {i j n : ℕ}

/-- The number of page frames below `highest_page`. -/
def pages (s : Pmm) : ℕ := s.highestPage.toNat / 4096

/-- The scan reads frame `i` as free. -/
def Clear (s : Pmm) (i : ℕ) : Prop :=
  bitmapCheckBit s.bitmap (cInt (BitVec.ofNat 64 i)) = 0#8

/-- Frame `i` is the first one the scan reads as free. -/
def FirstFree (s : Pmm) (i : ℕ) : Prop := i < s.pages ∧ s.Clear i ∧ ∀ j < i, ¬ s.Clear j

instance (s : Pmm) (i : ℕ) : Decidable (s.Clear i) := inferInstanceAs (Decidable (_ = _))

instance (s : Pmm) (i : ℕ) : Decidable (s.FirstFree i) :=
  inferInstanceAs (Decidable (_ ∧ _ ∧ _))

/-- The state after `count` bits from `index` on were set, and after they were cleared. -/
def take (s : Pmm) (index : Word) (count : ℕ) : Pmm :=
  { s with
    bitmap := s.bitmap.setRun index count
    info := { s.info with usedPages := s.info.usedPages + BitVec.ofNat 32 count } }

def give (s : Pmm) (index : Word) (count : ℕ) : Pmm :=
  { s with
    bitmap := s.bitmap.unsetRun index count
    info := { s.info with usedPages := s.info.usedPages - BitVec.ofNat 32 count } }

@[simp] theorem pages_take (index : Word) : (s.take index n).pages = s.pages := rfl

theorem clear_iff (h : i < 2 ^ 31) : s.Clear i ↔ s.bitmap.test i = false := by
  rw [Clear, cInt_ofNat_of_lt h, Bitmap.checkBit_natCast]

theorem clear_mod : s.Clear (i % 2 ^ 32) ↔ s.Clear i := by
  have hc : cInt (BitVec.ofNat 64 (i % 2 ^ 32)) = cInt (BitVec.ofNat 64 i) := by
    apply cInt_congr
    rw [BitVec.toNat_ofNat, BitVec.toNat_ofNat]
    omega
  rw [Clear, Clear, hc]

/-- The scan never gets past bit `2 ^ 32`, where the bit numbers start over. -/
theorem FirstFree.lt (h : s.FirstFree i) : i < 2 ^ 32 := by
  by_contra hi
  exact h.2.2 (i % 2 ^ 32) (by omega) (clear_mod.mpr h.2.1)

theorem FirstFree.unique (hi : s.FirstFree i) (hj : s.FirstFree j) : i = j := by
  rcases lt_trichotomy i j with h | h | h
  · exact (hj.2.2 i h hi.2.1).elim
  · exact h
  · exact (hi.2.2 j h hj.2.1).elim

theorem toNat_pageToBit : (pageToBit s.highestPage).toNat = s.pages := by
  simp [pageToBit, pages]

theorem find_eq (hn : 1 ≤ n) (h : s.FirstFree i) :
    pmmFindFirstFreePage s n = bitToPage (BitVec.ofNat 64 i) := by
  have hscan := findSome?_range_least (v := bitToPage (BitVec.ofNat 64 i))
    (g := fun i => if bitmapCheckBit s.bitmap (cInt (BitVec.ofNat 64 i)) = 0#8 then
      some (bitToPage (BitVec.ofNat 64 i)) else none)
    h.1 (if_pos h.2.1) (fun j hj => if_neg (h.2.2 j hj))
  rw [pmmFindFirstFreePage, if_neg (by omega), toNat_pageToBit, hscan,
    findSome?_range_const (by omega)]
  rfl

theorem find_eq_null (h : ∀ i < s.pages, ¬ s.Clear i) : pmmFindFirstFreePage s n = 0#64 := by
  have hscan := findSome?_range_none (m := s.pages)
    (g := fun i => if bitmapCheckBit s.bitmap (cInt (BitVec.ofNat 64 i)) = 0#8 then
      some (bitToPage (BitVec.ofNat 64 i)) else none) (fun j hj => if_neg (h j hj))
  rw [pmmFindFirstFreePage, toNat_pageToBit, hscan, findSome?_range_none (fun _ _ => rfl)]
  simp

/-- A call gets nothing: the counter reads zero, frame 0 reads as free, so that the scan's
result is `NULL`, or no frame below `highest_page` does. -/
def Dry (s : Pmm) : Prop := s.info.usedPages = 0#32 ∨ s.Clear 0 ∨ ∀ i < s.pages, ¬ s.Clear i

theorem alloc_of_dry (h : s.Dry) : pmmAlloc la57 s n = (0#64, s) := by
  have hnull : s.info.usedPages = 0#32 ∨ pmmFindFirstFreePage s n = 0#64 := by
    rcases h with h | h | h
    · exact .inl h
    · right
      by_cases hn : n = 0
      · simp [pmmFindFirstFreePage, hn]
      · by_cases hp : 0 < s.pages
        · rw [find_eq (by omega) ⟨hp, h, fun _ hj => by omega⟩]
          rfl
        · exact find_eq_null (fun _ hi => by omega)
    · exact .inr (find_eq_null h)
  rcases hnull with h | h
  · simp [pmmAlloc, h]
  · simp [pmmAlloc, h]

theorem alloc_of_firstFree (hn : 1 ≤ n) (h : s.FirstFree i) (hi : i ≠ 0)
    (hu : s.info.usedPages ≠ 0#32) :
    pmmAlloc la57 s n = (physToHigherHalfData la57 (BitVec.ofNat 64 (i * 4096)),
      s.take (BitVec.ofNat 64 i) n) := by
  have hlt := h.lt
  have hb : bitToPage (BitVec.ofNat 64 i) = BitVec.ofNat 64 (i * 4096) := by
    simp [bitToPage, BitVec.ofNat_mul]
  have hne : BitVec.ofNat 64 (i * 4096) ≠ 0#64 := by
    intro he
    have := congrArg BitVec.toNat he
    simp only [BitVec.toNat_ofNat] at this
    omega
  have hindex := ofNat_mul_div_pageSize (show i < 2 ^ 52 by omega)
  have hback : BitVec.ofNat 64 i * pageSize = BitVec.ofNat 64 (i * 4096) := by
    simp [pageSize, BitVec.ofNat_mul]
  simp only [pmmAlloc, hu, if_false, find_eq hn h, hb, hne, hindex, hback]
  rfl

/-- What a call can do: nothing, or take the frames from the first free one on. -/
theorem alloc_cases (la57 : Bool) (s : Pmm) (hn : 1 ≤ n) :
    (s.Dry ∧ pmmAlloc la57 s n = (0#64, s)) ∨
    (¬ s.Dry ∧ ∃ i, s.FirstFree i ∧
      pmmAlloc la57 s n = (physToHigherHalfData la57 (BitVec.ofNat 64 (i * 4096)),
        s.take (BitVec.ofNat 64 i) n)) := by
  by_cases hd : s.Dry
  · exact .inl ⟨hd, alloc_of_dry hd⟩
  · refine .inr ⟨hd, ?_⟩
    simp only [Dry, not_or] at hd
    obtain ⟨hu, h0, hc⟩ := hd
    rcases exists_least_lt s.Clear s.pages with hno | ⟨i, hi, hp, hl⟩
    · exact (hc hno).elim
    · have hne : i ≠ 0 := by rintro rfl; exact h0 hp
      exact ⟨i, ⟨hi, hp, hl⟩, alloc_of_firstFree hn ⟨hi, hp, hl⟩ hne hu⟩

theorem block_ne_null (la57 : Bool) (h : s.FirstFree i) :
    physToHigherHalfData la57 (BitVec.ofNat 64 (i * 4096)) ≠ 0#64 := by
  have := h.lt
  apply physToHigherHalfData_ne_zero
  simp only [BitVec.toNat_ofNat]
  omega

end Pmm

end KnutOS
