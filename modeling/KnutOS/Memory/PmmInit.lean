import KnutOS.Memory.Pmm

/-! `pmm_init`: which bits are clear once it is done, for any memory map. -/
namespace KnutOS

open Foundation

namespace MmapEntry

def Usable (e : MmapEntry) : Prop := e.type = mmapUsable

instance (e : MmapEntry) : Decidable e.Usable := inferInstanceAs (Decidable (_ = _))

/-- The physical address `x` lies in the entry. -/
def Holds (e : MmapEntry) (x : ℕ) : Prop :=
  e.base.toNat ≤ x ∧ x < e.base.toNat + e.length.toNat

/-- Page frame `f` lies in the entry, which is meant for page-aligned entries. -/
def HoldsFrame (e : MmapEntry) (f : ℕ) : Prop := e.Holds (4096 * f)

instance (e : MmapEntry) (x : ℕ) : Decidable (e.Holds x) := inferInstanceAs (Decidable (_ ∧ _))

instance (e : MmapEntry) (f : ℕ) : Decidable (e.HoldsFrame f) := inferInstanceAs (Decidable (_ ∧ _))

/-- What stivale2 guarantees of a usable entry. -/
structure Aligned (e : MmapEntry) : Prop where
  base : e.base.toNat % 4096 = 0
  length : e.length.toNat % 4096 = 0
  bounded : e.base.toNat + e.length.toNat ≤ 2 ^ 64

end MmapEntry

/-- The memory maps `pmm_init` is made for: usable entries are page-aligned and pairwise
disjoint, and one of them is long enough for the bitmap. -/
structure Accepted (memoryMap : List MmapEntry) : Prop where
  aligned : ∀ e ∈ memoryMap, e.Usable → e.Aligned
  disjoint : memoryMap.Pairwise fun a b =>
    a.Usable → b.Usable → ∀ x, ¬ (a.Holds x ∧ b.Holds x)
  hosted : ∃ e ∈ memoryMap, e.Usable ∧ bitmapByteSize (findHighestPage memoryMap) ≤ e.length

/-- Every usable entry ends below 8 TiB, so that its frames are numbered below `2 ^ 31`. -/
def Below8TiB (memoryMap : List MmapEntry) : Prop :=
  ∀ e ∈ memoryMap, e.Usable → e.base.toNat + e.length.toNat ≤ 2 ^ 43

variable {la57 : Bool} {memoryMap l l₁ l₂ : List MmapEntry} {e : MmapEntry} {s : Pmm}
  {bytes : ℤ → BitVec 8} {f : ℕ} {size highestPage : Word}

/-- Only the entry that hosts the bitmap changes, and it is usable and long enough. -/
theorem hostBitmap_split (la57 : Bool) (h : ∃ e ∈ l, e.Usable ∧ size ≤ e.length) :
    ∃ l₁ e l₂, l = l₁ ++ e :: l₂ ∧ e.Usable ∧ size ≤ e.length ∧
      hostBitmap la57 size l =
        (physToHigherHalfData la57 e.base, l₁ ++ e.shrink size :: l₂) := by
  induction l with
  | nil => simp at h
  | cons d l ih =>
    by_cases hd : d.type = mmapUsable ∧ size ≤ d.length
    · exact ⟨[], d, l, rfl, hd.1, hd.2, by simp [hostBitmap, hd]⟩
    · have htail : ∃ e ∈ l, e.Usable ∧ size ≤ e.length := by
        obtain ⟨e, he, hu, hs⟩ := h
        rcases List.mem_cons.mp he with rfl | he
        · exact (hd ⟨hu, hs⟩).elim
        · exact ⟨e, he, hu, hs⟩
      obtain ⟨l₁, e, l₂, rfl, hu, hs, hhost⟩ := ih htail
      exact ⟨d :: l₁, e, l₂, rfl, hu, hs, by simp [hostBitmap, hd, hhost]⟩

/-- `pmm_init` frees a usable entry by its physical address. The higher-half offset that
`pmm_free` subtracts leaves a multiple of `2 ^ 32` in the frame number. -/
theorem index_phys (la57 : Bool) (a : Word) :
    (higherHalfDataToPhys la57 a / pageSize).toNat % 2 ^ 32 = a.toNat / 4096 % 2 ^ 32 := by
  have hd : (higherHalfDataToPhys la57 a).toNat =
      (a.toNat + (if la57 then 2 ^ 56 else 2 ^ 47)) % 2 ^ 64 := by
    cases la57 <;>
      simp only [higherHalfDataToPhys, higherHalfData, Bool.false_eq_true, if_false, if_true] <;>
      bv_omega
  rw [BitVec.toNat_udiv, hd, show pageSize.toNat = 4096 from rfl]
  cases la57 <;> simp <;> omega

/-- `pmm_init` passes a physical address, all other callers one in the higher half, and they mean
the same bits: those of the frames from `a` on. -/
theorem pmmFree_phys_or_higherHalf (la57 : Bool) (s : Pmm) (a : Word) (n : ℕ)
    (h : a.toNat / 4096 + n ≤ 2 ^ 31) :
    pmmFree la57 s a n = pmmFree la57 s (physToHigherHalfData la57 a) n ∧
      (∀ f, (pmmFree la57 s a n).bitmap.test f =
        (!decide (a.toNat / 4096 ≤ f ∧ f < a.toNat / 4096 + n) && s.bitmap.test f)) ∧
      ∀ k < 0, (pmmFree la57 s a n).bitmap.bytes k = s.bitmap.bytes k := by
  have hphys := index_phys la57 a
  have hindex := hphys.trans (Nat.mod_eq_of_lt (by omega))
  have hhigher : (a / pageSize).toNat = a.toNat / 4096 := by
    rw [BitVec.toNat_udiv]
    rfl
  refine ⟨?_, fun f => ?_, fun k hk => Bitmap.unsetRun_bytes_neg s.bitmap hindex h hk⟩
  · simp only [pmmFree, higherHalfDataToPhys_physToHigherHalfData]
    rw [Bitmap.unsetRun_congr s.bitmap (hphys.trans (by rw [hhigher]))]
  · simp only [pmmFree, Bitmap.test_unsetRun, Bitmap.hits_iff hindex h]

/-- A map of 64 frames, all of them in use. -/
def fullPmm : Pmm :=
  ⟨⟨0x40000#64, 64#32, 64#32, []⟩, ⟨0xFFFF800000010000#64, 8#64, fun _ => 0xFF#8⟩, 0x40000#64⟩

theorem pmmFree_phys_fullPmm :
    pmmFree false fullPmm 0x3000#64 2 =
        pmmFree false fullPmm (physToHigherHalfData false 0x3000#64) 2 ∧
      (∀ f, (pmmFree false fullPmm 0x3000#64 2).bitmap.test f =
        (!decide ((0x3000#64).toNat / 4096 ≤ f ∧ f < (0x3000#64).toNat / 4096 + 2) &&
          fullPmm.bitmap.test f)) ∧
      ∀ k < 0, (pmmFree false fullPmm 0x3000#64 2).bitmap.bytes k = fullPmm.bitmap.bytes k :=
  pmmFree_phys_or_higherHalf false fullPmm 0x3000#64 2 (by decide)

theorem hits_entry (la57 : Bool) (f : ℕ) (ha : e.Aligned) (hb : e.base.toNat + e.length.toNat ≤ 2 ^ 43) :
    Bitmap.Hits (higherHalfDataToPhys la57 e.base / pageSize) (e.length / pageSize).toNat f ↔
      e.HoldsFrame f := by
  obtain ⟨h1, h2, _⟩ := ha
  have hn : (e.length / pageSize).toNat = e.length.toNat / 4096 := by
    rw [BitVec.toNat_udiv]
    rfl
  by_cases h0 : e.length.toNat = 0
  · simp [hn, h0, Bitmap.Hits, MmapEntry.HoldsFrame, MmapEntry.Holds]
  · rw [Bitmap.hits_iff (index_phys la57 e.base) (by omega)]
    simp only [MmapEntry.HoldsFrame, MmapEntry.Holds]
    omega

theorem freeUsable_cons : freeUsable la57 s (e :: l) =
    freeUsable la57 (if e.Usable then pmmFree la57 s e.base (e.length / pageSize).toNat else s) l :=
  rfl

/-- Step 6 clears the bits of the usable entries' frames, and no other bit. -/
theorem test_freeUsable (la57 : Bool) (s : Pmm) (f : ℕ) (ha : ∀ e ∈ l, e.Usable → e.Aligned) (hb : Below8TiB l) :
    (freeUsable la57 s l).bitmap.test f = true ↔
      s.bitmap.test f = true ∧ ¬ ∃ e ∈ l, e.Usable ∧ e.HoldsFrame f := by
  induction l generalizing s with
  | nil => simp [freeUsable]
  | cons d l ih =>
    rw [freeUsable_cons, ih _ (fun e he => ha e (List.mem_cons_of_mem _ he))
      (fun e he => hb e (List.mem_cons_of_mem _ he))]
    by_cases hd : d.Usable
    · have hh := hits_entry la57 f (ha d (by simp) hd) (hb d (by simp) hd)
      simp only [if_pos hd, pmmFree, Bitmap.test_unsetRun, hh]
      by_cases hf : d.HoldsFrame f <;> simp [hf, hd]
    · simp [hd]

/-- The pages that step 6 frees. -/
def usablePages (l : List MmapEntry) : ℕ :=
  (l.map fun e => if e.Usable then e.length.toNat / 4096 else 0).sum

/-- What step 6 leaves alone, and what it does to the counter. -/
theorem freeUsable_frame (la57 : Bool) (s : Pmm) (l : List MmapEntry) :
    (freeUsable la57 s l).bitmap.map = s.bitmap.map ∧
    (freeUsable la57 s l).bitmap.size = s.bitmap.size ∧
    (freeUsable la57 s l).highestPage = s.highestPage ∧
    (freeUsable la57 s l).info =
      { s.info with usedPages := s.info.usedPages - BitVec.ofNat 32 (usablePages l) } := by
  induction l generalizing s with
  | nil => simp [freeUsable, usablePages]
  | cons d l ih =>
    rw [freeUsable_cons]
    obtain ⟨h1, h2, h3, h4⟩ :=
      ih (if d.Usable then pmmFree la57 s d.base (d.length / pageSize).toNat else s)
    rw [h1, h2, h3, h4]
    by_cases hd : d.Usable
    · have hn : (d.length / pageSize).toNat = d.length.toNat / 4096 := by
        rw [BitVec.toNat_udiv]
        rfl
      simp only [hd, if_true, pmmFree, Bitmap.map_unsetRun, Bitmap.size_unsetRun, hn, usablePages,
        List.map_cons, List.sum_cons, sub_ofNat_sub_ofNat, and_self]
    · simp [hd, usablePages]

/-! `highest_page`. -/

theorem le_raiseHighestPage : highestPage ≤ raiseHighestPage highestPage e := by
  simp only [raiseHighestPage]
  split
  · exact BitVec.le_refl highestPage
  · split
    · next hlt => exact BitVec.le_of_lt hlt
    · exact BitVec.le_refl highestPage

theorem top_le_raiseHighestPage (hu : e.Usable) : e.base + e.length ≤ raiseHighestPage highestPage e := by
  have hu' : e.type = mmapUsable := hu
  simp only [raiseHighestPage, hu', ne_eq, not_true_eq_false, false_and, if_false]
  split
  · exact BitVec.le_refl _
  · next hlt => exact BitVec.not_lt.mp hlt

theorem le_foldl_raiseHighestPage : highestPage ≤ l.foldl raiseHighestPage highestPage := by
  induction l generalizing highestPage with
  | nil => exact BitVec.le_refl highestPage
  | cons d l ih => exact BitVec.le_trans le_raiseHighestPage ih

theorem top_le_findHighestPage (he : e ∈ memoryMap) (hu : e.Usable) :
    e.base + e.length ≤ findHighestPage memoryMap := by
  obtain ⟨l₁, l₂, rfl⟩ := List.append_of_mem he
  rw [findHighestPage, List.foldl_append, List.foldl_cons]
  exact BitVec.le_trans (top_le_raiseHighestPage hu) le_foldl_raiseHighestPage

/-- The frames of the usable entries lie below `highest_page`. -/
theorem frame_lt_highestPage (h : Accepted memoryMap) (hb : Below8TiB memoryMap)
    (he : e ∈ memoryMap) (hu : e.Usable) (hf : e.HoldsFrame f) :
    f < (findHighestPage memoryMap).toNat / 4096 := by
  have hbelow := hb e he hu
  have hbase := (h.aligned e he hu).base
  have hlength := (h.aligned e he hu).length
  have htop : (e.base + e.length).toNat ≤ (findHighestPage memoryMap).toNat :=
    top_le_findHighestPage he hu
  rw [BitVec.toNat_add, Nat.mod_eq_of_lt (by omega)] at htop
  obtain ⟨_, hlt⟩ := hf
  omega

/-- The map covers every frame below `highest_page`. -/
def Pmm.Covered (memoryMap : List MmapEntry) : Prop :=
  (findHighestPage memoryMap).toNat / 4096 ≤
    8 * (bitmapByteSize (findHighestPage memoryMap)).toNat

theorem toNat_bitmapByteSize (hp : Word) :
    (bitmapByteSize hp).toNat = (hp.toNat / 4096 / 8 + 4095) / 4096 * 4096 := by
  have hd : (alignDown hp pageSize / pageSize / 8#64).toNat = hp.toNat / 4096 / 8 := by
    rw [BitVec.toNat_udiv, BitVec.toNat_udiv, toNat_alignDown_page]
    simp [pageSize]
  rw [bitmapByteSize, toNat_alignUp_page (by have := hp.isLt; omega), hd]

theorem shrink_toNat (hs : size ≤ e.length) (hb : e.base.toNat + e.length.toNat < 2 ^ 64) :
    (e.shrink size).base.toNat = e.base.toNat + size.toNat ∧
    (e.shrink size).length.toNat = e.length.toNat - size.toNat := by
  have hle : size.toNat ≤ e.length.toNat := hs
  simp only [MmapEntry.shrink]
  constructor
  · rw [BitVec.toNat_add, Nat.mod_eq_of_lt (by omega)]
  · exact BitVec.toNat_sub_of_le hs

theorem shrink_holds (hs : size ≤ e.length) (hb : e.base.toNat + e.length.toNat < 2 ^ 64) {x : ℕ} :
    (e.shrink size).Holds x ↔ e.Holds x ∧ ¬ x < e.base.toNat + size.toNat := by
  obtain ⟨h1, h2⟩ := shrink_toNat hs hb
  have hle : size.toNat ≤ e.length.toNat := hs
  simp only [MmapEntry.Holds, h1, h2]
  omega

theorem shrink_aligned (ha : e.Aligned) (hs : size ≤ e.length) (hz : size.toNat % 4096 = 0)
    (hb : e.base.toNat + e.length.toNat < 2 ^ 64) : (e.shrink size).Aligned := by
  obtain ⟨h1, h2⟩ := shrink_toNat hs hb
  have hle : size.toNat ≤ e.length.toNat := hs
  have hbase := ha.base
  have hlength := ha.length
  refine ⟨?_, ?_, ?_⟩ <;> omega

/-- After step 4 the usable entries are still aligned and below 8 TiB. -/
theorem hosted_aligned (ha : ∀ d ∈ l₁ ++ e :: l₂, d.Usable → d.Aligned)
    (hb : Below8TiB (l₁ ++ e :: l₂)) (hu : e.Usable) (hs : size ≤ e.length)
    (hz : size.toNat % 4096 = 0) :
    (∀ d ∈ l₁ ++ e.shrink size :: l₂, d.Usable → d.Aligned) ∧
    Below8TiB (l₁ ++ e.shrink size :: l₂) := by
  have hbe := hb e (by simp) hu
  obtain ⟨h1, h2⟩ := shrink_toNat hs (by omega)
  constructor
  · intro d hd hdu
    simp only [List.mem_append, List.mem_cons] at hd
    rcases hd with hd | rfl | hd
    · exact ha d (by simp [hd]) hdu
    · exact shrink_aligned (ha e (by simp) hu) hs hz (by omega)
    · exact ha d (by simp [hd]) hdu
  · intro d hd hdu
    simp only [List.mem_append, List.mem_cons] at hd
    rcases hd with hd | rfl | hd
    · exact hb d (by simp [hd]) hdu
    · have hle : size.toNat ≤ e.length.toNat := hs
      omega
    · exact hb d (by simp [hd]) hdu

/-- The state as step 5 leaves it: every bit of the map is set. -/
def pmmFilled (la57 : Bool) (memoryMap : List MmapEntry) (bytes : ℤ → BitVec 8) : Pmm :=
  let highestPage := findHighestPage memoryMap
  let maxPages := (kbToPages highestPage).setWidth 32
  let size := bitmapByteSize highestPage
  let host := hostBitmap la57 size memoryMap
  { info := ⟨highestPage, maxPages, maxPages, host.2⟩
    bitmap := ⟨host.1, size, memset bytes 0xFF#32 size.toNat⟩
    highestPage := highestPage }

theorem pmmInit_eq : pmmInit la57 memoryMap bytes =
    let s := freeUsable la57 (pmmFilled la57 memoryMap bytes) (pmmFilled la57 memoryMap bytes).info.memoryMap
    { s with bitmap := bitmapSetBit s.bitmap 0 } := rfl

theorem test_pmmFilled
    (hf : f < 8 * (bitmapByteSize (findHighestPage memoryMap)).toNat) :
    (pmmFilled la57 memoryMap bytes).bitmap.test f = true := by
  have hff : ∀ k < 8, ((0xFF#32).setWidth 8).getLsbD k = true := by decide
  simp only [pmmFilled, Bitmap.test, memset_apply]
  rw [if_pos (by omega)]
  exact hff _ (Nat.mod_lt f (by omega))

/-- The frames that hold the `size` bytes at `map`. -/
def Bitmap.HostedBy (la57 : Bool) (b : Bitmap) (f : ℕ) : Prop :=
  (higherHalfDataToPhys la57 b.map).toNat ≤ 4096 * f ∧
    4096 * f < (higherHalfDataToPhys la57 b.map).toNat + b.size.toNat

/-- What the steps after the filling leave alone. -/
theorem pmmInit_frame (la57 : Bool) (memoryMap : List MmapEntry) (bytes : ℤ → BitVec 8) :
    let size := bitmapByteSize (findHighestPage memoryMap)
    let s := pmmInit la57 memoryMap bytes
    s.bitmap.map = (hostBitmap la57 size memoryMap).1 ∧ s.bitmap.size = size ∧
    s.highestPage = findHighestPage memoryMap ∧
    s.info.memoryMap = (hostBitmap la57 size memoryMap).2 ∧
    s.info.maxPages = (kbToPages (findHighestPage memoryMap)).setWidth 32 ∧
    s.info.usedPages = s.info.maxPages - BitVec.ofNat 32 (usablePages s.info.memoryMap) := by
  intro size s
  obtain ⟨h1, h2, h3, h4⟩ := freeUsable_frame la57 (pmmFilled la57 memoryMap bytes)
    (pmmFilled la57 memoryMap bytes).info.memoryMap
  have h4' : s.info = _ := h4
  refine ⟨h1, h2, h3, ?_, ?_, ?_⟩ <;> rw [h4'] <;> rfl

/-- The bits of the map once `pmm_init` is done: clear for the frames of the usable entries
as step 4 left them, frame 0 apart. -/
theorem test_pmmInit (h : Accepted memoryMap) (hb : Below8TiB memoryMap)
    (hf : f < 8 * (pmmInit la57 memoryMap bytes).bitmap.size.toNat) :
    (pmmInit la57 memoryMap bytes).bitmap.test f = false ↔
      f ≠ 0 ∧ ∃ e ∈ (pmmInit la57 memoryMap bytes).info.memoryMap, e.Usable ∧ e.HoldsFrame f := by
  obtain ⟨_, hsize, _, hmap, _⟩ := pmmInit_frame la57 memoryMap bytes
  rw [hsize] at hf
  rw [hmap]
  obtain ⟨l₁, e, l₂, hl, hu, hs, hhost⟩ := hostBitmap_split la57 h.hosted
  have hz : (bitmapByteSize (findHighestPage memoryMap)).toNat % 4096 = 0 := by
    rw [toNat_bitmapByteSize]
    omega
  obtain ⟨ha', hb'⟩ := hosted_aligned (hl ▸ h.aligned) (hl ▸ hb) hu hs hz
  have htest := test_freeUsable la57 (pmmFilled la57 memoryMap bytes) f ha' hb'
  have hm : (pmmFilled la57 memoryMap bytes).info.memoryMap =
      l₁ ++ e.shrink (bitmapByteSize (findHighestPage memoryMap)) :: l₂ := congrArg Prod.snd hhost
  rw [pmmInit_eq, hm]
  simp only [Bitmap.test_setBit, Bool.or_eq_false_iff, decide_eq_false_iff_not, hhost]
  rw [← Bool.not_eq_true, htest, test_pmmFilled hf]
  have h0 : ((0 : ℤ) = f) ↔ f = 0 := by omega
  simp [h0]

/-- The frames of the usable entries after step 4: those before it, less the bitmap's. -/
theorem hosted_frames (h : Accepted memoryMap) (hb : Below8TiB memoryMap) :
    (∃ e ∈ (pmmInit la57 memoryMap bytes).info.memoryMap, e.Usable ∧ e.HoldsFrame f) ↔
      (∃ e ∈ memoryMap, e.Usable ∧ e.HoldsFrame f) ∧
        ¬ (pmmInit la57 memoryMap bytes).bitmap.HostedBy la57 f := by
  obtain ⟨hptr, hsize, _, hmap, _⟩ := pmmInit_frame la57 memoryMap bytes
  obtain ⟨l₁, e, l₂, hl, hu, hs, hhost⟩ := hostBitmap_split la57 h.hosted
  have hmem : ∀ d, d ∈ memoryMap ↔ d ∈ l₁ ++ l₂ ∨ d = e := by
    intro d
    rw [hl]
    simp only [List.mem_append, List.mem_cons]
    tauto
  have hbe := hb e ((hmem e).mpr (.inr rfl)) hu
  have hle : (bitmapByteSize (findHighestPage memoryMap)).toNat ≤ e.length.toNat := hs
  have hhosted : (pmmInit la57 memoryMap bytes).bitmap.HostedBy la57 f ↔
      e.base.toNat ≤ 4096 * f ∧
        4096 * f < e.base.toNat + (bitmapByteSize (findHighestPage memoryMap)).toNat := by
    rw [Bitmap.HostedBy, hptr, hsize, hhost, higherHalfDataToPhys_physToHigherHalfData]
  have hdisj : ∀ d ∈ l₁ ++ l₂, d.Usable → d.HoldsFrame f → ¬ e.HoldsFrame f := by
    intro d hd hdu hdf hef
    have hpair := pairwise_middle (fun a b hab hb ha x hx => hab ha hb x hx.symm)
      (hl ▸ h.disjoint) d hd
    exact hpair hu hdu _ ⟨hef, hdf⟩
  have hshrink := shrink_holds (x := 4096 * f) hs (by omega)
  rw [hmap, hhost, hhosted]
  constructor
  · rintro ⟨d, hd, hdu, hdf⟩
    have hd' : d ∈ l₁ ++ l₂ ∨ d = e.shrink (bitmapByteSize (findHighestPage memoryMap)) := by
      simp only [List.mem_append, List.mem_cons] at hd ⊢
      tauto
    rcases hd' with hd' | rfl
    · refine ⟨⟨d, (hmem d).mpr (.inl hd'), hdu, hdf⟩, ?_⟩
      intro hf
      exact hdisj d hd' hdu hdf ⟨hf.1, by omega⟩
    · obtain ⟨hef, hnot⟩ := hshrink.mp hdf
      exact ⟨⟨e, (hmem e).mpr (.inr rfl), hu, hef⟩, fun hf => hnot hf.2⟩
  · rintro ⟨⟨d, hd, hdu, hdf⟩, hnot⟩
    rcases (hmem d).mp hd with hd | rfl
    · refine ⟨d, ?_, hdu, hdf⟩
      simp only [List.mem_append, List.mem_cons] at hd ⊢
      tauto
    · exact ⟨d.shrink _, by simp, hu, hshrink.mpr ⟨hdf, fun hlt => hnot ⟨hdf.1, hlt⟩⟩⟩

/-- After `pmm_init` the clear bits among those of the map are the frames of the usable entries, less
the frames that host the bitmap and frame 0. -/
theorem pmmInit_clear_iff (la57 : Bool) (memoryMap : List MmapEntry) (bytes : ℤ → BitVec 8)
    (h : Accepted memoryMap) (hb : Below8TiB memoryMap) (hp : Pmm.Covered memoryMap) (f : ℕ) :
    (f < 8 * (pmmInit la57 memoryMap bytes).bitmap.size.toNat ∧
        (pmmInit la57 memoryMap bytes).bitmap.test f = false) ↔
      (∃ e ∈ memoryMap, e.Usable ∧ e.HoldsFrame f) ∧
        ¬ (pmmInit la57 memoryMap bytes).bitmap.HostedBy la57 f ∧ f ≠ 0 := by
  obtain ⟨_, hsize, _⟩ := pmmInit_frame la57 memoryMap bytes
  have hclear : f < 8 * (pmmInit la57 memoryMap bytes).bitmap.size.toNat →
      ((pmmInit la57 memoryMap bytes).bitmap.test f = false ↔
        (∃ e ∈ memoryMap, e.Usable ∧ e.HoldsFrame f) ∧
          ¬ (pmmInit la57 memoryMap bytes).bitmap.HostedBy la57 f ∧ f ≠ 0) := by
    intro hf
    rw [test_pmmInit h hb hf, hosted_frames h hb]
    tauto
  constructor
  · rintro ⟨hf, ht⟩
    exact (hclear hf).mp ht
  · intro hset
    obtain ⟨e, he, hu, hef⟩ := hset.1
    have hf : f < 8 * (pmmInit la57 memoryMap bytes).bitmap.size.toNat := by
      rw [hsize]
      exact Nat.lt_of_lt_of_le (frame_lt_highestPage h hb he hu hef) hp
    exact ⟨hf, (hclear hf).mpr hset⟩

/-- Four usable frames below the kernel's: the first hosts the bitmap. -/
def smallMap : List MmapEntry :=
  [⟨0x1000#64, 0x4000#64, mmapUsable⟩, ⟨0x5000#64, 0xB000#64, mmapKernelAndModules⟩]

theorem accepted_pair {u k : MmapEntry} (hu : u.Usable) (ha : u.Aligned) (hk : ¬ k.Usable)
    (hs : bitmapByteSize (findHighestPage [u, k]) ≤ u.length) : Accepted [u, k] := by
  refine ⟨?_, ?_, u, by simp, hu, hs⟩
  · intro e he heu
    rcases List.mem_pair.mp he with rfl | rfl
    · exact ha
    · exact (hk heu).elim
  · simp only [List.pairwise_cons, List.mem_singleton, List.not_mem_nil]
    refine ⟨?_, by simp⟩
    rintro e rfl _ he
    exact (hk he).elim

theorem smallMap_accepted : Accepted smallMap :=
  accepted_pair rfl ⟨by decide, by decide, by decide⟩ (by decide) (by decide)

theorem smallMap_below : Below8TiB smallMap := by
  intro e he _
  simp only [smallMap, List.mem_cons, List.not_mem_nil, or_false] at he
  rcases he with rfl | rfl <;> decide

theorem smallMap_hosted (la57 : Bool) :
    hostBitmap la57 (bitmapByteSize (findHighestPage smallMap)) smallMap =
      (physToHigherHalfData la57 0x1000#64,
        [⟨0x2000#64, 0x3000#64, mmapUsable⟩, ⟨0x5000#64, 0xB000#64, mmapKernelAndModules⟩]) := by
  cases la57 <;> decide

/-- `pmm_init` on `smallMap`, with the filling of the bitmap written out. -/
def smallPmm (la57 : Bool) : Pmm :=
  let s := freeUsable la57
    { info := ⟨0x10000#64, 16384#32, 16384#32, (hostBitmap la57 4096#64 smallMap).2⟩
      bitmap := ⟨(hostBitmap la57 4096#64 smallMap).1, 4096#64,
        fun k : ℤ => if 0 ≤ k ∧ k < 4096 then 0xFF#8 else 0#8⟩
      highestPage := 0x10000#64 } (hostBitmap la57 4096#64 smallMap).2
  { s with bitmap := bitmapSetBit s.bitmap 0 }

theorem pmmInit_smallMap (la57 : Bool) :
    pmmInit la57 smallMap (fun _ => 0#8) = smallPmm la57 := by
  simp only [pmmInit, memset_eq]
  rfl

/-- With `smallMap` the bitmap takes frame 1, and frame 4 is left free. -/
theorem pmmInit_clear_smallMap :
    4 < 8 * (pmmInit false smallMap fun _ => 0#8).bitmap.size.toNat ∧
      (pmmInit false smallMap fun _ => 0#8).bitmap.test 4 = false := by
  obtain ⟨hmap, hsize, _⟩ := pmmInit_frame false smallMap fun _ => 0#8
  apply (pmmInit_clear_iff false smallMap _ smallMap_accepted smallMap_below
    (by unfold Pmm.Covered; decide) 4).mpr
  refine ⟨⟨_, List.mem_cons_self, rfl, by decide⟩, ?_, by omega⟩
  rw [Bitmap.HostedBy, hmap, hsize, smallMap_hosted, higherHalfDataToPhys_physToHigherHalfData]
  decide

end KnutOS
