import KnutOS.Memory.PmmSafety

/-! The counters `max_pages` and `used_pages`: when `pmm_alloc` trusts them wrongly, and when
they tell the truth. -/
namespace KnutOS.Pmm

open Foundation

variable {la57 : Bool} {c : Config} {calls : List Call} {s : Pmm} {i n f : ℕ}
  {memoryMap l : List MmapEntry} {bytes : ℤ → BitVec 8}

/-- Whenever `n` consecutive frames from 1 on read as free, `pmm_alloc(n)` returns a block; and
if it does not return one, nothing has changed. -/
def NoSpuriousNull (la57 : Bool) (s : Pmm) : Prop :=
  ∀ n, 1 ≤ n →
    ((∃ f, 1 ≤ f ∧ f + n ≤ s.pages ∧ ∀ k < n, s.Clear (f + k)) → (pmmAlloc la57 s n).1 ≠ 0#64) ∧
    ((pmmAlloc la57 s n).1 = 0#64 → (pmmAlloc la57 s n).2 = s)

/-- In one state, a spurious `NULL` needs a free frame, and a counter at zero or a clear bit 0. -/
theorem noSpuriousNull_iff (la57 : Bool) (s : Pmm) : NoSpuriousNull la57 s ↔
    (∀ f, 1 ≤ f → f < s.pages → ¬ s.Clear f) ∨ (s.info.usedPages ≠ 0#32 ∧ ¬ s.Clear 0) := by
  constructor
  · intro h
    by_contra hno
    simp only [not_or, not_forall, not_not, not_and_or] at hno
    obtain ⟨⟨f, hf, hfp, hc⟩, hdry⟩ := hno
    have hd : s.Dry := by
      rcases hdry with hu | h0
      · exact .inl hu
      · exact .inr (.inl h0)
    refine (h 1 le_rfl).1 ⟨f, hf, hfp, ?_⟩ (by rw [alloc_of_dry hd])
    intro k hk
    obtain rfl : k = 0 := by omega
    exact hc
  · intro h n hn
    rcases alloc_cases la57 s hn with ⟨hd, he⟩ | ⟨_, i, hi, he⟩
    · refine ⟨?_, fun _ => by rw [he]⟩
      rintro ⟨f, hf, hfn, hc⟩ _
      have hclear := hc 0 (by omega)
      rcases h with hno | ⟨hu, h0⟩
      · exact hno f hf (by omega) hclear
      · rcases hd with hd | hd | hd
        · exact hu hd
        · exact h0 hd
        · exact hd f (by omega) hclear
    · have hne := block_ne_null la57 hi
      rw [he]
      exact ⟨fun _ => hne, fun h0 => (hne h0).elim⟩

/-- The counter at zero, in terms of the memory map and of the pages the callers hold. -/
theorem usedPages_ne_zero (h : Run (Step la57) (start la57 memoryMap bytes) calls c) :
    c.pmm.info.usedPages ≠ 0#32 ↔
      c.pmm.info.maxPages + BitVec.ofNat 32 (livePages c) ≠
        BitVec.ofNat 32 (usablePages c.pmm.info.memoryMap) := by
  obtain ⟨_, _, _, hinfo⟩ := run_frame h
  have hused := run_usedPages h
  obtain ⟨_, _, _, _, _, hinit⟩ := pmmInit_frame la57 memoryMap bytes
  have hmax : c.pmm.info.maxPages = (pmmInit la57 memoryMap bytes).info.maxPages := by
    rw [hinfo]
    rfl
  have hmap : c.pmm.info.memoryMap = (pmmInit la57 memoryMap bytes).info.memoryMap := by
    rw [hinfo]
    rfl
  rw [hused, hinit, hmax, hmap]
  generalize (pmmInit la57 memoryMap bytes).info.maxPages = m
  generalize BitVec.ofNat 32 (livePages c) = v
  generalize BitVec.ofNat 32 (usablePages _) = u
  bv_omega

/-- No spurious `NULL` in a state of a run: exactly when no frame is left, or the 32-bit sum
of `max_pages` and the live pages has not come round to the usable pages and frame 0 is
still reserved. -/
theorem alloc_not_spurious (la57 : Bool) (memoryMap : List MmapEntry) (bytes : ℤ → BitVec 8)
    (calls : List Call) (c : Config) (h : Run (Step la57) (start la57 memoryMap bytes) calls c) :
    NoSpuriousNull la57 c.pmm ↔
      (∀ f, 1 ≤ f → f < c.pmm.pages → ¬ c.pmm.Clear f) ∨
      (c.pmm.info.maxPages + BitVec.ofNat 32 (livePages c) ≠
        BitVec.ofNat 32 (usablePages c.pmm.info.memoryMap) ∧ ¬ c.pmm.Clear 0) := by
  rw [noSpuriousNull_iff, usedPages_ne_zero h]

/-- On `smallMap` right after `pmm_init`. -/
theorem alloc_not_spurious_smallMap : NoSpuriousNull false (smallPmm false) := by
  have hstart : start false smallMap (fun _ => 0#8) = ⟨smallPmm false, []⟩ := by
    rw [start, pmmInit_smallMap]
  have hrun : Run (Step false) (start false smallMap fun _ => 0#8) [] ⟨smallPmm false, []⟩ := by
    rw [hstart]
    exact .refl _
  exact (alloc_not_spurious false smallMap _ [] _ hrun).mpr (.inr ⟨by decide, by decide⟩)

/-- Memory up to 32 KiB beyond 16 GiB, of which 8192 pages are left free: `max_pages` comes
out as 8192. -/
def wideMap : List MmapEntry :=
  [⟨0x100000#64, 0x2081000#64, mmapUsable⟩, ⟨0x400000000#64, 0x8000#64, mmapKernelAndModules⟩]

theorem wideMap_accepted : Accepted wideMap :=
  accepted_pair rfl ⟨by decide, by decide, by decide⟩ (by decide) (by decide)

theorem wideMap_below : Below8TiB wideMap := by
  intro e he _
  rcases List.mem_pair.mp he with rfl | rfl <;> decide

/-- On `wideMap` the counter starts at zero, and nothing can be allocated at all. -/
theorem alloc_not_spurious_fails :
    ¬ ∀ (la57 : Bool) (memoryMap : List MmapEntry) (bytes : ℤ → BitVec 8),
      Accepted memoryMap → ∀ (calls : List Call) (c : Config),
      Run (Step la57) (start la57 memoryMap bytes) calls c → NoSpuriousNull la57 c.pmm := by
  intro h
  have hnull := h false wideMap (fun _ => 0#8) wideMap_accepted [] _ (.refl _)
  obtain ⟨_, hsize, hhp, hmap, hmax, hused⟩ := pmmInit_frame false wideMap fun _ => 0#8
  rcases (noSpuriousNull_iff _ _).mp hnull with hno | ⟨hu, _⟩
  · refine hno 385 (by omega) ?_ ?_
    · rw [pages, start, hhp]
      decide
    · rw [clear_iff (by omega), start]
      apply (test_pmmInit wideMap_accepted wideMap_below (by rw [hsize]; decide)).mpr
      rw [hmap]
      exact ⟨by omega, _, List.mem_cons_self, rfl, by decide⟩
  · apply hu
    rw [start, hused, hmax, hmap]
    decide

/-! Truthful counters. The pages that `pmm_init` counts as freed are those of the usable
entries, so it remains to compare them with the bits that are clear. -/

/-- The frames of an entry, if it is usable. -/
def usableFrames (e : MmapEntry) : Set ℕ := {f | e.Usable ∧ e.HoldsFrame f}

theorem mem_biUnion_usableFrames :
    f ∈ (⋃ t ∈ l.map usableFrames, t) ↔ ∃ e ∈ l, e.Usable ∧ e.HoldsFrame f := by
  simp [usableFrames]

theorem usableFrames_eq_Ico {e : MmapEntry} (hu : e.Usable) (ha : e.Aligned) :
    usableFrames e = Set.Ico (e.base.toNat / 4096) ((e.base.toNat + e.length.toNat) / 4096) := by
  obtain ⟨hb, hl, _⟩ := ha
  ext f
  simp only [usableFrames, Set.mem_ofPred_eq, hu, true_and, MmapEntry.HoldsFrame,
    MmapEntry.Holds, Set.mem_Ico]
  omega

theorem ncard_usableFrames {e : MmapEntry} (ha : e.Usable → e.Aligned) :
    (usableFrames e).Finite ∧
      (usableFrames e).ncard = if e.Usable then e.length.toNat / 4096 else 0 := by
  by_cases hu : e.Usable
  · have hb := (ha hu).base
    have hl := (ha hu).length
    rw [usableFrames_eq_Ico hu (ha hu), ← Finset.coe_Ico, Set.ncard_coe_finset, Nat.card_Ico,
      if_pos hu]
    exact ⟨Finset.finite_toSet _, by omega⟩
  · have hempty : usableFrames e = ∅ := by
      ext f
      simp [usableFrames, hu]
    simp [hempty, hu]

/-- Entries that share no address are counted page by page. -/
theorem ncard_usable (ha : ∀ e ∈ l, e.Usable → e.Aligned)
    (hd : l.Pairwise fun a b => a.Usable → b.Usable → ∀ x, ¬ (a.Holds x ∧ b.Holds x)) :
    (⋃ t ∈ l.map usableFrames, t).Finite ∧
      (⋃ t ∈ l.map usableFrames, t).ncard = usablePages l := by
  have hfin : ∀ t ∈ l.map usableFrames, t.Finite := by
    intro t ht
    obtain ⟨e, he, rfl⟩ := List.mem_map.mp ht
    exact (ncard_usableFrames (ha e he)).1
  have hdisj : (l.map usableFrames).Pairwise Disjoint := by
    apply List.pairwise_map.mpr
    refine hd.imp ?_
    intro a b hab
    apply Set.disjoint_left.mpr
    rintro f ⟨hau, haf⟩ ⟨hbu, hbf⟩
    exact hab hau hbu _ ⟨haf, hbf⟩
  refine ⟨Set.Finite.biUnion (List.finite_toSet _) hfin, ?_⟩
  rw [ncard_biUnion_list hdisj hfin, usablePages, List.map_map]
  congr 1
  apply List.map_congr_left
  intro e he
  exact (ncard_usableFrames (ha e he)).2

/-- The memory map as step 4 leaves it: still aligned and disjoint, and within the bitmap. -/
theorem hosted_map (la57 : Bool) (bytes : ℤ → BitVec 8) (h : Accepted memoryMap)
    (hb : Below8TiB memoryMap) :
    let l := (pmmInit la57 memoryMap bytes).info.memoryMap
    (∀ e ∈ l, e.Usable → e.Aligned) ∧
    (l.Pairwise fun a b => a.Usable → b.Usable → ∀ x, ¬ (a.Holds x ∧ b.Holds x)) := by
  intro l
  obtain ⟨_, _, _, hmap, _⟩ := pmmInit_frame la57 memoryMap bytes
  obtain ⟨l₁, e, l₂, hl, hu, hs, hhost⟩ := hostBitmap_split la57 h.hosted
  have hz : (bitmapByteSize (findHighestPage memoryMap)).toNat % 4096 = 0 := by
    rw [toNat_bitmapByteSize]
    omega
  have hle := hb e (by simp [hl]) hu
  have hl' : l = l₁ ++ e.shrink (bitmapByteSize (findHighestPage memoryMap)) :: l₂ :=
    hmap.trans (congrArg Prod.snd hhost)
  rw [hl']
  refine ⟨(hosted_aligned (hl ▸ h.aligned) (hl ▸ hb) hu hs hz).1, ?_⟩
  apply pairwise_replace (hl ▸ h.disjoint)
  · intro a _ hae ha _ x hx
    exact hae ha hu x ⟨hx.1, ((shrink_holds hs (by omega)).mp hx.2).1⟩
  · intro a _ hea _ ha x hx
    exact hea hu ha x ⟨((shrink_holds hs (by omega)).mp hx.1).1, hx.2⟩

/-- A frame that `pmm_init` frees lies below `highest_page`. -/
theorem usable_lt_pages (h : Accepted memoryMap) (hb : Below8TiB memoryMap)
    (hf : ∃ e ∈ (pmmInit la57 memoryMap bytes).info.memoryMap, e.Usable ∧ e.HoldsFrame f) :
    f < (pmmInit la57 memoryMap bytes).pages := by
  obtain ⟨_, _, hhp, _⟩ := pmmInit_frame la57 memoryMap bytes
  obtain ⟨⟨e, he, hu, hef⟩, _⟩ := (hosted_frames h hb).mp hf
  rw [pages, hhp]
  exact frame_lt_highestPage h hb he hu hef

/-- The bits of `value` among the first `m` bits of the map. -/
def bits (b : Bitmap) (value : Bool) (m : ℕ) : Finset ℕ := {f ∈ Finset.range m | b.test f = value}

/-- What the counters are meant to say. -/
structure Truthful (s : Pmm) : Prop where
  max : s.info.maxPages.toNat = s.pages
  used : s.info.usedPages.toNat = (bits s.bitmap true s.info.maxPages.toNat).card
  left : (s.info.maxPages - s.info.usedPages).toNat =
    (bits s.bitmap false s.info.maxPages.toNat).card

theorem card_bits (b : Bitmap) (m : ℕ) : (bits b true m).card + (bits b false m).card = m := by
  have h := Finset.card_filter_add_card_filter_not (s := Finset.range m) (fun f => b.test f = true)
  simpa [bits] using h

/-- Some usable entry, as step 4 left it, starts at address 0. -/
def ZeroUsable (s : Pmm) : Prop := ∃ e ∈ s.info.memoryMap, e.Usable ∧ e.HoldsFrame 0

theorem frameFree_initial (h : Accepted memoryMap) (hb : Below8TiB memoryMap)
    (hp : Covered memoryMap) :
    {f | (pmmInit la57 memoryMap bytes).FrameFree f} =
      (⋃ t ∈ (pmmInit la57 memoryMap bytes).info.memoryMap.map usableFrames, t) \ {0} := by
  obtain ⟨_, hsize, hhp, _⟩ := pmmInit_frame la57 memoryMap bytes
  ext f
  simp only [Set.mem_ofPred_eq, Set.mem_sdiff, mem_biUnion_usableFrames, Set.mem_singleton_iff]
  constructor
  · rintro ⟨hf, ht⟩
    exact ((test_pmmInit h hb hf).mp ht).symm
  · rintro ⟨hf, h0⟩
    have hlt := usable_lt_pages h hb hf
    have hsz : f < 8 * (pmmInit la57 memoryMap bytes).bitmap.size.toNat := by
      rw [pages, hhp] at hlt
      rw [hsize]
      exact lt_of_lt_of_le hlt hp
    exact ⟨hsz, (test_pmmInit h hb hsz).mpr ⟨h0, hf⟩⟩

theorem ncard_frames (la57 : Bool) (b : Block) : (b.frames la57).ncard = b.count := by
  have hset : b.frames la57 = Set.Ico (b.index la57).toNat ((b.index la57).toNat + b.count) := rfl
  rw [hset, ← Finset.coe_Ico, Set.ncard_coe_finset, Nat.card_Ico]
  omega

open Classical in
/-- Free pages, live pages and frame 0 make up the pages that `pmm_init` counted as free. -/
theorem ncard_free_add_live (h : Accepted memoryMap) (hb : Below8TiB memoryMap)
    (hp : Covered memoryMap)
    (hr : Run (Guarded la57 FirstRunFits) (start la57 memoryMap bytes) calls c) :
    {f | c.pmm.FrameFree f}.ncard + livePages c +
        (if ZeroUsable (pmmInit la57 memoryMap bytes) then 1 else 0) =
      usablePages (pmmInit la57 memoryMap bytes).info.memoryMap := by
  obtain ⟨_, hex, htotal⟩ := exclusive_guarded hr
  obtain ⟨ha, hd⟩ := hosted_map la57 bytes h hb
  obtain ⟨hfin, hcard⟩ := ncard_usable ha hd
  rw [frameFree_initial h hb hp] at htotal
  have hsum := Pool.ncard_total hex (htotal ▸ hfin.subset Set.sdiff_subset)
  have hlive : ((c.pool la57).live.map Set.ncard).sum = livePages c := by
    simp only [Config.pool, List.map_map, livePages]
    congr 1
    exact List.map_congr_left fun b _ => ncard_frames la57 b
  rw [htotal, hlive] at hsum
  have hsum' : _ = {f | c.pmm.FrameFree f}.ncard + livePages c := hsum
  rw [← hsum', ← hcard]
  split
  · rename_i h0
    exact Set.ncard_sdiff_singleton_add_one (mem_biUnion_usableFrames.mpr h0) hfin
  · rename_i h0
    rw [Set.sdiff_singleton_eq_self fun hm => h0 (mem_biUnion_usableFrames.mp hm)]
    rfl

/-- In a run that keeps to its free frames, the clear bits below `highest_page` are the free
frames of the whole map. -/
theorem card_clear (h : Accepted memoryMap) (hb : Below8TiB memoryMap) (hp : Covered memoryMap)
    (hr : Run (Guarded la57 FirstRunFits) (start la57 memoryMap bytes) calls c) :
    (bits c.pmm.bitmap false c.pmm.pages).card = {f | c.pmm.FrameFree f}.ncard := by
  have hrun : Run (Step la57) _ calls c := hr.mono fun _ _ _ hs => hs.1
  obtain ⟨_, hsize, hhp, _⟩ := run_frame hrun
  obtain ⟨_, hsize₀, hhp₀, _⟩ := pmmInit_frame la57 memoryMap bytes
  obtain ⟨_, _, htotal⟩ := exclusive_guarded hr
  have hle : c.pmm.pages ≤ 8 * c.pmm.bitmap.size.toNat := by
    rw [pages, hhp, hsize, start, hhp₀, hsize₀]
    exact hp
  rw [← Set.ncard_coe_finset]
  congr 1
  ext f
  simp only [bits, Finset.coe_filter, Finset.mem_range, Set.mem_ofPred_eq]
  constructor
  · rintro ⟨hf, ht⟩
    exact ⟨by omega, ht⟩
  · intro hf
    have hmem : f ∈ (c.pool la57).total := Pool.mem_total.mpr (.inl hf)
    rw [htotal, frameFree_initial h hb hp] at hmem
    have hlt := usable_lt_pages h hb (mem_biUnion_usableFrames.mp hmem.1)
    refine ⟨?_, hf.2⟩
    rw [pages, hhp]
    exact hlt

/-- Where `s` bits are set and `f` clear, and `z` pages too many were counted as freed. -/
theorem counter_eq {m : BitVec 32} {s f v u z : ℕ} (hm : m.toNat = s + f) (hu : f + v + z = u) :
    (m - BitVec.ofNat 32 u + BitVec.ofNat 32 v).toNat = (s + (2 ^ 32 - z % 2 ^ 32)) % 2 ^ 32 := by
  subst hu
  simp only [BitVec.toNat_add, BitVec.toNat_sub, BitVec.toNat_ofNat, hm]
  omega

/-- In a run that keeps to its free frames the counters are truthful exactly if the estimate
by `KB_TO_PAGES`, in 32 bits, hits the number of pages and frame 0 was not counted as freed. -/
theorem accounts_truthful (la57 : Bool) (memoryMap : List MmapEntry) (bytes : ℤ → BitVec 8)
    (calls : List Call) (c : Config) (h : Accepted memoryMap) (hb : Below8TiB memoryMap)
    (hp : Covered memoryMap)
    (hr : Run (Guarded la57 FirstRunFits) (start la57 memoryMap bytes) calls c) :
    Truthful c.pmm ↔
      (kbToPages c.pmm.highestPage).toNat % 2 ^ 32 = c.pmm.pages ∧ ¬ ZeroUsable c.pmm := by
  have hrun : Run (Step la57) _ calls c := hr.mono fun _ _ _ hs => hs.1
  obtain ⟨_, _, hhp, hinfo⟩ := run_frame hrun
  obtain ⟨_, _, hhp₀, _, hmax₀, hused₀⟩ := pmmInit_frame la57 memoryMap bytes
  have hmax' : c.pmm.info.maxPages.toNat = (kbToPages c.pmm.highestPage).toNat % 2 ^ 32 := by
    rw [hinfo, hhp, start, hhp₀, ← BitVec.toNat_setWidth]
    exact congrArg BitVec.toNat hmax₀
  have hzero : ZeroUsable c.pmm ↔ ZeroUsable (pmmInit la57 memoryMap bytes) := by
    rw [ZeroUsable, ZeroUsable, hinfo]
    rfl
  have hused : c.pmm.info.usedPages = c.pmm.info.maxPages -
      BitVec.ofNat 32 (usablePages (pmmInit la57 memoryMap bytes).info.memoryMap) +
        BitVec.ofNat 32 (livePages c) := by
    have hmax : c.pmm.info.maxPages = (pmmInit la57 memoryMap bytes).info.maxPages := by
      rw [hinfo]
      rfl
    rw [run_usedPages hrun, hmax, ← hused₀]
  have hfree := ncard_free_add_live h hb hp hr
  have hclear := card_clear h hb hp hr
  have hbits := card_bits c.pmm.bitmap c.pmm.pages
  rw [← hmax', hzero]
  constructor
  · intro ht
    refine ⟨ht.max, ?_⟩
    intro h0
    rw [if_pos h0] at hfree
    have hu := ht.used
    rw [hused, ht.max] at hu
    have := counter_eq (z := 1) (ht.max.trans hbits.symm) (hclear ▸ hfree)
    have := c.pmm.info.maxPages.isLt
    omega
  · rintro ⟨hm, h0⟩
    rw [if_neg h0] at hfree
    have hcount := counter_eq (z := 0) (hm.trans hbits.symm) (hclear ▸ hfree)
    have hlt := c.pmm.info.maxPages.isLt
    have hu : c.pmm.info.usedPages.toNat = (bits c.pmm.bitmap true c.pmm.pages).card := by
      rw [hused]
      omega
    refine ⟨hm, by rw [hu, hm], ?_⟩
    have hle : c.pmm.info.usedPages ≤ c.pmm.info.maxPages := by
      show c.pmm.info.usedPages.toNat ≤ c.pmm.info.maxPages.toNat
      omega
    rw [BitVec.toNat_sub_of_le hle, hm, hu]
    omega

/-- A memory map whose last entry ends 16 bytes into a page, so that the estimate happens to
come out right. -/
def unalignedMap : List MmapEntry :=
  [⟨0x100000#64, 0x82000#64, mmapUsable⟩, ⟨0x401004000#64, 0x10#64, mmapKernelAndModules⟩]

theorem unalignedMap_accepted : Accepted unalignedMap :=
  accepted_pair rfl ⟨by decide, by decide, by decide⟩ (by decide) (by decide)

theorem unalignedMap_below : Below8TiB unalignedMap := by
  intro e he _
  rcases List.mem_pair.mp he with rfl | rfl <;> decide

theorem accounts_truthful_unalignedMap :
    Truthful (pmmInit false unalignedMap fun _ => 0#8) := by
  obtain ⟨_, _, hhp, hmap, _⟩ := pmmInit_frame false unalignedMap fun _ => 0#8
  refine (accounts_truthful false unalignedMap (fun _ => 0#8) [] _ unalignedMap_accepted
    unalignedMap_below (by unfold Covered; decide) (.refl _)).mpr ⟨?_, ?_⟩
  · rw [start, pages, hhp]
    decide
  · rw [ZeroUsable, start, hmap]
    decide

/-- `KB_TO_PAGES` takes kilobytes. For a whole number of pages below 16 TiB, given in bytes,
it never comes out right. -/
theorem kbToPages_bytes_ne {hp : Word} (ha : hp.toNat % 4096 = 0) (h0 : 0 < hp.toNat)
    (hlt : hp.toNat < 2 ^ 44) : (kbToPages hp).toNat % 2 ^ 32 ≠ hp.toNat / 4096 := by
  rw [toNat_kbToPages]
  omega

/-- `smallMap` has 16 pages below its highest address, and `max_pages` is 16384. -/
theorem accounts_truthful_fails :
    ¬ ∀ (la57 : Bool) (memoryMap : List MmapEntry) (bytes : ℤ → BitVec 8),
      Accepted memoryMap → ∀ (calls : List Call) (c : Config),
      Run (Step la57) (start la57 memoryMap bytes) calls c → Truthful c.pmm := by
  intro h
  obtain ⟨_, _, hhp, _, hmax, _⟩ := pmmInit_frame false smallMap fun _ => 0#8
  have htruth := (h false smallMap (fun _ => 0#8) smallMap_accepted [] _ (.refl _)).max
  rw [start, hmax, pages, hhp, BitVec.toNat_setWidth] at htruth
  exact kbToPages_bytes_ne (by decide) (by decide) (by decide) htruth

end KnutOS.Pmm
