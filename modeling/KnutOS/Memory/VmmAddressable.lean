import KnutOS.Memory.PmmRuns
import KnutOS.Memory.VmmInit
import KnutOS.Memory.VmmPmm

/-! Whether the pages that `pmm_alloc` returns can be used under the directory of `vmm_init`, whose
direct map ends at 4 GiB. -/
namespace KnutOS.Vmm

open Foundation RadixTree Pmm

/-- Each of the `n` pages from `p` on is present and writable, and leads to its physical page. -/
def Usable (la57 : Bool) (mem : Memory) (cr3 p : Word) (n : ℕ) : Prop :=
  ∀ k < n, ∃ phys flags user,
    p + BitVec.ofNat 64 (k * 4096) = physToHigherHalfData la57 phys ∧
    pageWalk la57 mem cr3 (p + BitVec.ofNat 64 (k * 4096)) = .page phys flags ∧
    rights la57 mem cr3 (p + BitVec.ofNat 64 (k * 4096)) = some ⟨true, user⟩

/-- The page frames that `vmm_init` gets, one for each of its calls of `pmm_alloc(1)`. -/
def Gets (la57 : Bool) (s : Pmm) (frames : ℕ → Frame) (mem : Memory) : Prop :=
  ∀ k < (vmmInit la57 (handOut la57 frames) ⟨mem, 0⟩).2.pmm, handedOut la57 s k = some (frames k)

variable {la57 : Bool} {s : Pmm} {frames : ℕ → Frame} {mem : Memory} {N i j n : ℕ}

/-! `vmm_init` on the physical manager. -/

section

variable {τ : Type*} {A : ℕ → ℕ → Word × ℕ} {B : τ → ℕ → Word × τ} {g : ℕ → τ}
  (hA : ∀ k n, (A k n).2 = k + 1) (h : ∀ k < N, B (g k) 1 = ((A k 1).1, g (k + 1)))
include hA h

theorem create_map (m : Machine ℕ) (hm : m.pmm < N) :
    vmmCreatePageDirectory la57 B (m.map g) =
      ((vmmCreatePageDirectory la57 A m).1, (vmmCreatePageDirectory la57 A m).2.map g) := by
  simp only [vmmCreatePageDirectory, Machine.map, Machine.clear, h m.pmm hm, hA]

theorem applyAll_map (dir : Word) (calls : List Call) (m : Machine ℕ)
    (hN : (applyAll la57 A dir calls m).pmm ≤ N) :
    applyAll la57 B dir calls (m.map g) = (applyAll la57 A dir calls m).map g := by
  induction calls generalizing m with
  | nil => rfl
  | cons a calls ih =>
    have hle := (pmm_applyAll la57 A hA dir calls (a.applyWith la57 A dir m)).1.trans hN
    have hhead := applyWith_map hA h dir m a hle
    have htail := ih (a.applyWith la57 A dir m) hN
    simp only [applyAll, List.foldl_cons] at htail ⊢
    rw [hhead, htail]

theorem vmmInit_map (m : Machine ℕ) (hN : (vmmInit la57 A m).2.pmm ≤ N) :
    vmmInit la57 B (m.map g) = ((vmmInit la57 A m).1, (vmmInit la57 A m).2.map g) := by
  simp only [vmmInit_eq] at hN ⊢
  have hone : (vmmCreatePageDirectory la57 A m).2.pmm = m.pmm + 1 := hA m.pmm 1
  have hle := (pmm_applyAll la57 A hA (vmmCreatePageDirectory la57 A m).1 (initCalls la57)
    (vmmCreatePageDirectory la57 A m).2).1.trans hN
  rw [create_map hA h m (by omega)]
  simp only [applyAll_map hA h _ _ _ hN]

end

theorem vmmInit_pmm (hgets : Gets la57 s frames mem) :
    vmmInit la57 (pmmAlloc la57) ⟨mem, s⟩ =
      ((vmmInit la57 (handOut la57 frames) ⟨mem, 0⟩).1,
        (vmmInit la57 (handOut la57 frames) ⟨mem, 0⟩).2.map (afterAllocs la57 s)) := by
  refine vmmInit_map (g := afterAllocs la57 s) (fun _ _ => rfl) (fun k hk => ?_) ⟨mem, 0⟩ le_rfl
  have hanswer := answer_handedOut la57 s k
  rw [hgets k hk] at hanswer
  exact Prod.ext hanswer.symm (afterAllocs_succ la57 s k).symm

theorem mem_vmmInit (hgets : Gets la57 s frames mem) :
    (vmmInit la57 (pmmAlloc la57) ⟨mem, s⟩).2.mem =
      (vmmInit la57 (handOut la57 frames) ⟨mem, 0⟩).2.mem :=
  (congrArg (fun r => r.2.mem) (vmmInit_pmm hgets)).trans (Machine.mem_map _ _)

theorem dir_vmmInit (hgets : Gets la57 s frames mem) :
    (vmmInit la57 (pmmAlloc la57) ⟨mem, s⟩).1 =
      (vmmInit la57 (handOut la57 frames) ⟨mem, 0⟩).1 :=
  congrArg Prod.fst (vmmInit_pmm hgets)

theorem pmm_vmmInit (hgets : Gets la57 s frames mem) :
    (vmmInit la57 (pmmAlloc la57) ⟨mem, s⟩).2.pmm =
      afterAllocs la57 s (vmmInit la57 (handOut la57 frames) ⟨mem, 0⟩).2.pmm :=
  (congrArg (fun r => r.2.pmm) (vmmInit_pmm hgets)).trans (Machine.pmm_map _ _)

/-- Within 8 TiB the frames that `pmm_alloc` returns are distinct by themselves. -/
theorem freshFrames_of_gets (hp : s.pages ≤ 2 ^ 31) (hgets : Gets la57 s frames mem)
    (hz : ∀ k < (vmmInit la57 (handOut la57 frames) ⟨mem, 0⟩).2.pmm,
      ∀ i, mem.entries (frames k) i = 0#64) :
    FreshFrames frames mem (vmmInit la57 (handOut la57 frames) ⟨mem, 0⟩).2.pmm := by
  refine ⟨fun k hk => ?_, fun j k hjk hk => ?_, hz⟩
  · exact (handedOut_lt (hgets k hk)).trans (by decide)
  · exact distinct_handedOut la57 hp _ j k _ _ hjk hk (hgets j (hjk.trans hk)) (hgets k hk)

/-- Calls of `pmm_alloc(1)` are a run, whether they succeed or not. -/
theorem run_allocs (la57 : Bool) (s : Pmm) (live : List Pmm.Block) (k : ℕ) :
    ∃ c, Run (Pmm.Step la57) ⟨s, live⟩ (List.replicate k (.alloc 1)) c ∧
      c.pmm = afterAllocs la57 s k := by
  induction k generalizing s live with
  | zero => exact ⟨_, .refl _, rfl⟩
  | succ k ih =>
    rw [List.replicate_succ]
    by_cases hp : (pmmAlloc la57 s 1).1 = 0#64
    · obtain ⟨c, hrun, hc⟩ := ih (pmmAlloc la57 s 1).2 live
      exact ⟨c, .stepL (.allocNull le_rfl hp) hrun, hc⟩
    · obtain ⟨c, hrun, hc⟩ := ih (pmmAlloc la57 s 1).2 (⟨(pmmAlloc la57 s 1).1, 1⟩ :: live)
      exact ⟨c, .stepL (.alloc le_rfl hp) hrun, hc⟩

/-! The pages behind frame `j` in the direct map. -/

theorem toNat_direct (la57 : Bool) (hj : j < 2 ^ 32) :
    (physToHigherHalfData la57 (BitVec.ofNat 64 (j * 4096))).toNat =
      (higherHalfData la57).toNat + j * 4096 := by
  have hn : (BitVec.ofNat 64 (j * 4096)).toNat = j * 4096 := by
    rw [BitVec.toNat_ofNat]
    omega
  have hhigh : (higherHalfData la57).toNat ≤ 2 ^ 64 - 2 ^ 47 := by cases la57 <;> decide
  rw [physToHigherHalfData, BitVec.toNat_add, hn, Nat.mod_eq_of_lt (by omega)]

theorem isPage_direct (la57 : Bool) (hj : j < 2 ^ 32) :
    IsPage la57 (physToHigherHalfData la57 (BitVec.ofNat 64 (j * 4096))) := by
  have hn := toNat_direct la57 hj
  cases la57 with
  | false =>
    rw [show (higherHalfData false).toNat = 2 ^ 64 - 2 ^ 47 from rfl] at hn
    exact isPage_of_half (by omega) (.inr (by simp only [Bool.false_eq_true, if_false]; omega))
  | true =>
    rw [show (higherHalfData true).toNat = 2 ^ 64 - 2 ^ 56 from rfl] at hn
    exact isPage_of_half (by omega) (.inr (by simp only [if_true]; omega))

theorem direct_mapped (la57 : Bool) (hj : j < 2 ^ 20) :
    initMap la57 (physToHigherHalfData la57 (BitVec.ofNat 64 (j * 4096))) =
      some (BitVec.ofNat 64 (j * 4096), 3#9) := by
  have hn := toNat_direct la57 (show j < 2 ^ 32 by omega)
  rw [initMap_data la57 ⟨by omega, by omega⟩]
  exact congrArg (fun a => some (a, 3#9)) (higherHalfDataToPhys_physToHigherHalfData la57 _)

theorem direct_unmapped (la57 : Bool) (hj : 2 ^ 20 ≤ j) (hj' : j < 2 ^ 32) :
    initMap la57 (physToHigherHalfData la57 (BitVec.ofNat 64 (j * 4096))) = none := by
  have hn := toNat_direct la57 hj'
  have hhigh : 2 ^ 63 ≤ (higherHalfData la57).toNat := by cases la57 <;> decide
  have hlow : (higherHalfData la57).toNat ≤ 2 ^ 64 - 2 ^ 47 := by cases la57 <;> decide
  have hcode : higherHalfCode.toNat = 2 ^ 64 - 2 ^ 31 := rfl
  exact initMap_elsewhere la57 (by omega) (by omega) (by omega)

theorem direct_add (la57 : Bool) (i k : ℕ) :
    physToHigherHalfData la57 (BitVec.ofNat 64 (i * 4096)) + BitVec.ofNat 64 (k * 4096) =
      physToHigherHalfData la57 (BitVec.ofNat 64 ((i + k) * 4096)) := by
  rw [physToHigherHalfData, physToHigherHalfData, BitVec.add_assoc, Nat.add_mul, BitVec.ofNat_add]

/-- The block of `n` pages from frame `i` on is usable exactly if it ends below 4 GiB. -/
theorem usable_block_iff (hfresh : FreshFrames frames mem
      (vmmInit la57 (handOut la57 frames) ⟨mem, 0⟩).2.pmm) (hi : i < 2 ^ 32) (hn : 1 ≤ n) :
    Usable la57 (vmmInit la57 (handOut la57 frames) ⟨mem, 0⟩).2.mem
        (vmmInit la57 (handOut la57 frames) ⟨mem, 0⟩).1
        (physToHigherHalfData la57 (BitVec.ofNat 64 (i * 4096))) n ↔ i + n ≤ 2 ^ 20 := by
  constructor
  · intro h
    by_contra hlast
    -- the first page of the block at 4 GiB or above
    obtain ⟨k, hk, hj, hj'⟩ : ∃ k, k < n ∧ 2 ^ 20 ≤ i + k ∧ i + k < 2 ^ 32 :=
      ⟨2 ^ 20 - i, by omega, by omega, by omega⟩
    obtain ⟨phys, flags, _, _, hwalk, _⟩ := h k hk
    rw [direct_add, (init_walk la57 hfresh (isPage_direct la57 hj')).1,
      direct_unmapped la57 hj hj'] at hwalk
    cases hwalk
  · intro hlast k hk
    have hj : i + k < 2 ^ 20 := by omega
    obtain ⟨hwalk, hrights⟩ := init_walk la57 hfresh (isPage_direct la57 (show i + k < 2 ^ 32 by omega))
    have hmap := direct_mapped la57 hj
    rw [direct_add]
    exact ⟨_, 3#9, false, rfl, by rw [hwalk, hmap]; rfl, hrights _ _ hmap⟩

/-- After `pmm_init` and a `vmm_init` that gets zero-filled frames, in whatever state `s` the manager
is by then: the block that `pmm_alloc(n)` returns is usable exactly if it ends below
4 GiB, where the first free frame and `n` say so. -/
theorem alloc_usable_iff (la57 : Bool) (memoryMap : List MmapEntry) (bytes : ℤ → BitVec 8)
    (mem : Memory) (frames : ℕ → Frame)
    (hgets : Gets la57 (pmmInit la57 memoryMap bytes) frames mem)
    (hfresh : FreshFrames frames mem (vmmInit la57 (handOut la57 frames) ⟨mem, 0⟩).2.pmm)
    (s : Pmm) (n : ℕ) (hp : (pmmAlloc la57 s n).1 ≠ 0#64) :
    Usable la57 (vmmInit la57 (pmmAlloc la57) ⟨mem, pmmInit la57 memoryMap bytes⟩).2.mem
        (vmmInit la57 (pmmAlloc la57) ⟨mem, pmmInit la57 memoryMap bytes⟩).1
        (pmmAlloc la57 s n).1 n ↔
      ∀ i, s.FirstFree i → i + n ≤ 2 ^ 20 := by
  have hn : 1 ≤ n := by
    by_contra hn
    obtain rfl : n = 0 := by omega
    exact hp (by simp [pmmAlloc, pmmFindFirstFreePage])
  rcases Pmm.alloc_cases la57 s hn with ⟨_, he⟩ | ⟨_, i, hi, he⟩
  · exact absurd (congrArg Prod.fst he) hp
  · rw [mem_vmmInit hgets, dir_vmmInit hgets, he]
    refine (usable_block_iff hfresh hi.lt hn).trans ⟨fun hlast j hj => ?_, fun h => h i hi⟩
    rwa [← hi.unique hj]

/-- 3 GiB of memory below 4 GiB, and 64 GiB above. -/
def bigMap : List MmapEntry :=
  [⟨0x100000#64, 0xBFF00000#64, mmapUsable⟩, ⟨0x100000000#64, 0x1000000000#64, mmapUsable⟩]

theorem bigMap_accepted : Accepted bigMap := by
  refine ⟨?_, ?_, ⟨0x100000#64, 0xBFF00000#64, mmapUsable⟩, by simp [bigMap], rfl, by decide⟩
  · intro e he _
    rcases List.mem_pair.mp he with rfl | rfl
    · exact ⟨by decide, by decide, by decide⟩
    · exact ⟨by decide, by decide, by decide⟩
  · refine List.pairwise_pair.mpr fun _ _ x hx => ?_
    obtain ⟨⟨_, h1⟩, h2, _⟩ := hx
    simp only [BitVec.toNat_ofNat] at h1 h2
    omega

theorem bigMap_below : Below8TiB bigMap := by
  intro e he _
  rcases List.mem_pair.mp he with rfl | rfl
  · decide
  · decide

/-- The manager that `pmm_init` makes of `bigMap`. -/
def bigPmm : Pmm := pmmInit false bigMap fun _ => 0#8

/-- The frames behind the bitmap are free, below 4 GiB and above. -/
theorem bigPmm_freeRun {lo count : ℕ}
    (hin : ∀ i, lo ≤ i → i < lo + count → 800 ≤ i ∧ i < 786432 ∨ 2 ^ 20 ≤ i ∧ i < 17825792)
    (hend : lo + count ≤ 17825792) : FreeRun bigPmm lo count := by
  obtain ⟨_, hsize, hhighest, hmap, hmax, hused⟩ := pmmInit_frame false bigMap fun _ => 0#8
  have hbytes : (bitmapByteSize (findHighestPage bigMap)).toNat = 2228224 := by decide
  have hpages : bigPmm.pages = 17825792 := by
    rw [Pmm.pages, bigPmm, hhighest]
    decide
  have hhost : (hostBitmap false (bitmapByteSize (findHighestPage bigMap)) bigMap).2 =
      [⟨0x320000#64, 0xBFCE0000#64, mmapUsable⟩, ⟨0x100000000#64, 0x1000000000#64, mmapUsable⟩] := by
    decide
  rw [hmax, hmap, hhost] at hused
  rw [hhost] at hmap
  have htest : ∀ i < 17825792, bigPmm.bitmap.test i = false ↔
      i ≠ 0 ∧ ∃ e ∈ bigPmm.info.memoryMap, e.Usable ∧ e.HoldsFrame i :=
    fun i hi => test_pmmInit bigMap_accepted bigMap_below (by rw [hsize, hbytes]; omega)
  refine ⟨by omega, by omega, ?_, ?_, ?_⟩
  · by_contra h0
    exact ((htest 0 (by omega)).mp (Bool.eq_false_of_not_eq_true h0)).1 rfl
  · intro i hlow hi
    have hplace := hin i hlow hi
    refine (htest i (by omega)).mpr ⟨by omega, ?_⟩
    rw [bigPmm, hmap]
    rcases hplace with hplace | hplace
    · refine ⟨⟨0x320000#64, 0xBFCE0000#64, mmapUsable⟩, by simp, rfl, ?_⟩
      simp only [MmapEntry.HoldsFrame, MmapEntry.Holds, BitVec.toNat_ofNat]
      omega
    · refine ⟨⟨0x100000000#64, 0x1000000000#64, mmapUsable⟩, by simp, rfl, ?_⟩
      simp only [MmapEntry.HoldsFrame, MmapEntry.Holds, BitVec.toNat_ofNat]
      omega
  · intro k hk h
    have hstart : bigPmm.info.usedPages = 1056178976#32 := by
      rw [bigPmm, hused]
      decide
    have hn := congrArg BitVec.toNat h
    rw [hstart, BitVec.toNat_add, BitVec.toNat_ofNat] at hn
    simp only [BitVec.toNat_ofNat] at hn
    omega

/-- 2 GiB behind the bitmap. -/
theorem bigPmm_lowRun : FreeRun bigPmm 800 (2 ^ 19) :=
  bigPmm_freeRun (fun i _ _ => .inl (by omega)) (by decide)

/-- The 64 GiB. -/
theorem bigPmm_highRun : FreeRun bigPmm (2 ^ 20) (2 ^ 24) :=
  bigPmm_freeRun (fun i _ _ => .inr (by omega)) (by decide)

/-- The frames it hands out. -/
def bigFrames (k : ℕ) : Frame := (handedOut false bigPmm k).getD 0#40

theorem bigMap_gets : Gets false bigPmm bigFrames fun _ => 0#64 := by
  intro k hk
  have hlt := hk.trans_le (pmm_vmmInit_le false bigFrames fun _ => 0#64)
  obtain ⟨b, hb, hpacked⟩ := exists_packed bigPmm_highRun (show k ≤ 2 ^ 24 by omega)
  obtain ⟨i, _, _, _, hsome, _⟩ := packed_succ bigPmm_highRun hpacked hb (by omega)
  rw [bigFrames, hsome]
  rfl

theorem bigMap_fresh : FreshFrames bigFrames (fun _ => 0#64)
    (vmmInit false (handOut false bigFrames) ⟨fun _ => 0#64, 0⟩).2.pmm :=
  freshFrames_of_gets bigPmm_highRun.pages_le bigMap_gets fun _ _ _ => rfl

/-- Four GiB later the frames from 4 GiB on are all that is left. -/
theorem bigMap_run : ∃ c : Pmm.Config,
    Run (Pmm.Step false)
      ⟨(vmmInit false (pmmAlloc false) ⟨fun _ => 0#64, bigPmm⟩).2.pmm, []⟩
      (List.replicate (2 ^ 20) (.alloc 1)) c ∧
    ∃ i, c.pmm.FirstFree i ∧ 2 ^ 20 ≤ i ∧
      (pmmAlloc false c.pmm 1).1 = physToHigherHalfData false (BitVec.ofNat 64 (i * 4096)) := by
  have hle := pmm_vmmInit_le false bigFrames fun _ => 0#64
  rw [pmm_vmmInit bigMap_gets]
  generalize (vmmInit false (handOut false bigFrames) ⟨fun _ => 0#64, 0⟩).2.pmm = N at hle ⊢
  obtain ⟨c, hrun, hc⟩ := run_allocs false (afterAllocs false bigPmm N) [] (2 ^ 20)
  rw [← afterAllocs_add] at hc
  obtain ⟨b, hb, hpacked⟩ :=
    exists_packed bigPmm_highRun (show N + 2 ^ 20 ≤ 2 ^ 24 by omega)
  obtain ⟨i, hi, _, hfirst, _, hptr, _⟩ := packed_succ bigPmm_highRun hpacked hb (by omega)
  exact ⟨c, hrun, i, hc ▸ hfirst, by omega, by rw [hc, hptr]⟩

/-- The first page after `vmm_init` is one below 4 GiB. -/
theorem bigMap_first : ∃ i,
    (vmmInit false (pmmAlloc false) ⟨fun _ => 0#64, bigPmm⟩).2.pmm.FirstFree i ∧ i < 2 ^ 20 ∧
      (pmmAlloc false (vmmInit false (pmmAlloc false) ⟨fun _ => 0#64, bigPmm⟩).2.pmm 1).1 =
        physToHigherHalfData false (BitVec.ofNat 64 (i * 4096)) := by
  have hle := pmm_vmmInit_le_of_fresh false bigMap_fresh
  rw [pmm_vmmInit bigMap_gets]
  generalize (vmmInit false (handOut false bigFrames) ⟨fun _ => 0#64, 0⟩).2.pmm = N at hle ⊢
  obtain ⟨b, hb, hpacked⟩ := exists_packed bigPmm_lowRun (show N ≤ 2 ^ 19 by omega)
  obtain ⟨i, _, hi, hfirst, _, hptr, _⟩ := packed_succ bigPmm_lowRun hpacked hb (by omega)
  exact ⟨i, hfirst, by omega, hptr⟩

/-- The directory and the state after `vmm_init`. -/
def bigInit : Word × Machine Pmm := vmmInit false (pmmAlloc false) ⟨fun _ => 0#64, bigPmm⟩

/-- The first page can be used, and one after 4 GiB of others cannot. -/
theorem alloc_usable_bigMap :
    Usable false bigInit.2.mem bigInit.1 (pmmAlloc false bigInit.2.pmm 1).1 1 ∧
    ∃ c : Pmm.Config, Run (Pmm.Step false) ⟨bigInit.2.pmm, []⟩ (List.replicate (2 ^ 20) (.alloc 1)) c ∧
      ¬ Usable false bigInit.2.mem bigInit.1 (pmmAlloc false c.pmm 1).1 1 := by
  have husable : ∀ s : Pmm, (pmmAlloc false s 1).1 ≠ 0#64 →
      (Usable false bigInit.2.mem bigInit.1 (pmmAlloc false s 1).1 1 ↔
        ∀ i, s.FirstFree i → i + 1 ≤ 2 ^ 20) := by
    intro s hne
    rw [bigInit, bigPmm]
    exact alloc_usable_iff false bigMap (fun _ => 0#8) (fun _ => 0#64) bigFrames bigMap_gets
      bigMap_fresh s 1 hne
  have hfirst := bigMap_first
  have hlater := bigMap_run
  rw [← bigInit] at hfirst hlater
  -- neither part computes the directory
  generalize bigInit = r at husable hfirst hlater ⊢
  constructor
  · obtain ⟨i, hi, hlow, hptr⟩ := hfirst
    have hne : (pmmAlloc false r.2.pmm 1).1 ≠ 0#64 := hptr ▸ block_ne_null false hi
    refine (husable _ hne).mpr fun j hj => ?_
    rw [hj.unique hi]
    exact hlow
  · obtain ⟨c, hrun, i, hi, hhigh, hptr⟩ := hlater
    have hne : (pmmAlloc false c.pmm 1).1 ≠ 0#64 := hptr ▸ block_ne_null false hi
    refine ⟨c, hrun, fun h => ?_⟩
    have hlast := (husable c.pmm hne).mp h i hi
    omega

/-- The 64 GiB are handed out although they are not mapped. -/
theorem alloc_usable_fails :
    Accepted bigMap ∧ (Gets false bigPmm bigFrames fun _ => 0#64) ∧
    FreshFrames bigFrames (fun _ => 0#64)
      (vmmInit false (handOut false bigFrames) ⟨fun _ => 0#64, 0⟩).2.pmm ∧
    ¬ ∀ (calls : List Pmm.Call) (c : Pmm.Config),
      Run (Pmm.Step false)
        ⟨(vmmInit false (pmmAlloc false) ⟨fun _ => 0#64, bigPmm⟩).2.pmm, []⟩ calls c →
      ∀ n, (pmmAlloc false c.pmm n).1 ≠ 0#64 →
      Usable false (vmmInit false (pmmAlloc false) ⟨fun _ => 0#64, bigPmm⟩).2.mem
        (vmmInit false (pmmAlloc false) ⟨fun _ => 0#64, bigPmm⟩).1 (pmmAlloc false c.pmm n).1 n := by
  refine ⟨bigMap_accepted, bigMap_gets, bigMap_fresh, fun h => ?_⟩
  obtain ⟨c, hrun, i, hi, hhigh, hptr⟩ := bigMap_run
  have husable := h _ c hrun 1 (hptr ▸ block_ne_null false hi)
  rw [mem_vmmInit bigMap_gets, dir_vmmInit bigMap_gets, hptr] at husable
  have hlast := (usable_block_iff bigMap_fresh hi.lt le_rfl).mp husable
  omega

end KnutOS.Vmm
