import KnutOS.Memory.Paging

/-! The virtual memory manager (`memory/vmm.c`). It reaches a page directory through the higher
half and the tables below it at their physical addresses. -/
namespace KnutOS

open Foundation

/-- `flags` of a page table entry. -/
def ptePresent : BitVec 32 := 1#32
def pteReadWrite : BitVec 32 := 2#32
def ptePat : BitVec 32 := 128#32

/-- Physical memory and the state of whatever `pmm_alloc` works on. -/
structure Machine (σ : Type*) where
  mem : Memory
  pmm : σ

/-- The physical address behind a pointer: the higher half and the identity map. -/
def dereference (la57 : Bool) (ptr : Word) : Word :=
  if ptr < higherHalfData la57 then ptr else higherHalfDataToPhys la57 ptr

namespace Machine

variable {σ : Type*} (la57 : Bool)

def load (m : Machine σ) (ptr : Word) : Word := m.mem (dereference la57 ptr)

def store (m : Machine σ) (ptr value : Word) : Machine σ :=
  { m with mem := Function.update m.mem (dereference la57 ptr) value }

/-- `memset` with 0 over `size` bytes. -/
def clear (m : Machine σ) (ptr size : Word) : Machine σ :=
  { m with mem := fun a => if a - dereference la57 ptr < size then 0#64 else m.mem a }

end Machine

section

variable {σ : Type*} (la57 : Bool) (pmmAlloc : σ → ℕ → Word × σ)

def vmmCreatePageDirectory (m : Machine σ) : Word × Machine σ :=
  let (newPageDirectory, pmm) := pmmAlloc m.pmm 1
  let m := { m with pmm := pmm }
  (newPageDirectory, m.clear la57 (higherHalfDataToPhys la57 newPageDirectory) pageSize)

def vmmGetPageMapLevel (m : Machine σ) (pageMapLevelX indexX : Word) (flags : BitVec 32) :
    Word × Machine σ :=
  let slot := pageMapLevelX + 8#64 * indexX
  if m.load la57 slot &&& 1#64 ≠ 0#64 then (m.load la57 slot &&& ~~~511#64, m)
  else
    let (page, pmm) := pmmAlloc m.pmm 1
    let m := { m with pmm := pmm }
    let m := m.store la57 slot (higherHalfDataToPhys la57 page ||| flags.signExtend 64)
    (m.load la57 slot &&& ~~~511#64, m)

def tableIndex (virtualAddress : Word) (shift : ℕ) : Word :=
  (virtualAddress &&& (0x1ff#64 <<< shift)) >>> shift

def vmmMapPage (m : Machine σ) (currentPageDirectory physicalAddress virtualAddress : Word)
    (flags : BitVec 32) : Machine σ :=
  let index5 := tableIndex virtualAddress 48
  let index4 := tableIndex virtualAddress 39
  let index3 := tableIndex virtualAddress 30
  let index2 := tableIndex virtualAddress 21
  let index1 := tableIndex virtualAddress 12
  if la57 then
    let (pageMapLevel4, m) := vmmGetPageMapLevel la57 pmmAlloc m currentPageDirectory index5 flags
    let (pageMapLevel3, m) := vmmGetPageMapLevel la57 pmmAlloc m pageMapLevel4 index4 flags
    let (pageMapLevel2, m) := vmmGetPageMapLevel la57 pmmAlloc m pageMapLevel3 index3 flags
    let (pageMapLevel1, m) := vmmGetPageMapLevel la57 pmmAlloc m pageMapLevel2 index2 flags
    m.store la57 (pageMapLevel1 + 8#64 * index1) (physicalAddress ||| flags.signExtend 64)
  else
    let (pageMapLevel3, m) := vmmGetPageMapLevel la57 pmmAlloc m currentPageDirectory index4 flags
    let (pageMapLevel2, m) := vmmGetPageMapLevel la57 pmmAlloc m pageMapLevel3 index3 flags
    let (pageMapLevel1, m) := vmmGetPageMapLevel la57 pmmAlloc m pageMapLevel2 index2 flags
    m.store la57 (pageMapLevel1 + 8#64 * index1) (physicalAddress ||| flags.signExtend 64)

def vmmUnmapPage (m : Machine σ) (currentPageDirectory virtualAddress : Word) : Machine σ :=
  let index5 := tableIndex virtualAddress 48
  let index4 := tableIndex virtualAddress 39
  let index3 := tableIndex virtualAddress 30
  let index2 := tableIndex virtualAddress 21
  let index1 := tableIndex virtualAddress 12
  if la57 then
    let (pageMapLevel4, m) := vmmGetPageMapLevel la57 pmmAlloc m currentPageDirectory index5 0#32
    let (pageMapLevel3, m) := vmmGetPageMapLevel la57 pmmAlloc m pageMapLevel4 index4 0#32
    let (pageMapLevel2, m) := vmmGetPageMapLevel la57 pmmAlloc m pageMapLevel3 index3 0#32
    let (pageMapLevel1, m) := vmmGetPageMapLevel la57 pmmAlloc m pageMapLevel2 index2 0#32
    m.store la57 (pageMapLevel1 + 8#64 * index1) 0#64
  else
    let (pageMapLevel3, m) := vmmGetPageMapLevel la57 pmmAlloc m currentPageDirectory index4 0#32
    let (pageMapLevel2, m) := vmmGetPageMapLevel la57 pmmAlloc m pageMapLevel3 index3 0#32
    let (pageMapLevel1, m) := vmmGetPageMapLevel la57 pmmAlloc m pageMapLevel2 index2 0#32
    m.store la57 (pageMapLevel1 + 8#64 * index1) 0#64

/-- What `vmm_activate_page_directory` writes to cr3. -/
def vmmActivatePageDirectory (currentPageDirectory : Word) : Word :=
  higherHalfDataToPhys la57 currentPageDirectory

def gb : Word := 0x40000000#64

/-- The loop of `vmm_init` with index `i` below `limit`, in steps of `PAGE_SIZE`. -/
def vmmMapWindow (m : Machine σ) (currentPageDirectory limit : Word) (virtualAddress : Word → Word)
    (flags : BitVec 32) : Machine σ :=
  (List.range ((limit.toNat + 4095) / 4096)).foldl (fun m k =>
    let i := BitVec.ofNat 64 (k * 4096)
    vmmMapPage la57 pmmAlloc m currentPageDirectory i (virtualAddress i) flags) m

/-- `vmm_init`, with what it writes to cr3. -/
def vmmInit (m : Machine σ) : Word × Machine σ :=
  let (rootPageDirectory, m) := vmmCreatePageDirectory la57 pmmAlloc m
  let m := vmmMapWindow la57 pmmAlloc m rootPageDirectory (4#64 * gb) (fun i => i)
    (ptePresent ||| pteReadWrite)
  let m := vmmMapWindow la57 pmmAlloc m rootPageDirectory (4#64 * gb) (physToHigherHalfData la57)
    (ptePresent ||| pteReadWrite)
  let m := vmmMapWindow la57 pmmAlloc m rootPageDirectory 0x80000000#64 physToHigherHalfCode
    ptePresent
  (vmmActivatePageDirectory la57 rootPageDirectory, m)

/-- The calls of `vmm_get_page_map_level` one after the other. -/
def descend (m : Machine σ) (table : Word) (flags : BitVec 32) : List Index → Word × Machine σ
  | [] => (table, m)
  | i :: is =>
    let (table, m) := vmmGetPageMapLevel la57 pmmAlloc m table (i.setWidth 64) flags
    descend m table flags is

end

section

variable {σ : Type*} (la57 : Bool) (pmmAlloc : σ → ℕ → Word × σ) (m : Machine σ) (dir pa va : Word)
  (flags : BitVec 32)

theorem tableIndex_eq (shift : ℕ) (h : shift ≤ 48) :
    tableIndex va shift = (va.extractLsb' shift 9).setWidth 64 := by
  apply BitVec.eq_of_getLsbD_eq
  intro i hi
  have hmask : (0x1ff#64).getLsbD i = decide (i < 9) := by
    rw [show 0x1ff#64 = BitVec.ofNat 64 (2 ^ 9 - 1) from rfl, BitVec.getLsbD_ofNat,
      Nat.testBit_two_pow_sub_one]
    simp [hi]
  simp only [tableIndex, BitVec.getLsbD_ushiftRight, BitVec.getLsbD_and, BitVec.getLsbD_shiftLeft,
    BitVec.getLsbD_setWidth, BitVec.getLsbD_extractLsb', Nat.add_sub_cancel_left, hmask, hi]
  by_cases h9 : i < 9
  · simp [h9, show shift + i < 64 by omega]
  · simp [h9]

theorem vmmMapPage_eq : vmmMapPage la57 pmmAlloc m dir pa va flags =
    let (table, m) := descend la57 pmmAlloc m dir flags (upperIndices la57 va)
    m.store la57 (table + 8#64 * (leafIndex va).setWidth 64) (pa ||| flags.signExtend 64) := by
  simp only [vmmMapPage, tableIndex_eq va 48 (by decide), tableIndex_eq va 39 (by decide),
    tableIndex_eq va 30 (by decide), tableIndex_eq va 21 (by decide), tableIndex_eq va 12 (by decide)]
  cases la57 <;> rfl

theorem vmmUnmapPage_eq : vmmUnmapPage la57 pmmAlloc m dir va =
    let (table, m) := descend la57 pmmAlloc m dir 0#32 (upperIndices la57 va)
    m.store la57 (table + 8#64 * (leafIndex va).setWidth 64) 0#64 := by
  simp only [vmmUnmapPage, tableIndex_eq va 48 (by decide), tableIndex_eq va 39 (by decide),
    tableIndex_eq va 30 (by decide), tableIndex_eq va 21 (by decide), tableIndex_eq va 12 (by decide)]
  cases la57 <;> rfl

end

/-- A pointer by which the kernel reaches the table in frame `f`. -/
def PointsTo (la57 : Bool) (ptr : Word) (f : Frame) : Prop :=
  ∀ i : Index, dereference la57 (ptr + 8#64 * i.setWidth 64) = entryAddr f i

theorem pointsTo_frameAddr (la57 : Bool) (f : Frame) : PointsTo la57 (frameAddr f) f := by
  intro i
  have hn := toNat_entryAddr f i
  have hf := f.isLt
  have hi := i.isLt
  have hlt : entryAddr f i < higherHalfData la57 := by
    cases la57 <;>
      simp only [higherHalfData, Bool.false_eq_true, if_false, if_true, BitVec.lt_def, hn] <;>
      simp <;> omega
  exact if_pos hlt

/-- What `pmm_alloc` returns for a frame below 128 TiB. -/
theorem pointsTo_higherHalf (la57 : Bool) {f : Frame} (h : f.toNat < 2 ^ 35) :
    PointsTo la57 (physToHigherHalfData la57 (frameAddr f)) f := by
  intro i
  have hn := toNat_entryAddr f i
  have hi := i.isLt
  have hsum : physToHigherHalfData la57 (frameAddr f) + 8#64 * i.setWidth 64 =
      physToHigherHalfData la57 (entryAddr f i) := by
    rw [physToHigherHalfData, physToHigherHalfData, entryAddr, BitVec.add_assoc]
  have hge : ¬ physToHigherHalfData la57 (entryAddr f i) < higherHalfData la57 := by
    cases la57 <;>
      simp only [physToHigherHalfData, higherHalfData, Bool.false_eq_true, if_false, if_true,
        BitVec.lt_def, BitVec.toNat_add, hn] <;>
      simp <;> omega
  rw [hsum, dereference, if_neg hge, higherHalfDataToPhys_physToHigherHalfData]

end KnutOS
