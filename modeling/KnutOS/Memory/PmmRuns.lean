import KnutOS.Foundation.Ownership
import KnutOS.Memory.PmmInit

/-! Runs of `pmm_alloc` and `pmm_free` after `pmm_init`. Every free names a live block with
the count it was allocated with; nothing else restricts the calls. -/
namespace KnutOS.Pmm

open Foundation

/-- What a caller keeps of an allocation. -/
structure Block where
  ptr : Word
  count : ℕ
deriving DecidableEq

namespace Block

/-- The frame number `pmm_free` computes for the block. -/
def index (la57 : Bool) (b : Block) : Word := higherHalfDataToPhys la57 b.ptr / pageSize

/-- The page frames of the block. -/
def frames (la57 : Bool) (b : Block) : Set ℕ :=
  {f | (b.index la57).toNat ≤ f ∧ f < (b.index la57).toNat + b.count}

/-- The block of `count` pages that starts at frame `i`. -/
def ofFrame (la57 : Bool) (i count : ℕ) : Block :=
  ⟨physToHigherHalfData la57 (BitVec.ofNat 64 (i * 4096)), count⟩

theorem index_ofFrame (la57 : Bool) {i n : ℕ} (h : i < 2 ^ 52) :
    (Block.ofFrame la57 i n).index la57 = BitVec.ofNat 64 i := by
  simp only [Block.ofFrame, index, higherHalfDataToPhys_physToHigherHalfData, ofNat_mul_div_pageSize h]

end Block

inductive Call
  | alloc (pageCount : ℕ)
  | free (b : Block)

/-- The allocator and the blocks its callers hold. -/
structure Config where
  pmm : Pmm
  live : List Block

inductive Step (la57 : Bool) : Config → Call → Config → Prop
  | alloc {c : Config} {n : ℕ} (hn : 1 ≤ n) (hp : (pmmAlloc la57 c.pmm n).1 ≠ 0#64) :
      Step la57 c (.alloc n)
        ⟨(pmmAlloc la57 c.pmm n).2, ⟨(pmmAlloc la57 c.pmm n).1, n⟩ :: c.live⟩
  | allocNull {c : Config} {n : ℕ} (hn : 1 ≤ n) (hp : (pmmAlloc la57 c.pmm n).1 = 0#64) :
      Step la57 c (.alloc n) ⟨(pmmAlloc la57 c.pmm n).2, c.live⟩
  | free {c : Config} {b : Block} (hb : b ∈ c.live) :
      Step la57 c (.free b) ⟨pmmFree la57 c.pmm b.ptr b.count, c.live.erase b⟩

/-- A step whose `pmm_alloc(n)`, if it is one, is made in a state that satisfies `G`. -/
def Guarded (la57 : Bool) (G : Pmm → ℕ → Prop) (c : Config) (a : Call) (c' : Config) : Prop :=
  Step la57 c a c' ∧ ∀ n, a = .alloc n → G c.pmm n

/-- The state right after `pmm_init`. -/
def start (la57 : Bool) (memoryMap : List MmapEntry) (bytes : ℤ → BitVec 8) : Config :=
  ⟨pmmInit la57 memoryMap bytes, []⟩

variable {la57 : Bool} {c c' : Config} {a : Call} {calls : List Call} {s s₀ : Pmm} {i n f : ℕ}
  {G : Pmm → ℕ → Prop} {b : Block}

/-- Everything a call can do to the allocator and to the live blocks. -/
theorem step_cases (h : Step la57 c a c') :
    (∃ n, a = .alloc n ∧ c.pmm.Dry ∧ c' = c) ∨
    (∃ n i, a = .alloc n ∧ 1 ≤ n ∧ ¬ c.pmm.Dry ∧ c.pmm.FirstFree i ∧
      c' = ⟨c.pmm.take (BitVec.ofNat 64 i) n, Block.ofFrame la57 i n :: c.live⟩) ∨
    (∃ b, a = .free b ∧ b ∈ c.live ∧
      c' = ⟨c.pmm.give (b.index la57) b.count, c.live.erase b⟩) := by
  cases h with
  | @alloc n hn hp =>
    rcases alloc_cases la57 c.pmm hn with ⟨_, he⟩ | ⟨hd, i, hi, he⟩
    · simp [he] at hp
    · exact .inr (.inl ⟨n, i, rfl, hn, hd, hi, by rw [he]; rfl⟩)
  | @allocNull n hn hp =>
    rcases alloc_cases la57 c.pmm hn with ⟨hd, he⟩ | ⟨_, i, hi, he⟩
    · exact .inl ⟨n, rfl, hd, by rw [he]⟩
    · exact (block_ne_null la57 hi (by rw [← hp, he])).elim
  | @free b hb => exact .inr (.inr ⟨b, rfl, hb, rfl⟩)

/-- No call moves the bitmap or changes the data `pmm_init` took from the memory map. -/
theorem run_frame (h : Run (Step la57) c calls c') :
    c'.pmm.bitmap.map = c.pmm.bitmap.map ∧ c'.pmm.bitmap.size = c.pmm.bitmap.size ∧
    c'.pmm.highestPage = c.pmm.highestPage ∧
    c'.pmm.info = { c.pmm.info with usedPages := c'.pmm.info.usedPages } := by
  apply h.invariant (P := fun d => d.pmm.bitmap.map = c.pmm.bitmap.map ∧
    d.pmm.bitmap.size = c.pmm.bitmap.size ∧ d.pmm.highestPage = c.pmm.highestPage ∧
    d.pmm.info = { c.pmm.info with usedPages := d.pmm.info.usedPages }) ⟨rfl, rfl, rfl, rfl⟩
  intro d a d' hd hs
  rcases step_cases hs with ⟨_, _, _, rfl⟩ | ⟨n, i, _, _, _, _, rfl⟩ | ⟨b, _, _, rfl⟩
  · exact hd
  · obtain ⟨h1, h2, h3, h4⟩ := hd
    simp only [take, Bitmap.map_setRun, Bitmap.size_setRun]
    exact ⟨h1, h2, h3, by rw [h4]⟩
  · obtain ⟨h1, h2, h3, h4⟩ := hd
    simp only [give, Bitmap.map_unsetRun, Bitmap.size_unsetRun]
    exact ⟨h1, h2, h3, by rw [h4]⟩

/-- The pages of the live blocks, counted with their multiplicities. -/
def livePages (c : Config) : ℕ := (c.live.map Block.count).sum

/-- The counter moves with the blocks, whatever the bitmap says. -/
theorem run_usedPages (h : Run (Step la57) ⟨s₀, []⟩ calls c) :
    c.pmm.info.usedPages = s₀.info.usedPages + BitVec.ofNat 32 (livePages c) := by
  apply h.invariant (P := fun d =>
    d.pmm.info.usedPages = s₀.info.usedPages + BitVec.ofNat 32 (livePages d)) (by simp [livePages])
  intro d a d' hd hs
  rcases step_cases hs with ⟨_, _, _, rfl⟩ | ⟨n, i, _, _, _, _, rfl⟩ | ⟨b, _, hb, rfl⟩
  · exact hd
  · simp only [take, livePages, List.map_cons, List.sum_cons, hd, BitVec.ofNat_add, Block.ofFrame]
    rw [BitVec.add_assoc, BitVec.add_comm (BitVec.ofNat 32 n)]
  · have hsum := List.sum_map_erase Block.count hb
    simp only [give, livePages, hd, ← hsum, BitVec.ofNat_add]
    rw [BitVec.add_comm (BitVec.ofNat 32 b.count), ← BitVec.add_assoc, BitVec.add_sub_cancel]

end KnutOS.Pmm
