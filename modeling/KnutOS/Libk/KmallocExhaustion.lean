import KnutOS.Libk.KmallocSafety
import KnutOS.Memory.PmmSafety
import KnutOS.Memory.SlabAvailability

/-! `kmalloc` when its allocator has nothing left, and when it has. -/
namespace KnutOS.Kmalloc

open Foundation
open Slab (Pages Lists objectSize objectCount)

section

variable {σ : Type}

/-- `kmalloc(size)` makes the one request `r`. -/
def Consults (A : Allocators σ) (h : Heap σ) (size : Word) (r : Request) : Prop :=
  ∃ p h', kmalloc (recorded A) ⟨h.bytes, h.alloc, []⟩ size = some (p, h') ∧ h'.alloc.2 = [r]

/-- A refusal of the allocator is passed on, and leaves no trace. -/
def FailsCleanly (A : Allocators σ) (h : Heap σ) (size : Word) : Prop :=
  ∀ r, Consults A h size r → answer A h.alloc r = 0#64 → kmalloc A h size = some (0#64, h)

end

/-- There are as many consecutive free frames below `highest_page` as the request asks for. -/
def EnoughFrames (pmm : Pmm) : Request → Prop
  | .pmmAlloc n => ∃ i, ∀ k < n.toNat, i + k < pmm.pages ∧ pmm.FrameFree (i + k)
  | _ => True

/-- The block at `base` that answers a request consists of free frames, or is a free object of
the size asked for. -/
def FreeBlock (la57 : Bool) (s : Pmm × Slabs) (base : Word) : Request → Prop
  | .pmmAlloc n => ∀ f ∈ Pmm.Block.frames la57 ⟨base, n.toNat⟩, s.1.FrameFree f
  | .slabAlloc size => ∃ i < 11, size = BitVec.ofNat 64 (objectSize i) ∧
      ∃ j < objectCount i, (s.2 i).objects j = base
  | _ => False

/-- `kmalloc(size)` returns a pointer to `size` bytes of a block that was free. -/
def Succeeds (la57 : Bool) (h : Heap (Pmm × Slabs)) (size : Word) : Prop :=
  ∃ r p h', Consults (kernelAllocators la57) h size r ∧
    kmalloc (kernelAllocators la57) h size = some (p, h') ∧ p ≠ 0#64 ∧
    FreeBlock la57 h.alloc (answer (kernelAllocators la57) h.alloc r) r ∧
    (answer (kernelAllocators la57) h.alloc r).toNat ≤ p.toNat ∧
    p.toNat + size.toNat ≤ (answer (kernelAllocators la57) h.alloc r).toNat + r.blockSize

/-- Exhaustion is reported cleanly, and nothing else fails. -/
structure Reports (la57 : Bool) (h : Heap (Pmm × Slabs)) (size : Word) : Prop where
  failure : FailsCleanly (kernelAllocators la57) h size
  success : size.toNat ≤ 2 ^ 63 → (∀ i < 11, Lists h.alloc.2 i) →
    (∀ r, Consults (kernelAllocators la57) h size r → EnoughFrames h.alloc.1 r) →
    Succeeds la57 h size

/-- The pages that `kmalloc` asks for to hold `newSize` bytes and a header. -/
def pageCount (newSize : Word) : Word := newSize / pageSize + 1#64

/-- The frames from the first free one on are free. -/
def FirstRunFree (pmm : Pmm) (n : ℕ) : Prop :=
  ∀ i, pmm.FirstFree i → ∀ k < n, pmm.FrameFree (i + k)

/-- When `kmalloc` keeps its promises. For sizes beyond `2 ^ 63` it never returns; page requests
need a PMM that does not refuse, and whose first free frame starts a long enough run if there is
one; object requests up to 2040 bytes need a slab that is not marked full and lists an object. -/
def Ready (pmm : Pmm) (slabs : Slabs) (size : Word) : Prop :=
  2 ^ 63 < size.toNat ∨
  (2048 < size.toNat ∧ size.toNat ≤ 2 ^ 63 ∧ ¬ pmm.Dry ∧
    ∀ newSize, nextPowOfTwo size = some newSize → (∀ i < 11, Lists slabs i) →
      EnoughFrames pmm (.pmmAlloc (pageCount newSize)) →
      FirstRunFree pmm (pageCount newSize).toNat) ∨
  (size.toNat ≤ 2040 ∧ ∃ i < 11,
    nextPowOfTwo (size + metadataSize) = some (BitVec.ofNat 64 (objectSize i)) ∧
    (slabs i).isFull = false ∧ Lists slabs i)

variable {σ : Type} {A : Allocators σ} {h : Heap σ} {size off base : Word} {r : Request} {i k m n : ℕ}
  {la57 : Bool} {pmm : Pmm} {slabs : Slabs} {supply : ℕ → Word}

theorem nextPow_large (hlo : 2048 < size.toNat) (hhi : size.toNat ≤ 2 ^ 63) :
    ∃ n, 12 ≤ n ∧ n ≤ 63 ∧ size.toNat ≤ 2 ^ n ∧ nextPowOfTwo size = some (BitVec.ofNat 64 (2 ^ n)) := by
  obtain ⟨n, _, hn, heq, hle, _⟩ := nextPowOfTwo_eq hhi
  refine ⟨n, ?_, hn, hle, heq⟩
  by_contra hlt
  have := Nat.pow_le_pow_right (show 0 < 2 by decide) (show n ≤ 11 by omega)
  omega

theorem nextPow_small (hhi : size.toNat ≤ 2048) :
    ∃ n < 12, nextPowOfTwo size = some (BitVec.ofNat 64 (2 ^ n)) := by
  obtain ⟨n, _, _, heq, _, hmin⟩ := nextPowOfTwo_eq (show size.toNat ≤ 2 ^ 63 by omega)
  refine ⟨n, ?_, heq⟩
  by_contra hge
  have := hmin (by omega)
  have := Nat.pow_le_pow_right (show 0 < 2 by decide) (show 11 ≤ n - 1 by omega)
  omega

theorem ne_null_of_toNat {p : Word} (h : p.toNat = n) (hn : 0 < n) : p ≠ 0#64 := by
  rintro rfl
  exact hn.ne h

/-- Up to 2040 bytes there is a slab whose objects have room for the header. -/
theorem nextPow_header (hhi : size.toNat ≤ 2040) :
    ∃ i < 11, size.toNat + 8 ≤ objectSize i ∧
      nextPowOfTwo (size + metadataSize) = some (BitVec.ofNat 64 (objectSize i)) := by
  have hadd := toNat_add_metadata (show size.toNat ≤ 2 ^ 63 by omega)
  obtain ⟨n, hn, _, heq, hle, hmin⟩ :=
    nextPowOfTwo_eq (show (size + metadataSize).toNat ≤ 2 ^ 63 by omega)
  refine ⟨n - 1, ?_, ?_, ?_⟩
  · by_contra hge
    have := hmin (by omega)
    have := Nat.pow_le_pow_right (show 0 < 2 by decide) (show 11 ≤ n - 1 by omega)
    omega
  · rw [objectSize, Nat.sub_add_cancel hn]
    omega
  · rw [heq, objectSize, Nat.sub_add_cancel hn]

/-- From 2041 bytes on the header makes the object a page, which no slab has. -/
theorem nextPow_gap (hlo : 2040 < size.toNat) (hhi : size.toNat ≤ 2048) :
    nextPowOfTwo (size + metadataSize) = some (BitVec.ofNat 64 (2 ^ 12)) := by
  have hadd := toNat_add_metadata (show size.toNat ≤ 2 ^ 63 by omega)
  obtain ⟨n, _, _, heq, hle, hmin⟩ :=
    nextPowOfTwo_eq (show (size + metadataSize).toNat ≤ 2 ^ 63 by omega)
  have hn : n = 12 := by
    have h12 : 12 ≤ n := by
      by_contra hlt
      have := Nat.pow_le_pow_right (show 0 < 2 by decide) (show n ≤ 11 by omega)
      omega
    by_contra hne
    have := hmin (by omega)
    have := Nat.pow_le_pow_right (show 0 < 2 by decide) (show 12 ≤ n - 1 by omega)
    omega
  rw [heq, hn]

/-- A call that makes the request `r` returns a pointer `off` bytes into the answer. -/
structure Asks (A : Allocators σ) (h : Heap σ) (size : Word) (r : Request) (off : Word) : Prop where
  consults : ∀ r', Consults A h size r' ↔ r' = r
  returns : ∃ h', kmalloc A h size = some (answer A h.alloc r + off, h')

/-- One call, recorded and plain. -/
theorem asks_of_calls {p : Word} {h' : Heap (σ × List Request)} {g : Heap σ}
    (hrec : kmalloc (recorded A) ⟨h.bytes, h.alloc, []⟩ size = some (p, h'))
    (hr : h'.alloc.2 = [r]) (hplain : kmalloc A h size = some (answer A h.alloc r + off, g)) :
    Asks A h size r off := by
  refine ⟨fun r' => ⟨?_, ?_⟩, g, hplain⟩
  · rintro ⟨q, h'', hc, hr'⟩
    have hheap : h' = h'' := congrArg Prod.snd (Option.some.inj (hrec.symm.trans hc))
    rw [← hheap, hr] at hr'
    exact (List.singleton_inj.mp hr').symm
  · rintro rfl
    exact ⟨p, h', hrec, hr⟩

theorem asks_pages (A : Allocators σ) (h : Heap σ)
    (heq : nextPowOfTwo size = some (BitVec.ofNat 64 (2 ^ k))) (hk : 12 ≤ k) (hk' : k ≤ 63) :
    Asks A h size (.pmmAlloc (pageCount (BitVec.ofNat 64 (2 ^ k)))) pageSize :=
  asks_of_calls (kmalloc_pages (recorded A) ⟨h.bytes, h.alloc, []⟩ heq hk hk') rfl
    (kmalloc_pages A h heq hk hk')

theorem asks_object (A : Allocators σ) (h : Heap σ)
    (heq : nextPowOfTwo size = some (BitVec.ofNat 64 (2 ^ k))) (hk : k < 12)
    (heq' : nextPowOfTwo (size + metadataSize) = some (BitVec.ofNat 64 (2 ^ m))) :
    Asks A h size (.slabAlloc (BitVec.ofNat 64 (2 ^ m))) metadataSize :=
  asks_of_calls (kmalloc_object (recorded A) ⟨h.bytes, h.alloc, []⟩ heq hk heq') rfl
    (kmalloc_object A h heq hk heq')

/-- The answer is never looked at: a refusal becomes a small pointer that is not `NULL`. -/
theorem Asks.failsCleanly_iff (ha : Asks A h size r off) (hoff : off ≠ 0#64) :
    FailsCleanly A h size ↔ answer A h.alloc r ≠ 0#64 := by
  constructor
  · intro hf h0
    obtain ⟨h', hcall⟩ := ha.returns
    have hnull := hf r ((ha.consults r).mpr rfl) h0
    rw [hcall, h0, BitVec.zero_add] at hnull
    exact hoff (congrArg Prod.fst (Option.some.inj hnull))
  · intro hne r' hr h0
    rw [(ha.consults r').mp hr] at h0
    exact (hne h0).elim

theorem Asks.succeeds_iff {h : Heap (Pmm × Slabs)} (ha : Asks (kernelAllocators la57) h size r off)
    (hb : answer (kernelAllocators la57) h.alloc r = base) :
    Succeeds la57 h size ↔ base + off ≠ 0#64 ∧ FreeBlock la57 h.alloc base r ∧
      base.toNat ≤ (base + off).toNat ∧
      (base + off).toNat + size.toNat ≤ base.toNat + r.blockSize := by
  obtain ⟨h', hcall⟩ := ha.returns
  rw [hb] at hcall
  constructor
  · rintro ⟨r', p, h'', hr, hc, hs⟩
    obtain rfl := (ha.consults r').mp hr
    obtain rfl : base + off = p := congrArg Prod.fst (Option.some.inj (hcall.symm.trans hc))
    rwa [hb] at hs
  · intro hs
    rw [← hb] at hs
    exact ⟨r, _, h', (ha.consults r).mpr rfl, by rw [hcall, hb], hs⟩

theorem kmalloc_diverges (hsize : 2 ^ 63 < size.toNat) : kmalloc A h size = none := by
  have hloop : nextPowOfTwo size = none := nextPowLoop_diverges hsize 64 1
  simp only [kmalloc, hloop, Option.bind_eq_bind, Option.bind_none]

theorem mem_frames {f : ℕ} (hi : pmm.FirstFree i)
    (hbase : base = physToHigherHalfData la57 (BitVec.ofNat 64 (i * 4096))) :
    f ∈ Pmm.Block.frames la57 ⟨base, n⟩ ↔ i ≤ f ∧ f < i + n := by
  have hframes := Pmm.frames_ofFrame la57 n (show i < 2 ^ 52 by have := hi.lt; omega)
  rw [hbase]
  exact Set.ext_iff.mp hframes f

theorem toNat_block (la57 : Bool) (hi : i < 2 ^ 32) :
    (physToHigherHalfData la57 (BitVec.ofNat 64 (i * 4096))).toNat =
      (higherHalfData la57).toNat + i * 4096 ∧
    (higherHalfData la57).toNat + i * 4096 + 4096 < 2 ^ 64 := by
  have hlit : (BitVec.ofNat 64 (i * 4096)).toNat = i * 4096 := by
    rw [BitVec.toNat_ofNat, Nat.mod_eq_of_lt (by omega)]
  have hhalf : (higherHalfData la57).toNat + 2 ^ 44 + 4096 < 2 ^ 64 := by
    cases la57 <;> decide
  refine ⟨?_, by omega⟩
  rw [physToHigherHalfData, BitVec.toNat_add, hlit, Nat.mod_eq_of_lt (by omega)]

/-- A block of pages was free when the frames from the first free one on were. -/
theorem freeBlock_pages_iff {count : Word} {i : ℕ} (hi : pmm.FirstFree i) :
    FreeBlock la57 (pmm, slabs) (physToHigherHalfData la57 (BitVec.ofNat 64 (i * 4096)))
      (.pmmAlloc count) ↔ FirstRunFree pmm count.toNat := by
  constructor
  · intro hall i' hi' k hk
    obtain rfl := hi'.unique hi
    exact hall (i' + k) ((mem_frames hi rfl).mpr (by omega))
  · intro hrun f hf
    obtain ⟨hlo, hhi⟩ := (mem_frames hi rfl).mp hf
    have hfree := hrun i hi (f - i) (by omega)
    rwa [Nat.add_sub_cancel' hlo] at hfree

/-- With pages: the answer counts, and whether the frames taken were free. -/
theorem reports_pages (bytes : Bytes) (hlo : 2048 < size.toNat) (hhi : size.toNat ≤ 2 ^ 63) :
    Reports la57 ⟨bytes, pmm, slabs⟩ size ↔ ¬ pmm.Dry ∧
      ∀ newSize, nextPowOfTwo size = some newSize → (∀ i < 11, Lists slabs i) →
        EnoughFrames pmm (.pmmAlloc (pageCount newSize)) →
        FirstRunFree pmm (pageCount newSize).toNat := by
  obtain ⟨n, hn, hn', hle, heq⟩ := nextPow_large hlo hhi
  have hcount := toNat_pageCount hn hn'
  have hpos : 1 ≤ (pageCount (BitVec.ofNat 64 (2 ^ n))).toNat := by
    have := Nat.two_pow_pos n
    rw [pageCount]
    omega
  have hasks := asks_pages (kernelAllocators la57) ⟨bytes, pmm, slabs⟩ heq hn hn'
  generalize hc : pageCount (BitVec.ofNat 64 (2 ^ n)) = count at hpos hasks
  have hnew : ∀ newSize, nextPowOfTwo size = some newSize → pageCount newSize = count := by
    intro newSize hs
    rw [← hc, Option.some.inj (hs.symm.trans heq)]
  have hfails : FailsCleanly (kernelAllocators la57) ⟨bytes, pmm, slabs⟩ size ↔
      (pmmAlloc la57 pmm count.toNat).1 ≠ 0#64 := hasks.failsCleanly_iff (by decide)
  rcases Pmm.alloc_cases la57 pmm hpos with ⟨hd, he⟩ | ⟨hd, i, hi, he⟩
  · refine ⟨fun hrep => ?_, fun hready => (hready.1 hd).elim⟩
    exact (hfails.mp hrep.failure (by rw [he])).elim
  · have hfree : FreeBlock la57 (pmm, slabs) (physToHigherHalfData la57 (BitVec.ofNat 64 (i * 4096)))
        (.pmmAlloc count) ↔ FirstRunFree pmm count.toNat := freeBlock_pages_iff hi
    have hne := Pmm.block_ne_null la57 hi
    obtain ⟨hblock, hend⟩ := toNat_block la57 hi.lt
    generalize physToHigherHalfData la57 (BitVec.ofNat 64 (i * 4096)) = base at *
    have hbase : (pmmAlloc la57 pmm count.toNat).1 = base := congrArg Prod.fst he
    have hptr : (base + pageSize).toNat = base.toNat + 4096 := by
      rw [BitVec.toNat_add, show pageSize.toNat = 4096 from rfl]
      omega
    have hnonnull := ne_null_of_toNat hptr (by omega)
    have hsucceeds := hasks.succeeds_iff hbase
    have hsize : count.toNat * 4096 = 2 ^ n + 4096 := hc ▸ hcount
    constructor
    · intro hrep
      refine ⟨hd, fun newSize hs hl henough => ?_⟩
      rw [hnew newSize hs] at henough ⊢
      have hsucc := hrep.success hhi hl fun r hr => (hasks.consults r).mp hr ▸ henough
      exact hfree.mp (hsucceeds.mp hsucc).2.1
    · rintro ⟨_, hready⟩
      rw [hbase] at hfails
      refine ⟨hfails.mpr hne, fun _ hl henough => ?_⟩
      have hframes := henough (.pmmAlloc count) ((hasks.consults _).mpr rfl)
      have hrun := hready _ heq hl
      rw [hc] at hrun
      refine hsucceeds.mpr ⟨hnonnull, hfree.mpr (hrun hframes), by omega, ?_⟩
      simp only [Request.blockSize, hptr, hsize]
      omega

/-- With an object: the answer counts. -/
theorem reports_object (hp : Pages supply) {c : Slab.Config} (hs : Slab.Sorted supply c)
    (bytes : Bytes) (hhi : size.toNat ≤ 2040) :
    Reports la57 ⟨bytes, pmm, c.slabs⟩ size ↔ ∃ i < 11,
      nextPowOfTwo (size + metadataSize) = some (BitVec.ofNat 64 (objectSize i)) ∧
      (c.slabs i).isFull = false ∧ Lists c.slabs i := by
  obtain ⟨k, hk, heq⟩ := nextPow_small (show size.toNat ≤ 2048 by omega)
  obtain ⟨i, hi, hroom, heq'⟩ := nextPow_header hhi
  have hasks : Asks (kernelAllocators la57) ⟨bytes, pmm, c.slabs⟩ size
      (.slabAlloc (BitVec.ofNat 64 (objectSize i))) metadataSize := asks_object _ _ heq hk heq'
  have hfails : FailsCleanly (kernelAllocators la57) ⟨bytes, pmm, c.slabs⟩ size ↔
      (slabAlloc c.slabs (BitVec.ofNat 64 (objectSize i))).1 ≠ 0#64 :=
    hasks.failsCleanly_iff (by decide)
  have honly : ∀ i' < 11, nextPowOfTwo (size + metadataSize) =
      some (BitVec.ofNat 64 (objectSize i')) → i' = i := fun i' hi' hs =>
    Slab.objectSize_injective hi' hi (Option.some.inj (hs.symm.trans heq'))
  rcases Slab.slabAlloc_cases hs.layout hi with ⟨hfull, he⟩ | ⟨_, hall, he⟩ | ⟨hfull, j, hj, hne, he⟩
  · refine ⟨fun hrep => (hfails.mp hrep.failure (by rw [he])).elim, ?_⟩
    rintro ⟨i', hi', hs', hclear, _⟩
    rw [honly i' hi' hs', hfull] at hclear
    cases hclear
  · refine ⟨fun hrep => (hfails.mp hrep.failure (by rw [he])).elim, ?_⟩
    rintro ⟨i', hi', hs', _, j, hj, hne⟩
    rw [honly i' hi' hs'] at hj hne
    exact (hne (hall j hj)).elim
  · refine ⟨fun _ => ⟨i, hi, heq', hfull, j, hj, hne⟩, fun _ => ?_⟩
    have hbase : (slabAlloc c.slabs (BitVec.ofNat 64 (objectSize i))).1 = (c.slabs i).objects j :=
      congrArg Prod.fst he
    refine ⟨hfails.mpr (by rwa [hbase]), fun _ _ _ => (hasks.succeeds_iff hbase).mpr ?_⟩
    have hfits : Fits supply ((c.slabs i).objects j) (.slabAlloc (BitVec.ofNat 64 (2 ^ (i + 1)))) :=
      ⟨i, hi, Slab.toNat_objectSize hi, hs.listed i hi j hne⟩
    have h8 : 8 ≤ 2 ^ (i + 1) := by
      rw [objectSize] at hroom
      omega
    have hptr := toNat_add_metadataSize hp (by omega) h8 hfits
    have hblock := Slab.toNat_objectSize hi
    have hnonnull := ne_null_of_toNat hptr (by omega)
    refine ⟨hnonnull, ⟨i, hi, rfl, j, hj, rfl⟩, by omega, ?_⟩
    simp only [Request.blockSize, hptr, hblock]
    omega

theorem reports_gap {c : Slab.Config} (hs : Slab.Sorted supply c) (bytes : Bytes)
    (hlo : 2040 < size.toNat) (hhi : size.toNat ≤ 2048) :
    ¬ Reports la57 ⟨bytes, pmm, c.slabs⟩ size := by
  obtain ⟨k, hk, heq⟩ := nextPow_small hhi
  have hasks := asks_object (kernelAllocators la57) ⟨bytes, pmm, c.slabs⟩ heq hk (nextPow_gap hlo hhi)
  intro hrep
  refine (hasks.failsCleanly_iff (by decide)).mp hrep.failure ?_
  have hnone : slabAlloc c.slabs (BitVec.ofNat 64 (2 ^ 12)) = (0#64, c.slabs) := by
    apply Slab.slabAlloc_of_other hs.layout
    intro i hi he
    have hle := Slab.objectSize_le hi
    have hn := congrArg BitVec.toNat he
    rw [Slab.toNat_objectSize hi, toNat_two_pow (by decide)] at hn
    omega
  exact congrArg Prod.fst hnone

/-- Exactly when `kmalloc` reports exhaustion cleanly and fails for no other reason. -/
theorem kmalloc_reports_iff (la57 : Bool) (supply : ℕ → Word) (hp : Pages supply)
    (calls : List Slab.Call) (c : Slab.Config) (hrun : Run Slab.Step (Slab.initial supply) calls c)
    (pmm : Pmm) (bytes : Bytes) (size : Word) :
    Reports la57 ⟨bytes, pmm, c.slabs⟩ size ↔ Ready pmm c.slabs size := by
  obtain ⟨hs, _⟩ := Slab.sorted_run hp hrun
  by_cases hbig : 2 ^ 63 < size.toNat
  · refine ⟨fun _ => .inl hbig, fun _ => ⟨?_, fun hle => by omega⟩⟩
    rintro r ⟨p, h', hc, _⟩
    rw [kmalloc_diverges hbig] at hc
    cases hc
  · by_cases hlarge : 2048 < size.toNat
    · rw [reports_pages bytes hlarge (by omega)]
      constructor
      · exact fun ⟨hd, hready⟩ => .inr (.inl ⟨hlarge, by omega, hd, hready⟩)
      · rintro (h | ⟨_, _, hready⟩ | ⟨h, _⟩)
        · omega
        · exact hready
        · omega
    · by_cases hgap : 2040 < size.toNat
      · refine ⟨fun hrep => (reports_gap hs bytes hgap (by omega) hrep).elim, ?_⟩
        rintro (h | ⟨h, _⟩ | ⟨h, _⟩) <;> omega
      · rw [reports_object hp hs bytes (by omega)]
        constructor
        · exact fun hready => .inr (.inr ⟨by omega, hready⟩)
        · rintro (h | ⟨h, _⟩ | ⟨_, hready⟩)
          · omega
          · omega
          · exact hready

/-- A 16-byte payload goes into an object of 32 bytes: the second one, when the first is taken. -/
theorem kmalloc_reports_lowPages :
    ∃ c, Run Slab.Step (Slab.initial Slab.lowPages) [.alloc 32#64] c ∧
      Reports false ⟨fun _ => 0#8, smallPmm false, c.slabs⟩ 16#64 := by
  have hi : 4 < 11 := by decide
  have hp := Slab.lowPages_pages
  have hsize : 32#64 = BitVec.ofNat 64 (objectSize 4) := by decide
  have hfull : ((slabAlloc (Slab.initial Slab.lowPages).slabs 32#64).2 4).isFull = false := by
    rw [hsize]
    exact Slab.isFull_alloc_first hp hi hi
  have hsecond : ((slabAlloc (Slab.initial Slab.lowPages).slabs 32#64).2 4).objects 1 ≠ 0#64 := by
    rw [hsize, Slab.slabAlloc_initial hp hi, Slab.setObject_same, if_neg one_ne_zero]
    exact Slab.initial_nonnull hp hi (by decide)
  -- said of any slabs, so that the allocation is not computed
  have hready : ∀ slabs : Slabs, (slabs 4).isFull = false → (slabs 4).objects 1 ≠ 0#64 →
      ∀ live, Ready (smallPmm false) (Slab.Config.mk slabs live).slabs 16#64 :=
    fun _ hfull hsecond _ => .inr (.inr ⟨by decide, 4, hi, by decide, hfull, 1, by decide, hsecond⟩)
  have hrun := Run.stepL (Slab.step_alloc_first hp hi hsize rfl) (.refl _)
  exact ⟨_, hrun, (kmalloc_reports_iff false Slab.lowPages hp _ _ hrun (smallPmm false) _ 16#64).mpr
    (hready _ hfull hsecond _)⟩

/-- With nothing allocated yet, 2048 bytes and their header are more than any object holds: the
refusal comes back as the pointer 8, and the header is written to address 0. -/
theorem kmalloc_reports_fails :
    ¬ Reports false ⟨fun _ => 0#8, smallPmm false, (Slab.initial Slab.lowPages).slabs⟩ 2048#64 :=
  reports_gap (Slab.sorted_run Slab.lowPages_pages (.refl _)).1 _ (by decide) (by decide)

end KnutOS.Kmalloc
