import KnutOS.Libk.Kmalloc
import KnutOS.Memory.PmmInit
import KnutOS.Memory.SlabSafety

/-! Runs of `kmalloc` and `kfree`: payloads and headers stay apart, and every block goes back to
the allocator it came from. -/
namespace KnutOS.Kmalloc

open Foundation
open Slab (bytes Pages IsObject objectSize)

/-- A call of an allocator. -/
inductive Request
  | pmmAlloc (pageCount : Word)
  | pmmFree (pointer pageCount : Word)
  | slabAlloc (size : Word)
  | slabFree (ptr : Word)
deriving DecidableEq

def Request.blockSize : Request → ℕ
  | .pmmAlloc pageCount => pageCount.toNat * 4096
  | .slabAlloc size => size.toNat
  | _ => 0

/-- The call that gives back the block at `base`. -/
def Request.release (base : Word) : Request → Request
  | .pmmAlloc pageCount => .pmmFree base pageCount
  | _ => .slabFree base

variable {σ : Type}

/-- Allocators that note the calls made, the last one first. -/
def recorded (A : Allocators σ) : Allocators (σ × List Request) where
  pmmAlloc s pageCount :=
    let (ptr, t) := A.pmmAlloc s.1 pageCount
    (ptr, t, .pmmAlloc pageCount :: s.2)
  pmmFree s pointer pageCount :=
    (A.pmmFree s.1 pointer pageCount, .pmmFree pointer pageCount :: s.2)
  slabAlloc s size :=
    let (ptr, t) := A.slabAlloc s.1 size
    (ptr, t, .slabAlloc size :: s.2)
  slabFree s ptr := (A.slabFree s.1 ptr, .slabFree ptr :: s.2)

/-- The block that a request gets. -/
def answer (A : Allocators σ) (s : σ) : Request → Word
  | .pmmAlloc pageCount => (A.pmmAlloc s pageCount).1
  | .slabAlloc size => (A.slabAlloc s size).1
  | _ => 0#64

/-- The state of the allocators after a request. -/
def perform (A : Allocators σ) (s : σ) : Request → σ
  | .pmmAlloc pageCount => (A.pmmAlloc s pageCount).2
  | .pmmFree pointer pageCount => A.pmmFree s pointer pageCount
  | .slabAlloc size => (A.slabAlloc s size).2
  | .slabFree ptr => A.slabFree s ptr

/-- A live allocation: the pointer and the size of the caller, the request behind it, the block
that answered it and the header it began with. -/
structure Allocation where
  ptr : Word
  size : Word
  request : Request
  base : Word
  header : Word
deriving DecidableEq

namespace Allocation

def block (a : Allocation) : Set ℕ := bytes a.base a.request.blockSize

def payload (a : Allocation) : Set ℕ := bytes a.ptr a.size.toNat

def metadata (a : Allocation) : Set ℕ := bytes a.base 8

end Allocation

/-- `pmm_alloc` hands out a page-aligned run of pages, `slab_alloc` an object of that size. -/
def Fits (supply : ℕ → Word) (base : Word) : Request → Prop
  | .pmmAlloc pageCount => base.toNat % 4096 = 0 ∧ base.toNat + pageCount.toNat * 4096 ≤ 2 ^ 64
  | .slabAlloc size => ∃ i < 11, size.toNat = objectSize i ∧ IsObject supply i base
  | _ => False

/-- The request succeeds with a block that nobody else owns. -/
structure Granted (supply : ℕ → Word) (live : List Allocation) (r : Request) (base : Word) :
    Prop where
  nonnull : base ≠ 0#64
  fits : Fits supply base r
  unowned : ∀ a ∈ live, Disjoint (bytes base r.blockSize) a.block

structure Config (σ : Type) where
  heap : Heap (σ × List Request)
  live : List Allocation

inductive Call
  | kmalloc (size : Word)
  | kfree (a : Allocation)
  | write (m : Bytes)

/-- Callers write into their payloads, and everybody outside the live blocks. -/
inductive Step (A : Allocators σ) (supply : ℕ → Word) : Config σ → Call → Config σ → Prop
  | kmalloc {c : Config σ} {size ptr : Word} {heap : Heap (σ × List Request)} {r : Request}
      (hsize : size.toNat ≤ 2 ^ 63)
      (hcall : kmalloc (recorded A) c.heap size = some (ptr, heap))
      (hrequest : heap.alloc.2 = r :: c.heap.alloc.2)
      (hgranted : Granted supply c.live r (answer A c.heap.alloc.1 r)) :
      Step A supply c (.kmalloc size)
        ⟨heap, ⟨ptr, size, r, answer A c.heap.alloc.1 r,
          load64 heap.bytes (answer A c.heap.alloc.1 r)⟩ :: c.live⟩
  | kfree {c : Config σ} {a : Allocation} (ha : a ∈ c.live) :
      Step A supply c (.kfree a) ⟨kfree (recorded A) c.heap a.ptr, c.live.erase a⟩
  | write {c : Config σ} {m : Bytes}
      (hm : ∀ x, m x ≠ c.heap.bytes x →
        (∃ a ∈ c.live, x.toNat ∈ a.payload) ∨ ∀ a ∈ c.live, x.toNat ∉ a.block) :
      Step A supply c (.write m) ⟨⟨m, c.heap.alloc⟩, c.live⟩

variable {A : Allocators σ} {supply : ℕ → Word} {a b : Allocation} {c c' : Config σ}
  {call : Call} {calls : List Call} {m m' : Bytes} {h h' : Heap (σ × List Request)}
  {base ptr size v : Word} {r : Request} {n : ℕ}

/-- The two kinds of allocation: pages with the header in a page of its own, and an object with
the header in its first eight bytes. -/
inductive Backed (supply : ℕ → Word) : Allocation → Prop
  | pages {base size : Word} {n : ℕ} (hn : 12 ≤ n) (hn' : n ≤ 63)
      (hfits : Fits supply base (.pmmAlloc (BitVec.ofNat 64 (2 ^ n) / pageSize + 1#64)))
      (hsize : size.toNat ≤ 2 ^ n) :
      Backed supply ⟨base + pageSize, size,
        .pmmAlloc (BitVec.ofNat 64 (2 ^ n) / pageSize + 1#64), base, BitVec.ofNat 64 (2 ^ n)⟩
  | object {base size : Word} {n : ℕ} (hn : n ≤ 63)
      (hfits : Fits supply base (.slabAlloc (BitVec.ofNat 64 (2 ^ n))))
      (hsize : size.toNat + 8 ≤ 2 ^ n) :
      Backed supply ⟨base + metadataSize, size, .slabAlloc (BitVec.ofNat 64 (2 ^ n)), base,
        BitVec.ofNat 64 (2 ^ n)⟩

/-- The header takes one page more. -/
theorem toNat_pageCount (hn : 12 ≤ n) (hn' : n ≤ 63) :
    (BitVec.ofNat 64 (2 ^ n) / pageSize + 1#64).toNat * 4096 = 2 ^ n + 4096 := by
  have hpow := toNat_two_pow hn'
  have hle : 2 ^ n ≤ 2 ^ 63 := Nat.pow_le_pow_right (by decide) hn'
  have hdvd : 2 ^ 12 ∣ 2 ^ n := Nat.pow_dvd_pow 2 hn
  rw [BitVec.toNat_add, BitVec.toNat_udiv, hpow]
  show (2 ^ n / 4096 + 1) % 2 ^ 64 * 4096 = _
  omega

/-- An object with room for a header does not end its page with it: objects of 16 bytes and more
are aligned to 16, and those of 8 bytes lie in the first half of a page. -/
theorem isObject_header (hp : Pages supply) {i : ℕ} (hi : i < 11) (h8 : 8 ≤ objectSize i)
    (hobj : IsObject supply i base) : base.toNat % 4096 + 8 < 4096 := by
  obtain ⟨hdvd, _⟩ := Slab.isObject_page hp hi hobj
  by_cases h3 : 3 ≤ i
  · have h16 : 2 ^ 4 ∣ objectSize i := Nat.pow_dvd_pow 2 (by omega)
    have hbase := h16.trans hdvd
    omega
  · obtain rfl : i = 2 := by
      by_contra hne
      have hle : objectSize i ≤ 2 ^ 2 := Nat.pow_le_pow_right (by decide) (by omega)
      omega
    have hhalf := Slab.isObject_half hp hi hobj
    have ha := hp.aligned 1 (by decide)
    rw [Slab.toNat_slabBase hp hi] at hhalf
    simp only [Nat.reduceDiv, Nat.reduceMod, show objectSize 2 = 8 from rfl] at hhalf
    omega

theorem fits_object (hp : Pages supply) (hn : n ≤ 63) (h8 : 8 ≤ 2 ^ n)
    (h : Fits supply base (.slabAlloc (BitVec.ofNat 64 (2 ^ n)))) :
    base.toNat % 4096 + 8 < 4096 ∧ base.toNat + 2 ^ n ≤ 2 ^ 64 := by
  obtain ⟨i, hi, hs, hobj⟩ := h
  rw [toNat_two_pow hn] at hs
  obtain ⟨_, k, hk, _, hend⟩ := Slab.isObject_page hp hi hobj
  have ha := hp.aligned k hk
  have hlt := (supply k).isLt
  exact ⟨isObject_header hp hi (hs ▸ h8) hobj, by omega⟩

theorem toNat_add_metadataSize (hp : Pages supply) (hn : n ≤ 63) (h8 : 8 ≤ 2 ^ n)
    (h : Fits supply base (.slabAlloc (BitVec.ofNat 64 (2 ^ n)))) :
    (base + metadataSize).toNat = base.toNat + 8 := by
  obtain ⟨hroom, _⟩ := fits_object hp hn h8 h
  have hlt := base.isLt
  rw [BitVec.toNat_add]
  show (base.toNat + 8) % 2 ^ 64 = _
  omega

theorem toNat_add_pageSize (hn : 12 ≤ n) (hn' : n ≤ 63)
    (h : Fits supply base (.pmmAlloc (BitVec.ofNat 64 (2 ^ n) / pageSize + 1#64))) :
    (base + pageSize).toNat = base.toNat + 4096 := by
  have hend := h.2
  have hpos := Nat.two_pow_pos n
  rw [toNat_pageCount hn hn'] at hend
  rw [BitVec.toNat_add]
  show (base.toNat + 4096) % 2 ^ 64 = _
  omega

/-- Where an allocation lies in its block. -/
theorem Backed.bounds (hp : Pages supply) (ha : Backed supply a) :
    a.base.toNat + 8 ≤ a.ptr.toNat ∧
      a.ptr.toNat + a.size.toNat ≤ a.base.toNat + a.request.blockSize ∧
      a.base.toNat + a.request.blockSize ≤ 2 ^ 64 := by
  cases ha with
  | @pages base size n hn hn' hfits hsize =>
    have hcount := toNat_pageCount hn hn'
    have hptr := toNat_add_pageSize hn hn' hfits
    have hend := hfits.2
    simp only [Request.blockSize, hptr]
    omega
  | @object base size n hn hfits hsize =>
    have hptr := toNat_add_metadataSize hp hn (by omega) hfits
    obtain ⟨_, hend⟩ := fits_object hp hn (by omega) hfits
    simp only [Request.blockSize, hptr, toNat_two_pow hn]
    omega

theorem Backed.payload_subset (hp : Pages supply) (ha : Backed supply a) : a.payload ⊆ a.block := by
  obtain ⟨h1, h2, _⟩ := ha.bounds hp
  rintro x ⟨hx, hx'⟩
  exact ⟨by omega, by omega⟩

theorem Backed.metadata_subset (hp : Pages supply) (ha : Backed supply a) :
    a.metadata ⊆ a.block := by
  obtain ⟨h1, h2, _⟩ := ha.bounds hp
  rintro x ⟨hx, hx'⟩
  exact ⟨hx, by omega⟩

theorem Backed.payload_metadata (hp : Pages supply) (ha : Backed supply a) :
    Disjoint a.payload a.metadata := by
  obtain ⟨h1, _, _⟩ := ha.bounds hp
  apply Set.disjoint_left.mpr
  rintro x ⟨hx, _⟩ ⟨_, hx'⟩
  omega

theorem sub_add_word (x y : Word) : x + y - y = x := BitVec.add_sub_cancel x y

/-- `kfree` finds out what the block is and gives it back. -/
theorem Backed.kfree_eq (hp : Pages supply) (ha : Backed supply a)
    (hheader : load64 h.bytes a.base = a.header) :
    (a.ptr &&& 0xFFF#64 = 0#64 ↔ ∃ pageCount, a.request = .pmmAlloc pageCount) ∧
    (kfree (recorded A) h a.ptr).alloc.2 = a.request.release a.base :: h.alloc.2 := by
  rw [and_page_eq_zero_iff]
  cases ha with
  | @pages base size n hn hn' hfits hsize =>
    have hptr := toNat_add_pageSize hn hn' hfits
    have hne : base + pageSize ≠ 0#64 := by
      intro h0
      rw [h0] at hptr
      simp at hptr
    have hpage : (base + pageSize).toNat % 4096 = 0 := by
      have hbase := hfits.1
      omega
    refine ⟨iff_of_true hpage ⟨_, rfl⟩, ?_⟩
    rw [kfree_pages hne hpage, sub_add_word]
    simp only [recorded, hheader]
    rfl
  | @object base size n hn hfits hsize =>
    have hptr := toNat_add_metadataSize hp hn (by omega) hfits
    obtain ⟨hroom, _⟩ := fits_object hp hn (by omega) hfits
    have hpage : (base + metadataSize).toNat % 4096 ≠ 0 := by omega
    refine ⟨iff_of_false hpage ?_, ?_⟩
    · rintro ⟨_, hr⟩
      cases hr
    · rw [kfree_object hpage, sub_add_word]
      rfl

/-! Stores and headers. -/

theorem store64_outside (hb : base.toNat + 8 ≤ 2 ^ 64) {x : Word} (hx : x.toNat ∉ bytes base 8) :
    store64 m base v x = m x := by
  apply store64_of_out
  by_contra hlt
  have hle : base.toNat ≤ x.toNat ∧ x.toNat < base.toNat + 8 := by
    rw [BitVec.toNat_sub] at hlt
    have := x.isLt
    omega
  exact hx hle

theorem load64_congr_bytes (hb : base.toNat + 8 ≤ 2 ^ 64)
    (h : ∀ x : Word, x.toNat ∈ bytes base 8 → m x = m' x) : load64 m base = load64 m' base := by
  apply load64_congr
  intro k hk
  have hx : (base + BitVec.ofNat 64 k).toNat = base.toNat + k := by
    rw [BitVec.toNat_add, BitVec.toNat_ofNat]
    omega
  exact h _ ⟨by omega, by omega⟩

/-- Every call of `kmalloc` returns. It makes one request, for at least one page or for an object,
and changes the allocators in no other way. -/
theorem kmalloc_request (A : Allocators σ) (h : Heap (σ × List Request)) (hsize : size.toNat ≤ 2 ^ 63) :
    ∃ ptr h' r, kmalloc (recorded A) h size = some (ptr, h') ∧ h'.alloc.2 = r :: h.alloc.2 ∧
      h'.alloc.1 = perform A h.alloc.1 r ∧
      ((∃ n, r = .pmmAlloc n ∧ 1 ≤ n.toNat) ∨ ∃ n, r = .slabAlloc n) := by
  rcases kmalloc_cases (recorded A) h hsize with ⟨n, hn, hn', _, heq⟩ | ⟨n, _, _, heq⟩
  · have hcount := toNat_pageCount hn hn'
    exact ⟨_, _, _, heq, rfl, rfl, .inl ⟨_, rfl, by omega⟩⟩
  · exact ⟨_, _, _, heq, rfl, rfl, .inr ⟨_, rfl⟩⟩

/-- What a call of `kmalloc` stores, and what it returns. -/
theorem kmalloc_backed (hsize : size.toNat ≤ 2 ^ 63)
    (hcall : kmalloc (recorded A) h size = some (ptr, h')) (hr : h'.alloc.2 = r :: h.alloc.2)
    (hfits : Fits supply (answer A h.alloc.1 r) r) :
    ∃ v, h'.bytes = store64 h.bytes (answer A h.alloc.1 r) v ∧
      Backed supply ⟨ptr, size, r, answer A h.alloc.1 r, v⟩ := by
  rcases kmalloc_cases (recorded A) h hsize with ⟨n, hn, hn', hle, heq⟩ | ⟨n, hn, hle, heq⟩
  · obtain ⟨rfl, rfl⟩ := Prod.mk.inj (Option.some.inj (hcall.symm.trans heq))
    obtain rfl := (List.cons.inj hr).1
    exact ⟨_, rfl, .pages hn hn' hfits hle⟩
  · obtain ⟨rfl, rfl⟩ := Prod.mk.inj (Option.some.inj (hcall.symm.trans heq))
    obtain rfl := (List.cons.inj hr).1
    exact ⟨_, rfl, .object hn hfits hle⟩

/-- What every step keeps. -/
structure Sound (supply : ℕ → Word) (c : Config σ) : Prop where
  backed : ∀ a ∈ c.live, Backed supply a
  apart : c.live.Pairwise fun a b => Disjoint a.block b.block
  header : ∀ a ∈ c.live, load64 c.heap.bytes a.base = a.header

theorem Sound.block_disjoint (hs : Sound supply c) (ha : a ∈ c.live) (hb : b ∈ c.live)
    (hne : a ≠ b) : Disjoint a.block b.block := by
  have hsymm : Std.Symm fun a b : Allocation => Disjoint a.block b.block :=
    ⟨fun _ _ hd => hd.symm⟩
  exact hs.apart.forall ha hb hne

/-- A header byte is nobody's payload, and lies in a live block. -/
theorem Sound.header_byte (hp : Pages supply) (hs : Sound supply c) (ha : a ∈ c.live) {x : ℕ}
    (hx : x ∈ a.metadata) : (∀ b ∈ c.live, x ∉ b.payload) ∧ ∃ b ∈ c.live, x ∈ b.block := by
  have hblock := (hs.backed a ha).metadata_subset hp hx
  refine ⟨?_, a, ha, hblock⟩
  intro b hb hxb
  by_cases hab : b = a
  · subst hab
    exact Set.disjoint_left.mp ((hs.backed b hb).payload_metadata hp) hxb hx
  · have hxb' := (hs.backed b hb).payload_subset hp hxb
    exact Set.disjoint_left.mp (hs.block_disjoint hb ha hab) hxb' hblock

theorem Backed.base_end (hp : Pages supply) (ha : Backed supply a) :
    a.base.toNat + 8 ≤ 2 ^ 64 := by
  obtain ⟨h1, h2, h3⟩ := ha.bounds hp
  omega

theorem sound_step (hp : Pages supply) (hs : Sound supply c) (hstep : Step A supply c call c') :
    Sound supply c' := by
  cases hstep with
  | @kmalloc size ptr heap r hsize hcall hrequest hgranted =>
    obtain ⟨v, hbytes, hback⟩ := kmalloc_backed hsize hcall hrequest hgranted.fits
    have hload : load64 heap.bytes (answer A c.heap.alloc.1 r) = v := by
      rw [hbytes, load64_store64]
    have hend := hback.base_end hp
    have hmeta := hback.metadata_subset hp
    refine ⟨?_, ?_, ?_⟩
    · intro a ha
      rcases List.mem_cons.mp ha with rfl | ha
      · rwa [hload]
      · exact hs.backed a ha
    · exact List.pairwise_cons.mpr ⟨fun b hb => hgranted.unowned b hb, hs.apart⟩
    · intro a ha
      rcases List.mem_cons.mp ha with rfl | ha
      · rfl
      · have hkept : load64 heap.bytes a.base = load64 c.heap.bytes a.base := by
          apply load64_congr_bytes ((hs.backed a ha).base_end hp)
          intro x hx
          rw [hbytes]
          apply store64_outside hend
          intro hx'
          have hxa := (hs.backed a ha).metadata_subset hp hx
          exact Set.disjoint_left.mp (hgranted.unowned a ha) (hmeta hx') hxa
        exact hkept.trans (hs.header a ha)
  | @kfree a ha =>
    have hbytes : (kfree (recorded A) c.heap a.ptr).bytes = c.heap.bytes := by
      rw [kfree]
      split_ifs <;> rfl
    refine ⟨fun b hb => hs.backed b (List.mem_of_mem_erase hb),
      hs.apart.sublist List.erase_sublist, fun b hb => ?_⟩
    exact (congrArg (load64 · b.base) hbytes).trans (hs.header b (List.mem_of_mem_erase hb))
  | @write m hm =>
    refine ⟨hs.backed, hs.apart, fun a ha => ?_⟩
    refine Eq.trans ?_ (hs.header a ha)
    apply load64_congr_bytes ((hs.backed a ha).base_end hp)
    intro x hx
    obtain ⟨hpayload, b, hb, hxb⟩ := hs.header_byte hp ha hx
    by_contra hne
    rcases hm x hne with ⟨d, hd, hxd⟩ | hout
    · exact hpayload d hd hxd
    · exact hout b hb hxb

theorem sound_run (hp : Pages supply) (hr : Run (Step A supply) c calls c')
    (hs : Sound supply c) : Sound supply c' :=
  hr.invariant hs fun _ _ _ hs hstep => sound_step hp hs hstep

/-- What holds of the live allocations in a state of a run. Every call of `kmalloc` makes one
request, and is the next step if this is granted. -/
structure Safe (A : Allocators σ) (supply : ℕ → Word) (c : Config σ) : Prop where
  serves : ∀ size : Word, size.toNat ≤ 2 ^ 63 → ∃ ptr heap r,
    kmalloc (recorded A) c.heap size = some (ptr, heap) ∧ heap.alloc.2 = r :: c.heap.alloc.2 ∧
      (Granted supply c.live r (answer A c.heap.alloc.1 r) →
        Step A supply c (.kmalloc size)
          ⟨heap, ⟨ptr, size, r, answer A c.heap.alloc.1 r,
            load64 heap.bytes (answer A c.heap.alloc.1 r)⟩ :: c.live⟩)
  inside : ∀ a ∈ c.live, a.payload ⊆ a.block ∧ a.metadata ⊆ a.block
  apart : ∀ a ∈ c.live, Disjoint a.payload a.metadata
  exclusive : c.live.Pairwise fun a b =>
    Disjoint (a.payload ∪ a.metadata) (b.payload ∪ b.metadata)
  intact : ∀ a ∈ c.live, load64 c.heap.bytes a.base = a.header
  decided : ∀ a ∈ c.live,
    a.ptr &&& 0xFFF#64 = 0#64 ↔ ∃ pageCount, a.request = .pmmAlloc pageCount
  routed : ∀ a ∈ c.live,
    (kfree (recorded A) c.heap a.ptr).alloc.2 = a.request.release a.base :: c.heap.alloc.2

/-- Every run of `kmalloc`, `kfree` and writes is safe. -/
theorem kmalloc_safe (A : Allocators σ) (supply : ℕ → Word) (hp : Pages supply) (m : Bytes) (s : σ)
    (calls : List Call) (c : Config σ) (h : Run (Step A supply) ⟨⟨m, s, []⟩, []⟩ calls c) :
    Safe A supply c := by
  have hstart : Sound supply (⟨⟨m, s, []⟩, []⟩ : Config σ) :=
    ⟨List.forall_mem_nil _, List.Pairwise.nil, List.forall_mem_nil _⟩
  have hs := sound_run hp h hstart
  refine ⟨?_, ?_, ?_, ?_, hs.header, ?_, ?_⟩
  · intro size hsize
    obtain ⟨ptr, heap, r, hcall, hrequest, _⟩ := kmalloc_request A c.heap hsize
    exact ⟨ptr, heap, r, hcall, hrequest, fun hg => .kmalloc hsize hcall hrequest hg⟩
  · exact fun a ha => ⟨(hs.backed a ha).payload_subset hp, (hs.backed a ha).metadata_subset hp⟩
  · exact fun a ha => (hs.backed a ha).payload_metadata hp
  · apply hs.apart.imp_of_mem
    intro a b ha hb hd
    have hsub : ∀ a ∈ c.live, a.payload ∪ a.metadata ⊆ a.block := fun a ha =>
      Set.union_subset ((hs.backed a ha).payload_subset hp) ((hs.backed a ha).metadata_subset hp)
    exact hd.mono (hsub a ha) (hsub b hb)
  · exact fun a ha => ((hs.backed a ha).kfree_eq (A := A) hp (hs.header a ha)).1
  · exact fun a ha => ((hs.backed a ha).kfree_eq hp (hs.header a ha)).2

/-- A step of `kmalloc` whose pages come from `pmm_alloc`. -/
theorem step_pages {s : σ} (hsize : size.toNat ≤ 2 ^ 63) (hv : nextPowOfTwo size = some v)
    (hbig : pageSize ≤ v) (halloc : A.pmmAlloc c.heap.alloc.1 (v / pageSize + 1#64) = (base, s))
    (hg : Granted supply c.live (.pmmAlloc (v / pageSize + 1#64)) base) :
    Step A supply c (.kmalloc size)
      ⟨⟨store64 c.heap.bytes base v, s, .pmmAlloc (v / pageSize + 1#64) :: c.heap.alloc.2⟩,
        ⟨base + pageSize, size, .pmmAlloc (v / pageSize + 1#64), base, v⟩ :: c.live⟩ := by
  have hbase : answer A c.heap.alloc.1 (.pmmAlloc (v / pageSize + 1#64)) = base :=
    congrArg Prod.fst halloc
  have hcall : kmalloc (recorded A) c.heap size = some (base + pageSize,
      ⟨store64 c.heap.bytes base v, s, .pmmAlloc (v / pageSize + 1#64) :: c.heap.alloc.2⟩) := by
    simp only [kmalloc, hv, Option.bind_eq_bind, Option.bind_some, if_pos hbig, recorded, halloc]
  have hstep := Step.kmalloc hsize hcall rfl (by rwa [hbase])
  rwa [hbase, load64_store64] at hstep

/-- A step of `kmalloc` whose object comes from `slab_alloc`. -/
theorem step_object {s : σ} {w : Word} (hsize : size.toNat ≤ 2 ^ 63)
    (hw : nextPowOfTwo size = some w) (hsmall : ¬ pageSize ≤ w)
    (hv : nextPowOfTwo (size + metadataSize) = some v)
    (halloc : A.slabAlloc c.heap.alloc.1 v = (base, s))
    (hg : Granted supply c.live (.slabAlloc v) base) :
    Step A supply c (.kmalloc size)
      ⟨⟨store64 c.heap.bytes base v, s, .slabAlloc v :: c.heap.alloc.2⟩,
        ⟨base + metadataSize, size, .slabAlloc v, base, v⟩ :: c.live⟩ := by
  have hbase : answer A c.heap.alloc.1 (.slabAlloc v) = base := congrArg Prod.fst halloc
  have hcall : kmalloc (recorded A) c.heap size = some (base + metadataSize,
      ⟨store64 c.heap.bytes base v, s, .slabAlloc v :: c.heap.alloc.2⟩) := by
    simp only [kmalloc, hw, hv, Option.bind_eq_bind, Option.bind_some, if_neg hsmall, recorded,
      halloc]
  have hstep := Step.kmalloc hsize hcall rfl (by rwa [hbase])
  rwa [hbase, load64_store64] at hstep

/-- An allocation backed by pages of the kernel's own `pmm_alloc`. -/
def pageAllocation : Allocation :=
  ⟨0xFFFF800000003000#64, 5000#64, .pmmAlloc 3#64, 0xFFFF800000002000#64, 8192#64⟩

/-- An allocation in the first object of slab 3. -/
def objectAllocation : Allocation := ⟨0x2808#64, 8#64, .slabAlloc 16#64, 0x2800#64, 16#64⟩

theorem step_pageAllocation {pmm pmm' : Pmm} (slabs : Slabs)
    (h : pmmAlloc false pmm 3 = (0xFFFF800000002000#64, pmm')) :
    Step (kernelAllocators false) Slab.lowPages ⟨⟨m, (pmm, slabs), []⟩, []⟩ (.kmalloc 5000#64)
      ⟨⟨store64 m 0xFFFF800000002000#64 8192#64, (pmm', slabs), [.pmmAlloc 3#64]⟩,
        [pageAllocation]⟩ :=
  step_pages (by decide) (show nextPowOfTwo 5000#64 = some 8192#64 by decide) (by decide)
    (kernelAllocators_pmmAlloc slabs h)
    ⟨by decide, ⟨by decide, by decide⟩, List.forall_mem_nil _⟩

theorem granted_objectAllocation :
    Granted Slab.lowPages [pageAllocation] (.slabAlloc 16#64) 0x2800#64 := by
  refine ⟨by decide, ⟨3, by decide, rfl, 0, by decide, by decide⟩, ?_⟩
  intro a ha
  obtain rfl := List.mem_singleton.mp ha
  apply Set.disjoint_left.mpr
  rintro x ⟨_, hx⟩ ⟨hx', _⟩
  simp [Request.blockSize, pageAllocation] at hx hx'
  omega

theorem step_objectAllocation {slabs : Slabs} (pmm : Pmm)
    (h : (slabAlloc slabs 16#64).1 = 0x2800#64) :
    Step (kernelAllocators false) Slab.lowPages
      ⟨⟨m, (pmm, slabs), [.pmmAlloc 3#64]⟩, [pageAllocation]⟩ (.kmalloc 8#64)
      ⟨⟨store64 m 0x2800#64 16#64, (pmm, (slabAlloc slabs 16#64).2),
          [.slabAlloc 16#64, .pmmAlloc 3#64]⟩,
        [objectAllocation, pageAllocation]⟩ :=
  step_object (by decide) (show nextPowOfTwo 8#64 = some 8#64 by decide) (by decide)
    (show nextPowOfTwo (8#64 + metadataSize) = some 16#64 by decide)
    (kernelAllocators_slabAlloc pmm (Prod.ext h rfl)) granted_objectAllocation

/-- With the kernel's own allocators: 5000 bytes come from pages, then 8 bytes from slab 3. -/
theorem kmalloc_safe_lowPages :
    Safe (kernelAllocators false) Slab.lowPages
      ⟨⟨store64 (store64 (fun _ => 0#8) 0xFFFF800000002000#64 8192#64) 0x2800#64 16#64,
          ((pmmAlloc false (smallPmm false) 3).2,
            (slabAlloc (Slab.initial Slab.lowPages).slabs 16#64).2),
          [.slabAlloc 16#64, .pmmAlloc 3#64]⟩,
        [objectAllocation, pageAllocation]⟩ := by
  have hpages : pmmAlloc false (smallPmm false) 3 =
      (0xFFFF800000002000#64, (pmmAlloc false (smallPmm false) 3).2) :=
    Prod.ext (by decide) rfl
  have hobject := congrArg Prod.fst
    (Slab.slabAlloc_initial Slab.lowPages_pages (show 3 < 11 by decide))
  rw [show BitVec.ofNat 64 (objectSize 3) = 16#64 from rfl,
    show Slab.objectAddr Slab.lowPages 3 0 = 0x2800#64 by decide] at hobject
  have h₁ := step_pageAllocation (m := fun _ => 0#8) (Slab.initial Slab.lowPages).slabs hpages
  have h₂ := step_objectAllocation (m := store64 (fun _ => 0#8) 0xFFFF800000002000#64 8192#64)
    (pmmAlloc false (smallPmm false) 3).2 hobject
  exact kmalloc_safe (kernelAllocators false) Slab.lowPages Slab.lowPages_pages _ _ _ _
    (.stepL h₁ (.stepL h₂ (.refl _)))

end KnutOS.Kmalloc
