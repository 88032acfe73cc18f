import KnutOS.Libk.KmallocSafety
import KnutOS.Memory.PmmBlocks
import KnutOS.Memory.SlabPages

/-! The memory of the kernel as a whole: the page frames of `pmm_alloc`, the slabs that `slab_init`
lays out on six of them and the heap on both, with callers of all three at the same time. -/
namespace KnutOS

open Foundation

namespace Kmalloc

variable {σ : Type} {A : Allocators σ} {h h' : Heap (σ × List Request)} {size ptr : Word}
  {r : Request}

/-- The page block of an allocation, if it has one. -/
def Allocation.pageBlock (a : Allocation) : List Pmm.Block :=
  match a.request with
  | .pmmAlloc pageCount => [⟨a.base, pageCount.toNat⟩]
  | _ => []

/-- The object of an allocation, if it has one. -/
def Allocation.object (a : Allocation) : List Slab.Object :=
  match a.request with
  | .slabAlloc size => [⟨a.base, size⟩]
  | _ => []

theorem kmalloc_performs (hsize : size.toNat ≤ 2 ^ 63)
    (hcall : kmalloc (recorded A) h size = some (ptr, h')) (hr : h'.alloc.2 = r :: h.alloc.2) :
    h'.alloc.1 = perform A h.alloc.1 r ∧
      ((∃ n, r = .pmmAlloc n ∧ 1 ≤ n.toNat) ∨ ∃ n, r = .slabAlloc n) := by
  obtain ⟨_, _, _, heq, hr', hperform, hcases⟩ := kmalloc_request A h hsize
  cases hcall.symm.trans heq
  obtain rfl := (List.cons.inj (hr.symm.trans hr')).1
  exact ⟨hperform, hcases⟩

theorem kfree_performs (hr : (kfree (recorded A) h ptr).alloc.2 = r :: h.alloc.2) :
    (kfree (recorded A) h ptr).alloc.1 = perform A h.alloc.1 r := by
  rw [kfree] at hr ⊢
  split at hr
  · exact absurd hr.symm (List.cons_ne_self _ _)
  · next hne =>
    rw [if_neg hne]
    split at hr
    · next hpage =>
      rw [if_pos hpage]
      obtain rfl := (List.cons.inj hr).1
      rfl
    · next hpage =>
      rw [if_neg hpage]
      obtain rfl := (List.cons.inj hr).1
      rfl

/-- What a state says of the heap, the state of the allocators does not change. -/
theorem Sound.of_alloc {τ : Type} {supply : ℕ → Word} {m : Bytes} {s : σ × List Request}
    {t : τ × List Request} {live : List Allocation} (h : Sound supply ⟨⟨m, s⟩, live⟩) :
    Sound supply ⟨⟨m, t⟩, live⟩ := ⟨h.backed, h.apart, h.header⟩

end Kmalloc

/-- Everything that is allocated in the kernel. -/
structure Kernel where
  pages : Pmm.Config
  objects : Slab.Config
  bytes : Bytes
  allocations : List Kmalloc.Allocation

namespace Kernel

open Kmalloc (recorded answer Request Allocation)

inductive Call
  | pages (call : Pmm.Call)
  | objects (call : Slab.Call)
  | heap (call : Kmalloc.Call)

/-- What `kmalloc` and `kfree` find. -/
def heap (k : Kernel) : Heap ((Pmm × Slabs) × List Request) :=
  ⟨k.bytes, (k.pages.pmm, k.objects.slabs), []⟩

/-- The slabs or the heap have the block. -/
def Needs (supply : ℕ → Word) (k : Kernel) (b : Pmm.Block) : Prop :=
  (∃ i < 6, b = ⟨supply i, 1⟩) ∨ ∃ a ∈ k.allocations, b ∈ a.pageBlock

/-- `kmalloc` has returned, with the new allocation `a`. -/
def grant (k : Kernel) (h : Heap ((Pmm × Slabs) × List Request)) (a : Allocation) : Kernel where
  pages := ⟨h.alloc.1.1, a.pageBlock ++ k.pages.live⟩
  objects := ⟨h.alloc.1.2, a.object ++ k.objects.live⟩
  bytes := h.bytes
  allocations := a :: k.allocations

/-- `kfree` has returned, and the allocation `a` is gone. -/
def release (k : Kernel) (h : Heap ((Pmm × Slabs) × List Request)) (a : Allocation) : Kernel where
  pages := ⟨h.alloc.1.1, k.pages.live.diff a.pageBlock⟩
  objects := ⟨h.alloc.1.2, k.objects.live.diff a.object⟩
  bytes := h.bytes
  allocations := k.allocations.erase a

/-- Callers of `pmm_alloc`, `slab_alloc` and `kmalloc` in any order. Everybody frees what is theirs,
every allocation of pages fits the first free run, and `kmalloc` gets what it asks for. -/
inductive Step (la57 : Bool) (supply : ℕ → Word) : Kernel → Call → Kernel → Prop
  | pages {k : Kernel} {call : Pmm.Call} {c : Pmm.Config}
      (hcall : Pmm.Guarded la57 Pmm.FirstRunFits k.pages call c)
      (hfree : ∀ b, call = .free b → ¬ k.Needs supply b) :
      Step la57 supply k (.pages call) { k with pages := c }
  | objects {k : Kernel} {call : Slab.Call} {c : Slab.Config} (hcall : Slab.Step k.objects call c)
      (hfree : ∀ o, call = .free o → ∀ a ∈ k.allocations, o ∉ a.object) :
      Step la57 supply k (.objects call) { k with objects := c }
  | kmalloc {k : Kernel} {size ptr : Word} {h : Heap ((Pmm × Slabs) × List Request)} {r : Request}
      (hsize : size.toNat ≤ 2 ^ 63)
      (hcall : kmalloc (recorded (kernelAllocators la57)) k.heap size = some (ptr, h))
      (hrequest : h.alloc.2 = [r])
      (hgranted : answer (kernelAllocators la57) k.heap.alloc.1 r ≠ 0#64)
      (hfits : ∀ n, r = .pmmAlloc n → Pmm.FirstRunFits k.pages.pmm n.toNat) :
      Step la57 supply k (.heap (.kmalloc size))
        (k.grant h ⟨ptr, size, r, answer (kernelAllocators la57) k.heap.alloc.1 r,
          load64 h.bytes (answer (kernelAllocators la57) k.heap.alloc.1 r)⟩)
  | kfree {k : Kernel} {a : Allocation} (ha : a ∈ k.allocations) :
      Step la57 supply k (.heap (.kfree a))
        (k.release (kfree (recorded (kernelAllocators la57)) k.heap a.ptr) a)
  | write {k : Kernel} {m : Bytes}
      (hm : ∀ x, m x ≠ k.bytes x →
        (∃ a ∈ k.allocations, x.toNat ∈ a.payload) ∨ ∀ a ∈ k.allocations, x.toNat ∉ a.block) :
      Step la57 supply k (.heap (.write m)) { k with bytes := m }

variable {la57 : Bool} {supply : ℕ → Word} {k k' : Kernel} {call : Call} {calls : List Call}
  {s₀ : Pmm} {a : Allocation} {b : Pmm.Block} {o : Slab.Object} {i : ℕ}

/-- The pages of the slabs and the blocks of the heap are among the live ones. -/
structure Sound (la57 : Bool) (supply : ℕ → Word) (s₀ : Pmm) (k : Kernel) : Prop where
  pages : Pmm.Sound la57 s₀ k.pages
  sorted : Slab.Sorted supply k.objects
  exclusive : k.objects.pool.Exclusive
  heap : Kmalloc.Sound supply ⟨k.heap, k.allocations⟩
  slabPages : ∀ i < 6, ⟨supply i, 1⟩ ∈ k.pages.live
  pageBlocks : ∀ a ∈ k.allocations, ∀ b ∈ a.pageBlock,
    b ∈ k.pages.live ∧ ∀ i < 6, b.ptr ≠ supply i
  liveObjects : ∀ a ∈ k.allocations, ∀ o ∈ a.object, o ∈ k.objects.live

/-- An allocation is a block of pages or an object. -/
theorem block_cases (ha : Kmalloc.Backed supply a) :
    (∃ n, a.request = .pmmAlloc n ∧ ⟨a.base, n.toNat⟩ ∈ a.pageBlock ∧
      a.block = Pmm.Block.bytes ⟨a.base, n.toNat⟩) ∨
    ∃ n, a.request = .slabAlloc n ∧ ⟨a.base, n⟩ ∈ a.object ∧
      a.block = Slab.Object.bytes ⟨a.base, n⟩ := by
  cases ha with
  | pages => exact .inl ⟨_, rfl, List.mem_singleton_self _, rfl⟩
  | object => exact .inr ⟨_, rfl, List.mem_singleton_self _, rfl⟩

theorem ptr_of_mem_pageBlock (hb : b ∈ a.pageBlock) : b.ptr = a.base := by
  rw [Allocation.pageBlock] at hb
  split at hb
  · exact congrArg Pmm.Block.ptr (List.mem_singleton.mp hb)
  · cases hb

theorem ptr_of_mem_object (ho : o ∈ a.object) : o.ptr = a.base := by
  rw [Allocation.object] at ho
  split at ho
  · exact congrArg Slab.Object.ptr (List.mem_singleton.mp ho)
  · cases ho

/-- Blocks of pages that are not the slabs' own stay clear of the objects. -/
theorem disjoint_object {pages : Pmm.Config} {objects : Slab.Config} (hp : Slab.Pages supply)
    (hpages : Pmm.Sound la57 s₀ pages) (hslab : ∀ i < 6, ⟨supply i, 1⟩ ∈ pages.live)
    (hobjects : Slab.Sorted supply objects) (hb : b ∈ pages.live) (hne : ∀ i < 6, b.ptr ≠ supply i)
    (ho : o ∈ objects.live) : Disjoint b.bytes o.bytes := by
  obtain ⟨_, i, hi, hsub⟩ := hobjects.in_page hp ho
  have hd := hpages.disjoint hb (hslab i hi) fun heq => hne i hi (congrArg Pmm.Block.ptr heq)
  rw [Pmm.Block.bytes_page] at hd
  exact hd.mono_right hsub

/-- The live block around an allocation. -/
theorem Sound.in_block (hp : Slab.Pages supply) (h : Sound la57 supply s₀ k)
    (ha : a ∈ k.allocations) :
    a.base.toNat ∈ a.block ∧ ∃ b ∈ k.pages.live, a.block ⊆ b.bytes := by
  rcases block_cases (h.heap.backed a ha) with ⟨_, _, hb, hblock⟩ | ⟨_, _, ho, hblock⟩
  · have hlive := (h.pageBlocks a ha _ hb).1
    rw [hblock]
    exact ⟨(h.pages.placed _ hlive).ptr_mem, _, hlive, subset_rfl⟩
  · obtain ⟨hmem, i, hi, hsub⟩ := h.sorted.in_page hp (h.liveObjects a ha _ ho)
    rw [hblock]
    exact ⟨hmem, _, h.slabPages i hi, by rwa [Pmm.Block.bytes_page]⟩

/-- Pages for `kmalloc` come from `pmm_alloc`. -/
theorem grant_pages {size ptr n : Word} {h : Heap ((Pmm × Slabs) × List Request)}
    (hsize : size.toNat ≤ 2 ^ 63)
    (hcall : kmalloc (recorded (kernelAllocators la57)) k.heap size = some (ptr, h))
    (hrequest : h.alloc.2 = [.pmmAlloc n])
    (hgranted : answer (kernelAllocators la57) k.heap.alloc.1 (.pmmAlloc n) ≠ 0#64)
    (hfits : Pmm.FirstRunFits k.pages.pmm n.toNat) :
    Pmm.Guarded la57 Pmm.FirstRunFits k.pages (.alloc n.toNat)
        ⟨h.alloc.1.1, ⟨answer (kernelAllocators la57) k.heap.alloc.1 (.pmmAlloc n), n.toNat⟩ ::
          k.pages.live⟩ ∧ h.alloc.1.2 = k.objects.slabs := by
  obtain ⟨hperform, ⟨n', heq, hn⟩ | ⟨_, heq⟩⟩ := Kmalloc.kmalloc_performs hsize hcall hrequest
  · cases heq
    rw [hperform]
    refine ⟨⟨.alloc hn hgranted, ?_⟩, rfl⟩
    rintro m ⟨⟩
    exact hfits
  · cases heq

/-- Objects for `kmalloc` come from `slab_alloc`. -/
theorem grant_object {size ptr n : Word} {h : Heap ((Pmm × Slabs) × List Request)}
    (hsize : size.toNat ≤ 2 ^ 63)
    (hcall : kmalloc (recorded (kernelAllocators la57)) k.heap size = some (ptr, h))
    (hrequest : h.alloc.2 = [.slabAlloc n])
    (hgranted : answer (kernelAllocators la57) k.heap.alloc.1 (.slabAlloc n) ≠ 0#64) :
    Slab.Step k.objects (.alloc n)
        ⟨h.alloc.1.2, ⟨answer (kernelAllocators la57) k.heap.alloc.1 (.slabAlloc n), n⟩ ::
          k.objects.live⟩ ∧ h.alloc.1.1 = k.pages.pmm := by
  obtain ⟨hperform, _⟩ := Kmalloc.kmalloc_performs hsize hcall hrequest
  rw [hperform]
  exact ⟨.alloc hgranted, rfl⟩

/-- The block that `pmm_alloc` returns is nobody's. -/
theorem granted_pages {n base : Word} {pmm : Pmm} (hp : Slab.Pages supply)
    (h : Sound la57 supply s₀ k) (hne : base ≠ 0#64)
    (hnew : Pmm.Sound la57 s₀ ⟨pmm, ⟨base, n.toNat⟩ :: k.pages.live⟩) :
    Kmalloc.Granted supply k.allocations (.pmmAlloc n) base := by
  obtain ⟨_, haligned, hend⟩ := (hnew.placed _ List.mem_cons_self).bounds
  have hapart := (List.pairwise_cons.mp hnew.apart).1
  refine ⟨hne, ⟨haligned, hend.le⟩, fun a ha => ?_⟩
  obtain ⟨_, b, hb, hsub⟩ := h.in_block hp ha
  exact (hapart b hb).mono_right hsub

/-- Nor is the object that `slab_alloc` returns. -/
theorem granted_object {n base : Word} {slabs : Slabs} (hp : Slab.Pages supply)
    (h : Sound la57 supply s₀ k) (hne : base ≠ 0#64)
    (hnew : Slab.Sorted supply ⟨slabs, ⟨base, n⟩ :: k.objects.live⟩)
    (hx : (Slab.Config.pool ⟨slabs, ⟨base, n⟩ :: k.objects.live⟩).Exclusive) :
    Kmalloc.Granted supply k.allocations (.slabAlloc n) base := by
  obtain ⟨i, hi, hsize, hobj⟩ := hnew.live _ List.mem_cons_self
  have hn : n.toNat = Slab.objectSize i :=
    (congrArg BitVec.toNat hsize).trans (Slab.toNat_objectSize hi)
  have hapart := (List.pairwise_cons.mp (hnew.apart hp hx)).1
  refine ⟨hne, ⟨i, hi, hn, hobj⟩, fun a ha => ?_⟩
  rcases block_cases (h.heap.backed a ha) with ⟨_, _, hb, hblock⟩ | ⟨_, _, ho, hblock⟩
  · obtain ⟨hlive, hother⟩ := h.pageBlocks a ha _ hb
    rw [hblock]
    exact (disjoint_object hp h.pages h.slabPages hnew hlive hother List.mem_cons_self).symm
  · rw [hblock]
    exact hapart _ (h.liveObjects a ha _ ho)

theorem sound_pages {c : Pmm.Config} {call : Pmm.Call} (h : Sound la57 supply s₀ k)
    (hcall : Pmm.Guarded la57 Pmm.FirstRunFits k.pages call c)
    (hfree : ∀ b, call = .free b → ¬ k.Needs supply b) :
    Sound la57 supply s₀ { k with pages := c } := by
  have hkeep : ∀ b ∈ k.pages.live, k.Needs supply b → b ∈ c.live := by
    intro b hb hneeds
    rcases Pmm.step_cases hcall.1 with ⟨_, _, _, rfl⟩ | ⟨_, _, _, _, _, _, rfl⟩ | ⟨d, hd, _, rfl⟩
    · exact hb
    · exact List.mem_cons_of_mem _ hb
    · have hne : b ≠ d := fun heq => hfree d hd (heq ▸ hneeds)
      exact (List.mem_erase_of_ne hne).mpr hb
  refine ⟨Pmm.sound_step h.pages hcall, h.sorted, h.exclusive, h.heap.of_alloc, ?_, ?_, h.liveObjects⟩
  · exact fun i hi => hkeep _ (h.slabPages i hi) (.inl ⟨i, hi, rfl⟩)
  · intro a ha b hb
    obtain ⟨hlive, hother⟩ := h.pageBlocks a ha b hb
    exact ⟨hkeep b hlive (.inr ⟨a, ha, hb⟩), hother⟩

/-- A live object stays live when another one is freed. -/
theorem mem_live_of_step {c c' : Slab.Config} {call : Slab.Call} (hcall : Slab.Step c call c')
    (ho : o ∈ c.live) (hfree : call ≠ .free o) : o ∈ c'.live := by
  cases hcall with
  | alloc => exact List.mem_cons_of_mem _ ho
  | allocNull => exact ho
  | @free d hd =>
    have hne : o ≠ d := fun heq => hfree (congrArg Slab.Call.free heq.symm)
    exact (List.mem_erase_of_ne hne).mpr ho

theorem sound_objects {c : Slab.Config} {call : Slab.Call} (hp : Slab.Pages supply)
    (h : Sound la57 supply s₀ k) (hcall : Slab.Step k.objects call c)
    (hfree : ∀ o, call = .free o → ∀ a ∈ k.allocations, o ∉ a.object) :
    Sound la57 supply s₀ { k with objects := c } := by
  obtain ⟨x, hx⟩ := Slab.pool_step hp h.sorted hcall
  refine ⟨h.pages, Slab.sorted_step hp h.sorted h.exclusive hcall,
    Pool.exclusive_step hx h.exclusive, h.heap.of_alloc, h.slabPages, h.pageBlocks, ?_⟩
  intro a ha o ho
  exact mem_live_of_step hcall (h.liveObjects a ha o ho) fun heq => hfree o heq a ha ho

theorem sound_kmalloc {size ptr : Word} {g : Heap ((Pmm × Slabs) × List Request)} {r : Request}
    (hp : Slab.Pages supply) (h : Sound la57 supply s₀ k) (hsize : size.toNat ≤ 2 ^ 63)
    (hcall : kmalloc (recorded (kernelAllocators la57)) k.heap size = some (ptr, g))
    (hrequest : g.alloc.2 = [r])
    (hgranted : answer (kernelAllocators la57) k.heap.alloc.1 r ≠ 0#64)
    (hfits : ∀ n, r = .pmmAlloc n → Pmm.FirstRunFits k.pages.pmm n.toNat) :
    Sound la57 supply s₀ (k.grant g ⟨ptr, size, r, answer (kernelAllocators la57) k.heap.alloc.1 r,
      load64 g.bytes (answer (kernelAllocators la57) k.heap.alloc.1 r)⟩) := by
  have hheap : Kmalloc.Granted supply k.allocations r _ → _ := fun hg =>
    Kmalloc.sound_step hp h.heap (.kmalloc hsize hcall hrequest hg)
  obtain ⟨_, ⟨n, rfl, _⟩ | ⟨n, rfl⟩⟩ := Kmalloc.kmalloc_performs hsize hcall hrequest
  · obtain ⟨hstep, hslabs⟩ := grant_pages hsize hcall hrequest hgranted (hfits n rfl)
    have hnew := Pmm.sound_step h.pages hstep
    have hapart := (List.pairwise_cons.mp hnew.apart).1
    have hmem := (hnew.placed _ List.mem_cons_self).ptr_mem
    have hobjects : (⟨g.alloc.1.2, k.objects.live⟩ : Slab.Config) = k.objects := by rw [hslabs]
    have hsorted := hobjects ▸ h.sorted
    have hexclusive := hobjects ▸ h.exclusive
    refine ⟨hnew, hsorted, hexclusive, (hheap (granted_pages hp h hgranted hnew)).of_alloc,
      fun i hi => List.mem_cons_of_mem _ (h.slabPages i hi), ?_, ?_⟩
    · intro a ha b hb
      rcases List.mem_cons.mp ha with rfl | ha
      · obtain rfl := List.mem_singleton.mp hb
        refine ⟨List.mem_cons_self, fun i hi heq => ?_⟩
        have hslab := (h.pages.placed _ (h.slabPages i hi)).ptr_mem
        exact Set.disjoint_left.mp (hapart _ (h.slabPages i hi)) hmem (heq ▸ hslab)
      · obtain ⟨hlive, hother⟩ := h.pageBlocks a ha b hb
        exact ⟨List.mem_cons_of_mem _ hlive, hother⟩
    · intro a ha o ho
      rcases List.mem_cons.mp ha with rfl | ha
      · cases ho
      · exact h.liveObjects a ha o ho
  · obtain ⟨hstep, hpmm⟩ := grant_object hsize hcall hrequest hgranted
    obtain ⟨x, hpool⟩ := Slab.pool_step hp h.sorted hstep
    have hnew := Slab.sorted_step hp h.sorted h.exclusive hstep
    have hexclusive := Pool.exclusive_step hpool h.exclusive
    have hpages : (⟨g.alloc.1.1, k.pages.live⟩ : Pmm.Config) = k.pages := by rw [hpmm]
    have hsound := hpages ▸ h.pages
    refine ⟨hsound, hnew, hexclusive,
      (hheap (granted_object hp h hgranted hnew hexclusive)).of_alloc, h.slabPages, ?_, ?_⟩
    · intro a ha b hb
      rcases List.mem_cons.mp ha with rfl | ha
      · cases hb
      · exact h.pageBlocks a ha b hb
    · intro a ha o ho
      rcases List.mem_cons.mp ha with rfl | ha
      · obtain rfl := List.mem_singleton.mp ho
        exact List.mem_cons_self
      · exact List.mem_cons_of_mem _ (h.liveObjects a ha o ho)

/-- Another allocation has another block. -/
theorem Sound.base_ne (hp : Slab.Pages supply) (h : Sound la57 supply s₀ k)
    (ha : a ∈ k.allocations) {a' : Allocation} (ha' : a' ∈ k.allocations.erase a) :
    a' ∈ k.allocations ∧ a'.base ≠ a.base := by
  have hnodup : k.allocations.Nodup := h.heap.apart.imp_of_mem fun hx _ hd heq =>
    Set.disjoint_left.mp hd (h.in_block hp hx).1 (heq ▸ (h.in_block hp hx).1)
  obtain ⟨hne, hmem⟩ := hnodup.mem_erase_iff.mp ha'
  refine ⟨hmem, fun heq => ?_⟩
  have hd := h.heap.block_disjoint hmem ha hne
  exact Set.disjoint_left.mp hd (h.in_block hp hmem).1 (heq ▸ (h.in_block hp ha).1)

theorem sound_kfree (hp : Slab.Pages supply) (h : Sound la57 supply s₀ k) (ha : a ∈ k.allocations) :
    Sound la57 supply s₀
      (k.release (kfree (recorded (kernelAllocators la57)) k.heap a.ptr) a) := by
  have hrelease : (kfree (recorded (kernelAllocators la57)) k.heap a.ptr).alloc.2 =
      a.request.release a.base :: k.heap.alloc.2 :=
    ((h.heap.backed a ha).kfree_eq hp (h.heap.header a ha)).2
  have hperform := Kmalloc.kfree_performs hrelease
  have hheap := Kmalloc.sound_step hp h.heap
    (.kfree (A := kernelAllocators la57) (c := ⟨k.heap, k.allocations⟩) ha)
  rcases block_cases (h.heap.backed a ha) with ⟨n, hn, hb, _⟩ | ⟨n, hn, ho, _⟩
  · have hstate : (kfree (recorded (kernelAllocators la57)) k.heap a.ptr).alloc.1 =
        (pmmFree la57 k.pages.pmm a.base n.toNat, k.objects.slabs) := by
      rw [hperform, hn]
      rfl
    have hstep : Pmm.Guarded la57 Pmm.FirstRunFits k.pages (.free ⟨a.base, n.toNat⟩) _ :=
      ⟨.free (h.pageBlocks a ha _ hb).1, nofun⟩
    have hpages : (k.release (kfree (recorded (kernelAllocators la57)) k.heap a.ptr) a).pages =
        ⟨pmmFree la57 k.pages.pmm a.base n.toNat, k.pages.live.erase ⟨a.base, n.toNat⟩⟩ := by
      simp only [release, hstate, Allocation.pageBlock, hn, List.diff_cons, List.diff_nil]
    have hobjects : (k.release (kfree (recorded (kernelAllocators la57)) k.heap a.ptr) a).objects =
        k.objects := by
      simp only [release, hstate, Allocation.object, hn, List.diff_nil]
    refine ⟨hpages ▸ Pmm.sound_step h.pages hstep, hobjects ▸ h.sorted, hobjects ▸ h.exclusive,
      hheap.of_alloc, fun i hi => ?_, fun a' ha' b hb' => ?_, fun a' ha' o ho => ?_⟩
    · have hne := (h.pageBlocks a ha _ hb).2 i hi
      rw [hpages]
      exact (List.mem_erase_of_ne fun heq => hne (congrArg Pmm.Block.ptr heq).symm).mpr
        (h.slabPages i hi)
    · obtain ⟨hmem, hne⟩ := h.base_ne hp ha ha'
      obtain ⟨hlive, hother⟩ := h.pageBlocks a' hmem b hb'
      rw [← ptr_of_mem_pageBlock hb'] at hne
      rw [hpages]
      exact ⟨(List.mem_erase_of_ne fun heq => hne (congrArg Pmm.Block.ptr heq)).mpr hlive, hother⟩
    · rw [hobjects]
      exact h.liveObjects a' (h.base_ne hp ha ha').1 o ho
  · have hstate : (kfree (recorded (kernelAllocators la57)) k.heap a.ptr).alloc.1 =
        (k.pages.pmm, slabFree k.objects.slabs a.base) := by
      rw [hperform, hn]
      rfl
    have hstep : Slab.Step k.objects (.free ⟨a.base, n⟩) _ := .free (h.liveObjects a ha _ ho)
    obtain ⟨x, hpool⟩ := Slab.pool_step hp h.sorted hstep
    have hpages : (k.release (kfree (recorded (kernelAllocators la57)) k.heap a.ptr) a).pages =
        k.pages := by
      simp only [release, hstate, Allocation.pageBlock, hn, List.diff_nil]
    have hobjects : (k.release (kfree (recorded (kernelAllocators la57)) k.heap a.ptr) a).objects =
        ⟨slabFree k.objects.slabs a.base, k.objects.live.erase ⟨a.base, n⟩⟩ := by
      simp only [release, hstate, Allocation.object, hn, List.diff_cons, List.diff_nil]
    refine ⟨hpages ▸ h.pages, hobjects ▸ Slab.sorted_step hp h.sorted h.exclusive hstep,
      hobjects ▸ Pool.exclusive_step hpool h.exclusive, hheap.of_alloc, hpages ▸ h.slabPages,
      fun a' ha' b hb => ?_, fun a' ha' o ho' => ?_⟩
    · rw [hpages]
      exact h.pageBlocks a' (h.base_ne hp ha ha').1 b hb
    · obtain ⟨hmem, hne⟩ := h.base_ne hp ha ha'
      rw [← ptr_of_mem_object ho'] at hne
      rw [hobjects]
      exact mem_live_of_step hstep (h.liveObjects a' hmem o ho')
        fun heq => hne (congrArg Slab.Object.ptr (Slab.Call.free.inj heq)).symm

/-- Whoever calls which allocator, everything stays in its place. -/
theorem sound_step (hp : Slab.Pages supply) (h : Sound la57 supply s₀ k)
    (hstep : Step la57 supply k call k') : Sound la57 supply s₀ k' := by
  cases hstep with
  | pages hcall hfree => exact sound_pages h hcall hfree
  | objects hcall hfree => exact sound_objects hp h hcall hfree
  | kmalloc hsize hcall hrequest hgranted hfits =>
    exact sound_kmalloc hp h hsize hcall hrequest hgranted hfits
  | kfree ha => exact sound_kfree hp h ha
  | @write m hm =>
    have hheap := Kmalloc.sound_step hp h.heap
      (.write (A := kernelAllocators la57) (c := ⟨k.heap, k.allocations⟩) hm)
    exact ⟨h.pages, h.sorted, h.exclusive, hheap.of_alloc, h.slabPages, h.pageBlocks, h.liveObjects⟩

theorem sound_run (hp : Slab.Pages supply) (h : Sound la57 supply s₀ k)
    (hrun : Run (Step la57 supply) k calls k') : Sound la57 supply s₀ k' :=
  hrun.invariant h fun _ _ _ h hstep => sound_step hp h hstep

/-! From the boot on. -/

/-- `slab_init` gets its six pages, one after the other. -/
def Supplied (la57 : Bool) (s : Pmm) : Prop :=
  ∀ i < 6, Pmm.FirstRunFits (Slab.afterPages (pmmAlloc la57) s i) 1 ∧
    Slab.pageSupply (pmmAlloc la57) s i ≠ 0#64

/-- The live blocks once `slab_init` has taken `n` pages. -/
def slabPages (la57 : Bool) (c : Pmm.Config) : ℕ → List Pmm.Block
  | 0 => c.live
  | n + 1 => ⟨Slab.pageSupply (pmmAlloc la57) c.pmm n, 1⟩ :: slabPages la57 c n

/-- The kernel after `slab_init`, which found the pages as in `c`. -/
def boot (la57 : Bool) (c : Pmm.Config) (m : Bytes) : Kernel where
  pages := ⟨(slabInit (pmmAlloc la57) (SlabInit.zero c.pmm)).pmm, slabPages la57 c 6⟩
  objects := ⟨(slabInit (pmmAlloc la57) (SlabInit.zero c.pmm)).slabs, []⟩
  bytes := m
  allocations := []

variable {c : Pmm.Config} {n : ℕ}

theorem mem_slabPages (hi : i < n) :
    ⟨Slab.pageSupply (pmmAlloc la57) c.pmm i, 1⟩ ∈ slabPages la57 c n := by
  induction n with
  | zero => omega
  | succ n ih =>
    by_cases hin : i = n
    · rw [hin]
      exact List.mem_cons_self
    · exact List.mem_cons_of_mem _ (ih (by omega))

theorem sound_slabPages (h : Pmm.Sound la57 s₀ c) (hs : Supplied la57 c.pmm) (hn : n ≤ 6) :
    Pmm.Sound la57 s₀ ⟨Slab.afterPages (pmmAlloc la57) c.pmm n, slabPages la57 c n⟩ := by
  induction n with
  | zero => exact h
  | succ n ih =>
    obtain ⟨hfits, hne⟩ := hs n (by omega)
    have hstep : Pmm.Guarded la57 Pmm.FirstRunFits
        ⟨Slab.afterPages (pmmAlloc la57) c.pmm n, slabPages la57 c n⟩ (.alloc 1) _ :=
      ⟨.alloc le_rfl hne, by rintro m ⟨⟩; exact hfits⟩
    have hsound := Pmm.sound_step (ih (by omega)) hstep
    rwa [← Slab.afterPages_succ] at hsound

theorem pages_pageSupply (h : Pmm.Sound la57 s₀ c) (hs : Supplied la57 c.pmm) :
    Slab.Pages (Slab.pageSupply (pmmAlloc la57) c.pmm) := by
  have hplaced : ∀ k < 6, Pmm.Block.Placed la57 ⟨Slab.pageSupply (pmmAlloc la57) c.pmm k, 1⟩ :=
    fun k hk => (sound_slabPages h hs le_rfl).placed _ (mem_slabPages hk)
  refine ⟨fun k hk => (hplaced k hk).bounds.2.1, fun k hk => (hs k hk).2, fun j k hjk hk heq => ?_⟩
  have hapart := (List.pairwise_cons.mp (sound_slabPages h hs (show k + 1 ≤ 6 by omega)).apart).1
  have hd := hapart _ (mem_slabPages hjk)
  rw [heq] at hd
  exact Set.disjoint_left.mp hd (hplaced k hk).ptr_mem (hplaced k hk).ptr_mem

theorem boot_objects (la57 : Bool) (c : Pmm.Config) (m : Bytes) :
    (boot la57 c m).objects = Slab.initial (Slab.pageSupply (pmmAlloc la57) c.pmm) := by
  rw [boot, Slab.slabInit_onState]
  rfl

theorem boot_sound (h : Pmm.Sound la57 s₀ c) (hs : Supplied la57 c.pmm) (m : Bytes) :
    Sound la57 (Slab.pageSupply (pmmAlloc la57) c.pmm) s₀ (boot la57 c m) := by
  have hp := pages_pageSupply h hs
  have hinit := Slab.slabInit_onState (pmmAlloc la57) c.pmm
  have hpages : (boot la57 c m).pages =
      ⟨Slab.afterPages (pmmAlloc la57) c.pmm 6, slabPages la57 c 6⟩ := by
    rw [boot, hinit, Slab.onState, Slab.slabInit_pages hp]
  have hobjects := boot_objects la57 c m
  obtain ⟨hsorted, hexclusive⟩ := Slab.sorted_run hp (.refl _)
  refine ⟨hpages ▸ sound_slabPages h hs le_rfl, hobjects ▸ hsorted, hobjects ▸ hexclusive,
    ⟨List.forall_mem_nil _, List.Pairwise.nil, List.forall_mem_nil _⟩, fun i hi => ?_,
    List.forall_mem_nil _, List.forall_mem_nil _⟩
  exact mem_slabPages hi

/-- What the holders of pages and objects have: the pages of the slabs are nobody's. -/
def holdings (supply : ℕ → Word) (k : Kernel) : List (Set ℕ) :=
  (k.pages.live.filter fun b : Pmm.Block => ∀ i : ℕ, i < 6 → b.ptr ≠ supply i).map
    Pmm.Block.bytes ++ k.objects.live.map Slab.Object.bytes

/-- What the holders can rely on. Every call of `kmalloc` makes one request, and is the next step if
this is granted. -/
structure Safe (la57 : Bool) (supply : ℕ → Word) (s₀ : Pmm) (k : Kernel) : Prop where
  serves : ∀ size : Word, size.toNat ≤ 2 ^ 63 → ∃ ptr h r,
    kmalloc (recorded (kernelAllocators la57)) k.heap size = some (ptr, h) ∧ h.alloc.2 = [r] ∧
      (answer (kernelAllocators la57) k.heap.alloc.1 r ≠ 0#64 →
        (∀ n, r = .pmmAlloc n → Pmm.FirstRunFits k.pages.pmm n.toNat) →
        Step la57 supply k (.heap (.kmalloc size))
          (k.grant h ⟨ptr, size, r, answer (kernelAllocators la57) k.heap.alloc.1 r,
            load64 h.bytes (answer (kernelAllocators la57) k.heap.alloc.1 r)⟩))
  exclusive : (k.holdings supply).Pairwise Disjoint
  usable : ∀ b ∈ k.pages.live, ∀ f ∈ b.frames la57, s₀.FrameFree f
  onPages : ∀ o ∈ k.objects.live, ∃ b ∈ k.pages.live, o.bytes ⊆ b.bytes
  held : ∀ a ∈ k.allocations, a.block ∈ k.holdings supply
  apart : k.allocations.Pairwise fun a b => Disjoint a.block b.block
  inside : ∀ a ∈ k.allocations,
    a.payload ⊆ a.block ∧ a.metadata ⊆ a.block ∧ Disjoint a.payload a.metadata
  intact : ∀ a ∈ k.allocations, load64 k.bytes a.base = a.header
  routed : ∀ a ∈ k.allocations, (kfree (recorded (kernelAllocators la57)) k.heap a.ptr).alloc.2 =
    [a.request.release a.base]

theorem Sound.holdings (hp : Slab.Pages supply) (h : Sound la57 supply s₀ k) :
    (k.holdings supply).Pairwise Disjoint := by
  refine List.pairwise_append.mpr ⟨?_, ?_, ?_⟩
  · exact List.pairwise_map.mpr (h.pages.apart.sublist List.filter_sublist)
  · exact List.pairwise_map.mpr (h.sorted.apart hp h.exclusive)
  · intro x hx y hy
    obtain ⟨b, hb, rfl⟩ := List.mem_map.mp hx
    obtain ⟨o, ho, rfl⟩ := List.mem_map.mp hy
    obtain ⟨hlive, hother⟩ := List.mem_filter.mp hb
    exact disjoint_object hp h.pages h.slabPages h.sorted hlive (of_decide_eq_true hother) ho

theorem Sound.held (h : Sound la57 supply s₀ k) (ha : a ∈ k.allocations) :
    a.block ∈ k.holdings supply := by
  rcases block_cases (h.heap.backed a ha) with ⟨_, _, hb, hblock⟩ | ⟨_, _, ho, hblock⟩
  · obtain ⟨hlive, hother⟩ := h.pageBlocks a ha _ hb
    rw [hblock]
    exact List.mem_append_left _
      (List.mem_map_of_mem (List.mem_filter.mpr ⟨hlive, decide_eq_true hother⟩))
  · rw [hblock]
    exact List.mem_append_right _ (List.mem_map_of_mem (h.liveObjects a ha _ ho))

/-- Pages, objects and allocations never overlap, from the boot on: whatever was allocated before
`slab_init`, and whoever calls which allocator after it. -/
theorem kernel_memory_safe (la57 : Bool) (memoryMap : List MmapEntry) (bytes : ℤ → BitVec 8)
    {calls₀ : List Pmm.Call} (m : Bytes)
    (hboot : Run (Pmm.Guarded la57 Pmm.FirstRunFits) (Pmm.start la57 memoryMap bytes) calls₀ c)
    (hslab : Supplied la57 c.pmm)
    (hrun : Run (Step la57 (Slab.pageSupply (pmmAlloc la57) c.pmm)) (boot la57 c m) calls k) :
    Safe la57 (Slab.pageSupply (pmmAlloc la57) c.pmm) (pmmInit la57 memoryMap bytes) k := by
  have hstart : Pmm.Sound la57 (pmmInit la57 memoryMap bytes) c :=
    hboot.invariant (Pmm.sound_start la57 _) fun _ _ _ h hstep => Pmm.sound_step h hstep
  have hp := pages_pageSupply hstart hslab
  have h := sound_run hp (boot_sound hstart hslab m) hrun
  refine ⟨fun size hsize => ?_, h.holdings hp, fun b hb f hf => ?_, fun o ho => ?_, fun a ha => h.held ha, h.heap.apart,
    fun a ha => ?_, h.heap.header, fun a ha => ?_⟩
  · obtain ⟨ptr, g, r, hcall, hrequest, _⟩ :=
      Kmalloc.kmalloc_request (kernelAllocators la57) k.heap hsize
    exact ⟨ptr, g, r, hcall, hrequest, fun hne hfits => .kmalloc hsize hcall hrequest hne hfits⟩
  · have htotal : f ∈ (k.pages.pool la57).total :=
      Pool.mem_total.mpr (.inr ⟨_, List.mem_map_of_mem hb, hf⟩)
    rwa [h.pages.total] at htotal
  · obtain ⟨_, i, hi, hsub⟩ := h.sorted.in_page hp ho
    exact ⟨_, h.slabPages i hi, by rwa [Pmm.Block.bytes_page]⟩
  · have hbacked := h.heap.backed a ha
    exact ⟨hbacked.payload_subset hp, hbacked.metadata_subset hp, hbacked.payload_metadata hp⟩
  · exact ((h.heap.backed a ha).kfree_eq hp (h.heap.header a ha)).2

/-- Nine usable frames below the kernel's: the first hosts the bitmap. -/
def bootMap : List MmapEntry :=
  [⟨0x1000#64, 0x9000#64, mmapUsable⟩, ⟨0xA000#64, 0x6000#64, mmapKernelAndModules⟩]

/-- `pmm_init` on `bootMap`, with the filling of the bitmap written out. -/
def bootPmm : Pmm :=
  let s := freeUsable false
    { info := ⟨0x10000#64, 16384#32, 16384#32, (hostBitmap false 4096#64 bootMap).2⟩
      bitmap := ⟨(hostBitmap false 4096#64 bootMap).1, 4096#64,
        fun k : ℤ => if 0 ≤ k ∧ k < 4096 then 0xFF#8 else 0#8⟩
      highestPage := 0x10000#64 } (hostBitmap false 4096#64 bootMap).2
  { s with bitmap := bitmapSetBit s.bitmap 0 }

theorem pmmInit_bootMap : pmmInit false bootMap (fun _ => 0#8) = bootPmm := by
  simp only [pmmInit, memset_eq]
  rfl

/-- Frames 2 to 7 go to `slab_init`, and 8 is the next one free. -/
theorem firstRunFits_bootPmm {i : ℕ} (hi : i < 7) :
    Pmm.FirstRunFits (Slab.afterPages (pmmAlloc false) bootPmm i) 1 ∧
      Slab.pageSupply (pmmAlloc false) bootPmm i ≠ 0#64 := by
  have hfree : ∀ i < 7, (Slab.afterPages (pmmAlloc false) bootPmm i).FirstFree (i + 2) ∧
      (i + 2 < 8 * (Slab.afterPages (pmmAlloc false) bootPmm i).bitmap.size.toNat ∧
        (Slab.afterPages (pmmAlloc false) bootPmm i).bitmap.test (i + 2) = false) ∧
      Slab.pageSupply (pmmAlloc false) bootPmm i ≠ 0#64 := by decide +kernel
  obtain ⟨hfirst, hframe, hne⟩ := hfree i hi
  refine ⟨Pmm.firstRunFits_of hfirst (by omega) fun k hk => ?_, hne⟩
  obtain rfl : k = 0 := by omega
  exact hframe

theorem supplied_bootPmm : Supplied false bootPmm := fun _ hi => firstRunFits_bootPmm (by omega)

/-- A call of `kmalloc` that gets an object. -/
theorem step_object {size : Word} {n l : ℕ} (hsize : size.toNat ≤ 2 ^ 63)
    (hsmall : nextPowOfTwo size = some (BitVec.ofNat 64 (2 ^ n))) (hn : n < 12)
    (hobject : nextPowOfTwo (size + metadataSize) = some (BitVec.ofNat 64 (2 ^ l)))
    (hne : (slabAlloc k.objects.slabs (BitVec.ofNat 64 (2 ^ l))).1 ≠ 0#64) :
    ∃ k' a, Step la57 supply k (.heap (.kmalloc size)) k' ∧ a ∈ k'.allocations := by
  have hcall := Kmalloc.kmalloc_object (recorded (kernelAllocators la57)) k.heap hsmall hn hobject
  exact ⟨_, _, .kmalloc hsize hcall rfl hne nofun, List.mem_cons_self⟩

/-- A page, an allocation on the heap, and the allocation freed again. -/
theorem kernel_memory_safe_bootMap :
    ∃ k a, Run (Step false (Slab.pageSupply (pmmAlloc false) bootPmm))
        (boot false ⟨bootPmm, []⟩ fun _ => 0#8)
        [.pages (.alloc 1), .heap (.kmalloc 8#64), .heap (.kfree a)] k ∧
      Safe false (Slab.pageSupply (pmmAlloc false) bootPmm) bootPmm k := by
  have hp := pages_pageSupply (Pmm.sound_start false bootPmm) supplied_bootPmm
  obtain ⟨hfits, hpage⟩ := firstRunFits_bootPmm (show 6 < 7 by decide)
  have hpmm : (boot false ⟨bootPmm, []⟩ fun _ => 0#8).pages.pmm =
      Slab.afterPages (pmmAlloc false) bootPmm 6 := by
    rw [boot, Slab.slabInit_onState, Slab.onState, Slab.slabInit_pages hp]
  obtain ⟨c, hpages⟩ : ∃ c, Pmm.Guarded false Pmm.FirstRunFits
      (boot false ⟨bootPmm, []⟩ fun _ => 0#8).pages (.alloc 1) c := by
    refine ⟨_, .alloc le_rfl ?_, ?_⟩
    · rw [hpmm]
      exact hpage
    · rintro n ⟨⟩
      rw [hpmm]
      exact hfits
  have hne : (slabAlloc (boot false ⟨bootPmm, []⟩ fun _ => 0#8).objects.slabs
      (BitVec.ofNat 64 (Slab.objectSize 3))).1 ≠ 0#64 := by
    rw [boot_objects, Slab.slabAlloc_initial hp (by decide)]
    exact Slab.isObject_nonnull hp (i := 3) (by decide) ⟨0, Nat.two_pow_pos _, rfl⟩
  have hfirst : Step false (Slab.pageSupply (pmmAlloc false) bootPmm)
      (boot false ⟨bootPmm, []⟩ fun _ => 0#8) (.pages (.alloc 1))
      { boot false ⟨bootPmm, []⟩ (fun _ => 0#8) with pages := c } :=
    .pages hpages fun _ hcall => Pmm.Call.noConfusion hcall
  obtain ⟨k, a, hstep, ha⟩ : ∃ k a, Step false (Slab.pageSupply (pmmAlloc false) bootPmm)
      { boot false ⟨bootPmm, []⟩ (fun _ => 0#8) with pages := c } (.heap (.kmalloc 8#64)) k ∧
        a ∈ k.allocations :=
    step_object (by decide) (show nextPowOfTwo 8#64 = some (BitVec.ofNat 64 (2 ^ 3)) by decide)
      (by decide) (show nextPowOfTwo (8#64 + metadataSize) = some (BitVec.ofNat 64 (2 ^ 4)) by decide)
      hne
  have hstart : Pmm.start false bootMap (fun _ => 0#8) = ⟨bootPmm, []⟩ := by
    rw [Pmm.start, pmmInit_bootMap]
  have hrun := Run.stepL hfirst (Run.stepL hstep (Run.stepL (.kfree ha) (.refl _)))
  have hsafe := kernel_memory_safe false bootMap (fun _ => 0#8) (fun _ => 0#8)
    (c := ⟨bootPmm, []⟩) (by rw [hstart]; exact .refl _) supplied_bootPmm hrun
  rw [pmmInit_bootMap] at hsafe
  exact ⟨_, a, hrun, hsafe⟩

end Kernel

end KnutOS
