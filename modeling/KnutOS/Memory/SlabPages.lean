import KnutOS.Memory.SlabSafety
import Mathlib.Logic.Function.Iterate

/-! The pages of the slabs: `slab_init` on whatever `pmm_alloc` returns, and the objects on them. -/
namespace KnutOS.Slab

open Foundation

variable {σ : Type*} (pmmAlloc : σ → ℕ → Word × σ) (s : σ)

/-- The state of `pmm_alloc` after `k` pages. -/
def afterPages (k : ℕ) : σ := (fun s => (pmmAlloc s 1).2)^[k] s

/-- The pages that it returns, one after the other. -/
def pageSupply (k : ℕ) : Word := (pmmAlloc (afterPages pmmAlloc s k) 1).1

theorem afterPages_succ (k : ℕ) :
    afterPages pmmAlloc s (k + 1) = (pmmAlloc (afterPages pmmAlloc s k) 1).2 :=
  Function.iterate_succ_apply' _ k s

/-- `slab_init` with another state of `pmm_alloc` for every number of calls. -/
def onState (g : ℕ → σ) (t : SlabInit ℕ) : SlabInit σ :=
  ⟨t.slabs, t.internalMemPtr, t.internalMemLen, t.pageAllocCount, g t.pmm⟩

variable {pmmAlloc s}

theorem fold_onState {f : ℕ → SlabInit σ → SlabInit σ} {f' : ℕ → SlabInit ℕ → SlabInit ℕ}
    {g : ℕ → σ} (h : ∀ i t, f i (onState g t) = onState g (f' i t)) (n : ℕ) (t : SlabInit ℕ) :
    Nat.fold n (fun i _ s => f i s) (onState g t) =
      onState g (Nat.fold n (fun i _ s => f' i s) t) := by
  induction n with
  | zero => rfl
  | succ n ih => rw [Nat.fold_succ, Nat.fold_succ, ih, h]

theorem slabInitObject_onState (i j : ℕ) (t : SlabInit ℕ) :
    slabInitObject pmmAlloc i j (onState (afterPages pmmAlloc s) t) =
      onState (afterPages pmmAlloc s) (slabInitObject (handOut (pageSupply pmmAlloc s)) i j t) := by
  by_cases ht : t.internalMemPtr = 0#64 ∨ t.internalMemPtr = t.internalMemLen
  · have ht' : (onState (afterPages pmmAlloc s) t).internalMemPtr = 0#64 ∨
        (onState (afterPages pmmAlloc s) t).internalMemPtr =
          (onState (afterPages pmmAlloc s) t).internalMemLen := ht
    rw [slabInitObject_of_none ht]
    simp only [slabInitObject, if_pos ht']
    simp only [onState, afterPages_succ, pageSupply, setObject]
  · have ht' : ¬ ((onState (afterPages pmmAlloc s) t).internalMemPtr = 0#64 ∨
        (onState (afterPages pmmAlloc s) t).internalMemPtr =
          (onState (afterPages pmmAlloc s) t).internalMemLen) := ht
    rw [slabInitObject_of_some ht]
    simp only [slabInitObject, if_neg ht']
    simp only [onState, setObject]

theorem slabInitSlab_onState (i : ℕ) (t : SlabInit ℕ) :
    slabInitSlab pmmAlloc i (onState (afterPages pmmAlloc s) t) =
      onState (afterPages pmmAlloc s) (slabInitSlab (handOut (pageSupply pmmAlloc s)) i t) := by
  have hobjects := fold_onState (f := slabInitObject pmmAlloc i) (g := afterPages pmmAlloc s)
    (fun j t => slabInitObject_onState i j t) (objectsPerSlab i)
    { t with
      slabs := Function.update t.slabs i
        { t.slabs i with size := (KnutOS.pow 2#32 (i + 1)).setWidth 64, isFull := false } }
  exact congrArg (fun s : SlabInit σ =>
    { s with
      slabs := Function.update s.slabs i
        { s.slabs i with
          start := (s.slabs i).objects 0
          stop := (s.slabs i).objects 0 + 1024#64 - (s.slabs i).size } }) hobjects

/-- `slab_init` on any page allocator is `slab_init` on the pages that it returns. -/
theorem slabInit_onState (pmmAlloc : σ → ℕ → Word × σ) (s : σ) :
    slabInit pmmAlloc (SlabInit.zero s) = onState (afterPages pmmAlloc s)
      (slabInit (handOut (pageSupply pmmAlloc s)) (SlabInit.zero 0)) :=
  fold_onState (fun i t => slabInitSlab_onState i t) slabCount (SlabInit.zero 0)

/-! Where the objects are. -/

variable {supply : ℕ → Word} {c : Config} {o : Object}

def Object.bytes (o : Object) : Set ℕ := Slab.bytes o.ptr o.size.toNat

theorem Sorted.in_page (hp : Pages supply) (h : Sorted supply c) (ho : o ∈ c.live) :
    o.ptr.toNat ∈ o.bytes ∧ ∃ i < 6, o.bytes ⊆ Slab.bytes (supply i) 4096 := by
  obtain ⟨i, hi, hsize, hobj⟩ := h.live o ho
  have hn : o.size.toNat = objectSize i := (congrArg BitVec.toNat hsize).trans (toNat_objectSize hi)
  have hle := objectSize_le hi
  obtain ⟨_, j, hj, hlo, hhi⟩ := isObject_page hp hi hobj
  rw [Object.bytes, hn]
  refine ⟨⟨le_rfl, by omega⟩, j, hj, ?_⟩
  rintro x ⟨hx, hx'⟩
  exact ⟨by omega, by omega⟩

theorem Sorted.apart (hp : Pages supply) (h : Sorted supply c) (hx : c.pool.Exclusive) :
    c.live.Pairwise fun o o' => Disjoint o.bytes o'.bytes := by
  apply (List.pairwise_map.mp hx.live_live).imp_of_mem
  intro o o' ho ho' hd
  obtain ⟨i, hi, hsize, hobj⟩ := h.live o ho
  obtain ⟨j, hj, hsize', hobj'⟩ := h.live o' ho'
  rw [Object.bytes, Object.bytes, hsize, hsize', toNat_objectSize hi, toNat_objectSize hj]
  apply bytes_disjoint hp hi hj hobj hobj'
  intro heq
  exact Set.disjoint_left.mp hd rfl heq

end KnutOS.Slab
