import KnutOS.Foundation.Lists
import KnutOS.Libk.Math
import KnutOS.Memory.Mem

/-! The slab allocator (`memory/slab.c`). -/
namespace KnutOS

open Foundation

def slabCount : ℕ := 11

def maxSlabSize : BitVec 32 := 2048#32

def maxObjectsPerSlab : ℕ := 1024

/-- `slab_t`: `objects[j]` is the address of a free object, or `NULL`. -/
structure Slab where
  start : Word
  stop : Word
  size : Word
  isFull : Bool
  objects : ℕ → Word

/-- The array `slabs`. -/
abbrev Slabs := ℕ → Slab

/-- `MAX_SLAB_SIZE / pow(2, i + 1)`. -/
def objectsPerSlab (i : ℕ) : ℕ := (maxSlabSize / pow 2#32 (i + 1)).toNat

/-- What `slab_init` works on: the slabs, its three globals, and the state of `pmm_alloc`. -/
structure SlabInit (σ : Type*) where
  slabs : Slabs
  internalMemPtr : Word
  internalMemLen : Word
  pageAllocCount : BitVec 32
  pmm : σ

/-- The globals before `slab_init`, which C sets to zero. -/
def SlabInit.zero {σ : Type*} (pmm : σ) : SlabInit σ :=
  ⟨fun _ => ⟨0#64, 0#64, 0#64, false, fun _ => 0#64⟩, 0#64, 0#64, 0#32, pmm⟩

section

variable {σ : Type*} (pmmAlloc : σ → ℕ → Word × σ)

/-- One round of the inner loop. -/
def slabInitObject (i j : ℕ) (s : SlabInit σ) : SlabInit σ :=
  let s :=
    if s.internalMemPtr = 0#64 ∨ s.internalMemPtr = s.internalMemLen then
      let (page, pmm) := pmmAlloc s.pmm 1
      { s with
        internalMemPtr := page
        internalMemLen := page + pageSize
        pageAllocCount := s.pageAllocCount + 1#32
        pmm := pmm }
    else s
  let slab := s.slabs i
  { s with
    slabs := Function.update s.slabs i
      { slab with objects := Function.update slab.objects j s.internalMemPtr }
    internalMemPtr := s.internalMemPtr + slab.size }

/-- One round of the outer loop. -/
def slabInitSlab (i : ℕ) (s : SlabInit σ) : SlabInit σ :=
  let s := { s with
    slabs := Function.update s.slabs i
      { s.slabs i with size := (pow 2#32 (i + 1)).setWidth 64, isFull := false } }
  let s := Nat.fold (objectsPerSlab i) (fun j _ s => slabInitObject pmmAlloc i j s) s
  let slab := s.slabs i
  { s with
    slabs := Function.update s.slabs i
      { slab with
        start := slab.objects 0
        stop := slab.objects 0 + 1024#64 - slab.size } }

def slabInit (s : SlabInit σ) : SlabInit σ :=
  Nat.fold slabCount (fun i _ s => slabInitSlab pmmAlloc i s) s

end

def findFreeObject (slabs : Slabs) (slabIndex : ℕ) : Option ℕ :=
  (List.range (objectsPerSlab slabIndex)).find? fun j => (slabs slabIndex).objects j ≠ 0#64

def findAllocatedObject (slabs : Slabs) (slabIndex : ℕ) : Option ℕ :=
  (List.range (objectsPerSlab slabIndex)).find? fun j => (slabs slabIndex).objects j = 0#64

/-- `slabs[i].objects[j] = ptr`. -/
def setObject (slabs : Slabs) (i j : ℕ) (ptr : Word) : Slabs :=
  Function.update slabs i
    { slabs i with objects := Function.update (slabs i).objects j ptr }

def setFull (slabs : Slabs) (i : ℕ) : Slabs :=
  Function.update slabs i { slabs i with isFull := true }

/-- The loop of `slab_alloc` over the slabs that are left. -/
def slabAllocLoop (slabs : Slabs) (size : Word) : List ℕ → Word × Slabs
  | [] => (0#64, slabs)
  | i :: is =>
    if (slabs i).size ≠ size then slabAllocLoop slabs size is
    else if (slabs i).isFull then (0#64, slabs)
    else
      match findFreeObject slabs i with
      | none => (0#64, setFull slabs i)
      | some j => ((slabs i).objects j, setObject slabs i j 0#64)

def slabAlloc (slabs : Slabs) (size : Word) : Word × Slabs :=
  slabAllocLoop slabs size (List.range slabCount)

/-- The loop of `slab_free` over the slabs that are left. -/
def slabFreeLoop (slabs : Slabs) (ptr : Word) : List ℕ → Slabs
  | [] => slabs
  | i :: is =>
    let ptrWithoutBase := ptr - (slabs i).start + (slabs i).size
    if (slabs i).start ≤ ptr ∧ ptr ≤ (slabs i).stop then
      if ptrWithoutBase % (slabs i).size = 0#64 then
        match findAllocatedObject slabs i with
        | none => slabs
        | some j => slabFreeLoop (setObject slabs i j ptr) ptr is
      else slabFreeLoop slabs ptr is
    else slabFreeLoop slabs ptr is

def slabFree (slabs : Slabs) (ptr : Word) : Slabs :=
  if ptr = 0#64 then slabs else slabFreeLoop slabs ptr (List.range slabCount)

namespace Slab

variable {slabs : Slabs} {i k : ℕ} (j : ℕ) (p : Word)

theorem setObject_same (slabs : Slabs) (i l : ℕ) :
    ((setObject slabs i j p) i).objects l = if l = j then p else (slabs i).objects l := by
  rw [setObject, Function.update_self]
  exact Function.update_apply _ _ _ _

theorem setObject_other (slabs : Slabs) (h : k ≠ i) : (setObject slabs i j p) k = slabs k :=
  Function.update_of_ne h _ _

theorem setFull_other (slabs : Slabs) (h : k ≠ i) : (setFull slabs i) k = slabs k :=
  Function.update_of_ne h _ _

/-- Storing an entry leaves the rest of every slab alone. -/
theorem setObject_frame (slabs : Slabs) (i k : ℕ) :
    (setObject slabs i j p k).size = (slabs k).size ∧
    (setObject slabs i j p k).start = (slabs k).start ∧
    (setObject slabs i j p k).stop = (slabs k).stop ∧
    (setObject slabs i j p k).isFull = (slabs k).isFull := by
  by_cases hk : k = i
  · subst hk
    simp [setObject]
  · simp [setObject, hk]

/-- So does marking a slab full, which leaves the entries alone as well. -/
theorem setFull_frame (slabs : Slabs) (i k : ℕ) :
    (setFull slabs i k).size = (slabs k).size ∧
    (setFull slabs i k).start = (slabs k).start ∧
    (setFull slabs i k).stop = (slabs k).stop ∧
    (setFull slabs i k).objects = (slabs k).objects := by
  by_cases hk : k = i
  · subst hk
    simp [setFull]
  · simp [setFull, hk]

end Slab

end KnutOS
