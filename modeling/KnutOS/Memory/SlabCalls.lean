import KnutOS.Memory.SlabLayout

/-! What one call of `slab_alloc` or `slab_free` does to slabs that `slab_init` laid out. -/
namespace KnutOS.Slab

open Foundation

/-- What `slab_init` sets up and no call changes. -/
structure Layout (supply : ℕ → Word) (slabs : Slabs) : Prop where
  size : ∀ i < 11, (slabs i).size = BitVec.ofNat 64 (objectSize i)
  start : ∀ i < 11, (slabs i).start = slabBase supply i
  stop : ∀ i < 11, (slabs i).stop = slabBase supply i + 1024#64 - BitVec.ofNat 64 (objectSize i)

variable {supply : ℕ → Word} {slabs : Slabs} {i j k : ℕ} {size ptr p : Word} {is : List ℕ}

theorem Layout.setObject (h : Layout supply slabs) : Layout supply (setObject slabs i j p) := by
  refine ⟨fun k hk => ?_, fun k hk => ?_, fun k hk => ?_⟩
  · exact (setObject_frame j p slabs i k).1.trans (h.size k hk)
  · exact (setObject_frame j p slabs i k).2.1.trans (h.start k hk)
  · exact (setObject_frame j p slabs i k).2.2.1.trans (h.stop k hk)

theorem Layout.setFull (h : Layout supply slabs) : Layout supply (setFull slabs i) := by
  refine ⟨fun k hk => ?_, fun k hk => ?_, fun k hk => ?_⟩
  · exact (setFull_frame slabs i k).1.trans (h.size k hk)
  · exact (setFull_frame slabs i k).2.1.trans (h.start k hk)
  · exact (setFull_frame slabs i k).2.2.1.trans (h.stop k hk)

theorem toNat_objectSize (hi : i < 11) : (BitVec.ofNat 64 (objectSize i)).toNat = objectSize i := by
  have hs := objectSize_le hi
  rw [BitVec.toNat_ofNat, Nat.mod_eq_of_lt (by omega)]

theorem objectSize_injective (hi : i < 11) (hj : j < 11)
    (h : BitVec.ofNat 64 (objectSize i) = BitVec.ofNat 64 (objectSize j)) : i = j := by
  have hn := congrArg BitVec.toNat h
  rw [toNat_objectSize hi, toNat_objectSize hj] at hn
  exact Nat.succ_injective (Nat.pow_right_injective (le_refl 2) hn)

/-! `slab_alloc`. -/

theorem slabAllocLoop_of_other (h : ∀ i ∈ is, (slabs i).size ≠ size) :
    slabAllocLoop slabs size is = (0#64, slabs) := by
  induction is with
  | nil => rfl
  | cons i is ih =>
    rw [slabAllocLoop, if_pos (h i List.mem_cons_self)]
    exact ih fun k hk => h k (List.mem_cons_of_mem i hk)

/-- The loop stops at the slab of the size asked for. -/
theorem slabAllocLoop_of_size (hi : i ∈ is) (hsize : (slabs i).size = size)
    (hother : ∀ k ∈ is, k ≠ i → (slabs k).size ≠ size) :
    slabAllocLoop slabs size is = if (slabs i).isFull then (0#64, slabs) else
      (findFreeObject slabs i).elim (0#64, setFull slabs i)
        fun j => ((slabs i).objects j, setObject slabs i j 0#64) := by
  induction is with
  | nil => cases hi
  | cons a is ih =>
    by_cases hai : a = i
    · subst hai
      simp only [slabAllocLoop, hsize, ne_eq, not_true_eq_false, if_false]
      cases findFreeObject slabs a <;> rfl
    · rw [slabAllocLoop, if_pos (hother a List.mem_cons_self hai)]
      exact ih ((List.mem_cons.mp hi).resolve_left (Ne.symm hai))
        fun k hk => hother k (List.mem_cons_of_mem a hk)

theorem slabAlloc_of_other (h : Layout supply slabs)
    (hsize : ∀ i < 11, size ≠ BitVec.ofNat 64 (objectSize i)) :
    slabAlloc slabs size = (0#64, slabs) := by
  apply slabAllocLoop_of_other
  intro i hi
  have hi' : i < 11 := List.mem_range.mp hi
  rw [h.size i hi']
  exact (hsize i hi').symm

theorem slabAlloc_eq (h : Layout supply slabs) (hi : i < 11) :
    slabAlloc slabs (BitVec.ofNat 64 (objectSize i)) =
      if (slabs i).isFull then (0#64, slabs) else
        (findFreeObject slabs i).elim (0#64, setFull slabs i)
          fun j => ((slabs i).objects j, setObject slabs i j 0#64) := by
  have hmem : i ∈ List.range slabCount := List.mem_range.mpr hi
  apply slabAllocLoop_of_size hmem (h.size i hi)
  intro k hk hki he
  have hk' : k < 11 := List.mem_range.mp hk
  rw [h.size k hk'] at he
  exact hki (objectSize_injective hk' hi he)

/-- A call for an object of slab `i`: the slab is marked full, or it is marked now because it
lists nothing, or it hands out an object that it lists. -/
theorem slabAlloc_cases (h : Layout supply slabs) (hi : i < 11) :
    ((slabs i).isFull = true ∧
      slabAlloc slabs (BitVec.ofNat 64 (objectSize i)) = (0#64, slabs)) ∨
    ((slabs i).isFull = false ∧ (∀ j < objectCount i, (slabs i).objects j = 0#64) ∧
      slabAlloc slabs (BitVec.ofNat 64 (objectSize i)) = (0#64, setFull slabs i)) ∨
    ((slabs i).isFull = false ∧ ∃ j < objectCount i, (slabs i).objects j ≠ 0#64 ∧
      slabAlloc slabs (BitVec.ofNat 64 (objectSize i)) =
        ((slabs i).objects j, setObject slabs i j 0#64)) := by
  rw [slabAlloc_eq h hi]
  cases hfull : (slabs i).isFull with
  | true => exact .inl ⟨rfl, rfl⟩
  | false =>
    cases hfind : findFreeObject slabs i with
    | none =>
      rw [findFreeObject, objectsPerSlab_eq hi, List.find?_eq_none] at hfind
      refine .inr (.inl ⟨rfl, fun j hj => ?_, rfl⟩)
      simpa using hfind j (List.mem_range.mpr hj)
    | some j =>
      have hj := List.mem_range.mp (List.mem_of_find?_eq_some hfind)
      have hne := List.find?_some hfind
      exact .inr (.inr ⟨rfl, j, objectsPerSlab_eq hi ▸ hj, by simpa using hne, rfl⟩)

theorem Layout.slabAlloc (h : Layout supply slabs) (size : Word) :
    Layout supply (slabAlloc slabs size).2 := by
  by_cases hs : ∃ i < 11, size = BitVec.ofNat 64 (objectSize i)
  · obtain ⟨i, hi, rfl⟩ := hs
    rcases slabAlloc_cases h hi with ⟨_, he⟩ | ⟨_, _, he⟩ | ⟨_, j, _, _, he⟩
    · rwa [he]
    · rw [he]
      exact h.setFull
    · rw [he]
      exact h.setObject
  · rwa [slabAlloc_of_other h fun i hi he => hs ⟨i, hi, he⟩]

/-! `slab_free`. -/

/-- `ptr` lies in the address range of a slab. -/
def InRange (slab : Slab) (ptr : Word) : Prop := slab.start ≤ ptr ∧ ptr ≤ slab.stop

/-- Both tests of `slab_free` let `ptr` pass. -/
def Accepts (slab : Slab) (ptr : Word) : Prop :=
  InRange slab ptr ∧ (ptr - slab.start + slab.size) % slab.size = 0#64

/-- Pointer `ptr` is an object of slab `i` that ends within the first 1024 of its 2048 bytes. -/
def Recognized (supply : ℕ → Word) (i : ℕ) (ptr : Word) : Prop :=
  ∃ j < objectCount i, ptr = objectAddr supply i j ∧ j * objectSize i + objectSize i ≤ 1024

theorem Recognized.isObject (h : Recognized supply i ptr) : IsObject supply i ptr := by
  obtain ⟨j, hj, he, _⟩ := h
  exact ⟨j, hj, he⟩

/-- A slab's address range covers the first half of its 2048 bytes, less the last object. -/
theorem Layout.inRange_iff (hp : Pages supply) (h : Layout supply slabs) (hi : i < 11) :
    InRange (slabs i) ptr ↔ (slabBase supply i).toNat ≤ ptr.toNat ∧
      ptr.toNat + objectSize i ≤ (slabBase supply i).toNat + 1024 := by
  have hs := objectSize_le hi
  have ha := hp.aligned (i / 2) (by omega)
  have hpos := nonnull_toNat hp (show i / 2 < 6 by omega)
  have hlt := (supply (i / 2)).isLt
  have hbase := toNat_slabBase hp hi
  have hstop : (slabBase supply i + 1024#64 - BitVec.ofNat 64 (objectSize i)).toNat =
      (slabBase supply i).toNat + 1024 - objectSize i := by
    rw [BitVec.toNat_sub, BitVec.toNat_add, toNat_objectSize hi, show (1024#64).toNat = 1024 from rfl]
    omega
  rw [InRange, h.start i hi, h.stop i hi, BitVec.le_def, BitVec.le_def, hstop]
  omega

/-- A slab accepts its own objects in the first half, and nothing else. -/
theorem Layout.accepts_iff (hp : Pages supply) (h : Layout supply slabs) (hi : i < 11) :
    Accepts (slabs i) ptr ↔ Recognized supply i ptr := by
  have hs := objectSize_le hi
  have hpos : 0 < objectSize i := by omega
  have hcount := count_mul_size hi
  have hoff (d : ℕ) (hd : d ≤ 1024) : (BitVec.ofNat 64 d + BitVec.ofNat 64 (objectSize i)) %
      BitVec.ofNat 64 (objectSize i) = 0#64 ↔ d % objectSize i = 0 := by
    have hsum : (BitVec.ofNat 64 d + BitVec.ofNat 64 (objectSize i)).toNat = d + objectSize i := by
      rw [BitVec.toNat_add, toNat_objectSize hi, BitVec.toNat_ofNat]
      omega
    rw [← BitVec.toNat_inj, BitVec.toNat_umod, hsum, toNat_objectSize hi, Nat.add_mod_right]
    rfl
  rw [Accepts, h.inRange_iff hp hi, h.size i hi, h.start i hi]
  constructor
  · rintro ⟨⟨hlo, hhi⟩, hmod⟩
    have hsub : ptr - slabBase supply i = BitVec.ofNat 64 (ptr.toNat - (slabBase supply i).toNat) := by
      bv_omega
    rw [hsub, hoff _ (by omega)] at hmod
    obtain ⟨j, hj⟩ := Nat.dvd_of_mod_eq_zero hmod
    rw [Nat.mul_comm] at hj
    refine ⟨j, ?_, ?_, by omega⟩
    · by_contra hge
      have hle := Nat.mul_le_mul_right (objectSize i) (Nat.le_of_not_lt hge)
      omega
    · rw [objectAddr, ← hj, ← hsub]
      bv_omega
  · rintro ⟨j, hj, rfl, hend⟩
    have hsub : objectAddr supply i j - slabBase supply i = BitVec.ofNat 64 (j * objectSize i) := by
      rw [objectAddr]
      bv_omega
    rw [hsub, hoff _ (by omega)]
    refine ⟨?_, Nat.mul_mod_left j _⟩
    rw [toNat_slabBase hp hi, toNat_objectAddr hp hi hj]
    omega

/-- Only one slab accepts a pointer. -/
theorem recognized_unique (hp : Pages supply) (hi : i < 11) (hk : k < 11)
    (h : Recognized supply i ptr) (h' : Recognized supply k ptr) : i = k :=
  slab_unique hp hi hk h.isObject h'.isObject

theorem slabFreeLoop_of_rejected (h : ∀ i ∈ is, ¬ Accepts (slabs i) ptr) :
    slabFreeLoop slabs ptr is = slabs := by
  induction is with
  | nil => rfl
  | cons i is ih =>
    have hi := h i List.mem_cons_self
    have htail := ih fun k hk => h k (List.mem_cons_of_mem i hk)
    simp only [Accepts, InRange, not_and] at hi
    simp only [slabFreeLoop]
    split
    · next hin =>
      rw [if_neg (hi hin), htail]
    · exact htail

/-- The slab that accepts a pointer stores it in its first `NULL` entry, if it has one. -/
theorem slabFreeLoop_of_accepted (hi : i ∈ is) (hnodup : is.Nodup) (ha : Accepts (slabs i) ptr)
    (hother : ∀ k ∈ is, k ≠ i → ¬ Accepts (slabs k) ptr) :
    slabFreeLoop slabs ptr is =
      (findAllocatedObject slabs i).elim slabs fun j => setObject slabs i j ptr := by
  induction is with
  | nil => cases hi
  | cons a is ih =>
    obtain ⟨hnot, hnodup⟩ := List.nodup_cons.mp hnodup
    by_cases hai : a = i
    · subst hai
      have hne : ∀ k ∈ is, k ≠ a := by
        rintro k hk rfl
        exact hnot hk
      obtain ⟨⟨hlo, hhi⟩, hmod⟩ := ha
      simp only [slabFreeLoop, hlo, hhi, and_self, if_true, hmod]
      cases findAllocatedObject slabs a with
      | none => rfl
      | some j =>
        apply slabFreeLoop_of_rejected
        intro k hk
        rw [setObject_other j ptr slabs (hne k hk)]
        exact hother k (List.mem_cons_of_mem a hk) (hne k hk)
    · have hrej := hother a List.mem_cons_self hai
      have htail := ih ((List.mem_cons.mp hi).resolve_left (Ne.symm hai)) hnodup
        fun k hk => hother k (List.mem_cons_of_mem a hk)
      simp only [Accepts, InRange, not_and] at hrej
      simp only [slabFreeLoop]
      split
      · next hin => rw [if_neg (hrej hin), htail]
      · exact htail

theorem slabFree_of_unrecognized (hp : Pages supply) (h : Layout supply slabs)
    (hr : ∀ i < 11, ¬ Recognized supply i ptr) : slabFree slabs ptr = slabs := by
  rw [slabFree]
  split
  · rfl
  · apply slabFreeLoop_of_rejected
    intro i hi
    have hi' : i < 11 := List.mem_range.mp hi
    rw [h.accepts_iff hp hi']
    exact hr i hi'

/-- A recognized object goes into a `NULL` entry of its slab; without one nothing happens. -/
theorem slabFree_of_recognized (hp : Pages supply) (h : Layout supply slabs) (hi : i < 11)
    (hr : Recognized supply i ptr) :
    ((∀ j < objectCount i, (slabs i).objects j ≠ 0#64) ∧ slabFree slabs ptr = slabs) ∨
    ∃ j < objectCount i, (slabs i).objects j = 0#64 ∧
      slabFree slabs ptr = setObject slabs i j ptr := by
  have hother : ∀ k ∈ List.range slabCount, k ≠ i → ¬ Accepts (slabs k) ptr := by
    intro k hk hki ha
    have hk' : k < 11 := List.mem_range.mp hk
    exact hki (recognized_unique hp hk' hi ((h.accepts_iff hp hk').mp ha) hr)
  have hmem : i ∈ List.range slabCount := List.mem_range.mpr hi
  have heq := slabFreeLoop_of_accepted hmem List.nodup_range ((h.accepts_iff hp hi).mpr hr) hother
  rw [slabFree, if_neg (isObject_nonnull hp hi hr.isObject), heq]
  cases hfind : findAllocatedObject slabs i with
  | none =>
    rw [findAllocatedObject, objectsPerSlab_eq hi, List.find?_eq_none] at hfind
    refine .inl ⟨fun j hj => ?_, rfl⟩
    simpa using hfind j (List.mem_range.mpr hj)
  | some j =>
    have hj := List.mem_range.mp (List.mem_of_find?_eq_some hfind)
    have hnull := List.find?_some hfind
    exact .inr ⟨j, objectsPerSlab_eq hi ▸ hj, by simpa using hnull, rfl⟩

theorem Layout.slabFree (hp : Pages supply) (h : Layout supply slabs) (ptr : Word) :
    Layout supply (slabFree slabs ptr) := by
  by_cases hr : ∃ i < 11, Recognized supply i ptr
  · obtain ⟨i, hi, hr⟩ := hr
    rcases slabFree_of_recognized hp h hi hr with ⟨_, hs⟩ | ⟨j, _, _, hs⟩
    · rwa [hs]
    · rw [hs]
      exact h.setObject
  · rwa [slabFree_of_unrecognized hp h fun i hi hri => hr ⟨i, hi, hri⟩]

end KnutOS.Slab
