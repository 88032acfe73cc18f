import KnutOS.Memory.Slab

/-! Where `slab_init` puts the objects: every slab takes one half of a page, and its objects fill
the half one after the other. -/
namespace KnutOS.Slab

open Foundation

/-- `pmm_alloc(1)`, where call number `k` returns `supply k`. -/
def handOut (supply : ℕ → Word) (k _pageCount : ℕ) : Word × ℕ := (supply k, k + 1)

/-- The pages that `slab_init` gets: six different ones. -/
structure Pages (supply : ℕ → Word) : Prop where
  aligned : ∀ k < 6, (supply k).toNat % 4096 = 0
  nonnull : ∀ k < 6, supply k ≠ 0#64
  distinct : ∀ j k, j < k → k < 6 → supply j ≠ supply k

def objectSize (i : ℕ) : ℕ := 2 ^ (i + 1)

def objectCount (i : ℕ) : ℕ := 2 ^ (10 - i)

def slabBase (supply : ℕ → Word) (i : ℕ) : Word :=
  supply (i / 2) + BitVec.ofNat 64 (i % 2 * 2048)

def objectAddr (supply : ℕ → Word) (i j : ℕ) : Word :=
  slabBase supply i + BitVec.ofNat 64 (j * objectSize i)

/-- Slab `i` as `slab_init` leaves it. -/
structure Laid (supply : ℕ → Word) (i : ℕ) (slab : Slab) : Prop where
  size : slab.size = BitVec.ofNat 64 (objectSize i)
  start : slab.start = slabBase supply i
  stop : slab.stop = slabBase supply i + 1024#64 - BitVec.ofNat 64 (objectSize i)
  isFull : slab.isFull = false
  objects : ∀ j < objectCount i, slab.objects j = objectAddr supply i j
  beyond : ∀ j, objectCount i ≤ j → slab.objects j = 0#64

variable {supply : ℕ → Word} {i j n : ℕ} {s : SlabInit ℕ} {slabs : Slabs}

theorem toNat_two_pow (h : n < 32) : (2#32 ^ n).toNat = 2 ^ n := by
  induction n with
  | zero => rfl
  | succ n ih =>
    have hlt : 2 ^ (n + 1) < 2 ^ 32 := Nat.pow_lt_pow_right (by decide) h
    rw [pow_succ, BitVec.toNat_mul, ih (by omega), show (2#32).toNat = 2 from rfl, ← pow_succ,
      Nat.mod_eq_of_lt hlt]

theorem pow_two_eq (i : ℕ) : KnutOS.pow 2#32 (i + 1) = 2#32 ^ (i + 1) :=
  pow_natCast 2#32 (i + 1)

/-- The objects of a slab fill 2048 bytes. -/
theorem count_mul_size (hi : i < 11) : objectCount i * objectSize i = 2048 := by
  rw [objectCount, objectSize, ← pow_add, show 10 - i + (i + 1) = 11 by omega]
  rfl

theorem objectsPerSlab_eq (hi : i < 11) : objectsPerSlab i = objectCount i := by
  have hsize : 0 < objectSize i := Nat.two_pow_pos _
  rw [objectsPerSlab, pow_two_eq, BitVec.toNat_udiv, toNat_two_pow (by omega)]
  exact Nat.div_eq_of_eq_mul_left hsize (count_mul_size hi).symm

theorem size_eq (hi : i < 11) :
    (KnutOS.pow 2#32 (i + 1)).setWidth 64 = BitVec.ofNat 64 (objectSize i) := by
  apply BitVec.eq_of_toNat_eq
  rw [pow_two_eq, BitVec.toNat_setWidth, toNat_two_pow (by omega), BitVec.toNat_ofNat, objectSize]

/-- An object lies within the half page of its slab. -/
theorem object_end (hi : i < 11) (hj : j < objectCount i) :
    j * objectSize i + objectSize i ≤ 2048 := by
  have hle := Nat.mul_le_mul_right (objectSize i) (Nat.succ_le_of_lt hj)
  rwa [count_mul_size hi, Nat.succ_mul] at hle

theorem objectSize_le (hi : i < 11) : 2 ≤ objectSize i ∧ objectSize i ≤ 2048 := by
  have h := object_end hi (Nat.two_pow_pos (10 - i))
  have h2 : 2 ^ 1 ≤ objectSize i := Nat.pow_le_pow_right (by decide) (by omega)
  omega

theorem toNat_slabBase (h : Pages supply) (hi : i < 11) :
    (slabBase supply i).toNat = (supply (i / 2)).toNat + i % 2 * 2048 := by
  have ha := h.aligned (i / 2) (by omega)
  have hlt := (supply (i / 2)).isLt
  rw [slabBase, BitVec.toNat_add, BitVec.toNat_ofNat]
  omega

theorem toNat_objectAddr (h : Pages supply) (hi : i < 11) (hj : j < objectCount i) :
    (objectAddr supply i j).toNat =
      (supply (i / 2)).toNat + i % 2 * 2048 + j * objectSize i := by
  have ha := h.aligned (i / 2) (by omega)
  have hlt := (supply (i / 2)).isLt
  have hend := object_end hi hj
  have hsize := objectSize_le hi
  rw [objectAddr, BitVec.toNat_add, toNat_slabBase h hi, BitVec.toNat_ofNat]
  omega

theorem nonnull_toNat (h : Pages supply) {k : ℕ} (hk : k < 6) : 0 < (supply k).toNat := by
  have hne := h.nonnull k hk
  by_contra h0
  exact hne (BitVec.eq_of_toNat_eq (by rw [show (supply k).toNat = 0 by omega]; rfl))

theorem objectAddr_succ (supply : ℕ → Word) (i j : ℕ) :
    objectAddr supply i j + BitVec.ofNat 64 (objectSize i) = objectAddr supply i (j + 1) := by
  rw [objectAddr, objectAddr, BitVec.add_assoc, ← BitVec.ofNat_add, Nat.succ_mul]

/-- The globals of `slab_init` before object `j` of slab `i`. -/
def Cursor (supply : ℕ → Word) (i j : ℕ) (s : SlabInit ℕ) : Prop :=
  if j = 0 ∧ i % 2 = 0 then
    s.pmm = i / 2 ∧ (s.internalMemPtr = 0#64 ∨ s.internalMemPtr = s.internalMemLen)
  else
    s.pmm = i / 2 + 1 ∧ s.internalMemPtr = objectAddr supply i j ∧
      s.internalMemLen = supply (i / 2) + pageSize

theorem slabInitObject_of_none (hs : s.internalMemPtr = 0#64 ∨ s.internalMemPtr = s.internalMemLen) :
    slabInitObject (handOut supply) i j s =
      { slabs := setObject s.slabs i j (supply s.pmm)
        internalMemPtr := supply s.pmm + (s.slabs i).size
        internalMemLen := supply s.pmm + pageSize
        pageAllocCount := s.pageAllocCount + 1#32
        pmm := s.pmm + 1 } := by
  simp only [slabInitObject, if_pos hs]
  rfl

theorem slabInitObject_of_some
    (hs : ¬ (s.internalMemPtr = 0#64 ∨ s.internalMemPtr = s.internalMemLen)) :
    slabInitObject (handOut supply) i j s =
      { s with
        slabs := setObject s.slabs i j s.internalMemPtr
        internalMemPtr := s.internalMemPtr + (s.slabs i).size } := by
  simp only [slabInitObject, if_neg hs]
  rfl

/-- A round of the inner loop stores the next object. -/
theorem slabInitObject_eq (h : Pages supply) (hi : i < 11) (hj : j < objectCount i)
    (hc : Cursor supply i j s) (hsize : (s.slabs i).size = BitVec.ofNat 64 (objectSize i)) :
    (slabInitObject (handOut supply) i j s).slabs = setObject s.slabs i j (objectAddr supply i j) ∧
    (slabInitObject (handOut supply) i j s).pmm = i / 2 + 1 ∧
    (slabInitObject (handOut supply) i j s).internalMemPtr = objectAddr supply i (j + 1) ∧
    (slabInitObject (handOut supply) i j s).internalMemLen = supply (i / 2) + pageSize := by
  by_cases hfirst : j = 0 ∧ i % 2 = 0
  · rw [Cursor, if_pos hfirst] at hc
    obtain ⟨rfl, heven⟩ := hfirst
    obtain ⟨hpmm, hptr⟩ := hc
    have haddr : objectAddr supply i 0 = supply (i / 2) := by
      simp [objectAddr, slabBase, heven]
    rw [slabInitObject_of_none hptr, hpmm, hsize, ← haddr]
    exact ⟨rfl, rfl, objectAddr_succ supply i 0, rfl⟩
  · rw [Cursor, if_neg hfirst] at hc
    obtain ⟨hpmm, hptr, hlen⟩ := hc
    have haddr := toNat_objectAddr h hi hj
    have hpos := nonnull_toNat h (show i / 2 < 6 by omega)
    have hend := object_end hi hj
    have hsz := objectSize_le hi
    have ha := h.aligned (i / 2) (by omega)
    have hlt := (supply (i / 2)).isLt
    have hpage : (supply (i / 2) + pageSize).toNat = ((supply (i / 2)).toNat + 4096) % 2 ^ 64 := by
      rw [BitVec.toNat_add]
      rfl
    have hno : ¬ (s.internalMemPtr = 0#64 ∨ s.internalMemPtr = s.internalMemLen) := by
      rw [hptr, hlen]
      rintro (h0 | he)
      · have hn := congrArg BitVec.toNat h0
        rw [haddr] at hn
        simp at hn
        omega
      · have hn := congrArg BitVec.toNat he
        rw [haddr, hpage] at hn
        omega
    rw [slabInitObject_of_some hno, hptr, hsize]
    exact ⟨rfl, hpmm, objectAddr_succ supply i j, hlen⟩

/-- Slab `i` with the first `n` objects stored. -/
def storeObjects (supply : ℕ → Word) (slabs : Slabs) (i n : ℕ) : Slabs :=
  Function.update slabs i
    { slabs i with
      objects := fun j => if j < n then objectAddr supply i j else (slabs i).objects j }

theorem storeObjects_zero : storeObjects supply slabs i 0 = slabs := by
  simp [storeObjects]

theorem setObject_storeObjects :
    setObject (storeObjects supply slabs i n) i n (objectAddr supply i n) =
      storeObjects supply slabs i (n + 1) := by
  simp only [setObject, storeObjects, Function.update_self, Function.update_idem]
  congr 2
  funext j
  by_cases hj : j = n
  · subst hj
    simp
  · rw [Function.update_of_ne hj]
    simp only [show j < n + 1 ↔ j < n by omega]

/-- The inner loop after `n` rounds. -/
theorem objects_fold (h : Pages supply) (hi : i < 11) (hn : n ≤ objectCount i)
    (hc : Cursor supply i 0 s) (hsize : (s.slabs i).size = BitVec.ofNat 64 (objectSize i)) :
    let s' := Nat.fold n (fun j _ s => slabInitObject (handOut supply) i j s) s
    s'.slabs = storeObjects supply s.slabs i n ∧ Cursor supply i n s' := by
  induction n with
  | zero => exact ⟨storeObjects_zero.symm, hc⟩
  | succ n ih =>
    obtain ⟨hslabs, hcur⟩ := ih (by omega)
    simp only [Nat.fold_succ]
    have hsize' : ((Nat.fold n (fun j _ s => slabInitObject (handOut supply) i j s) s).slabs i).size =
        BitVec.ofNat 64 (objectSize i) := by
      rw [hslabs, storeObjects, Function.update_self]
      exact hsize
    obtain ⟨h1, h2, h3, h4⟩ := slabInitObject_eq h hi (by omega) hcur hsize'
    refine ⟨?_, ?_⟩
    · rw [h1, hslabs, setObject_storeObjects]
    · rw [Cursor, if_neg (by omega)]
      exact ⟨h2, h3, h4⟩

/-- One round of the outer loop lays slab `i` out and leaves the others alone. -/
theorem slabInitSlab_spec (h : Pages supply) (hi : i < 11) (hc : Cursor supply i 0 s)
    (hz : ∀ j, (s.slabs i).objects j = 0#64) :
    Laid supply i ((slabInitSlab (handOut supply) i s).slabs i) ∧
    (∀ k, k ≠ i → (slabInitSlab (handOut supply) i s).slabs k = s.slabs k) ∧
    Cursor supply (i + 1) 0 (slabInitSlab (handOut supply) i s) := by
  have hpos : 0 < objectCount i := Nat.two_pow_pos _
  have hsize := size_eq hi
  have hzero : objectAddr supply i 0 = slabBase supply i := by simp [objectAddr]
  obtain ⟨hslabs, hcur⟩ := objects_fold (n := objectsPerSlab i) (s := { s with
      slabs := Function.update s.slabs i
        { s.slabs i with size := (KnutOS.pow 2#32 (i + 1)).setWidth 64, isFull := false } })
    h hi (objectsPerSlab_eq hi).le hc (by rw [← hsize]; simp)
  have hslabs := hslabs.trans (congrArg (storeObjects supply _ i) (objectsPerSlab_eq hi))
  refine ⟨?_, ?_, ?_⟩
  · simp only [slabInitSlab, Function.update_self, hslabs, storeObjects, hpos, if_true]
    refine ⟨hsize, hzero, ?_, rfl, fun j hj => if_pos hj, fun j hj => ?_⟩
    · rw [hzero, hsize]
    · exact (if_neg (by omega)).trans (hz j)
  · intro k hk
    simp only [slabInitSlab, Function.update_of_ne hk, hslabs, storeObjects]
  · have hn := objectsPerSlab_eq hi
    rw [Cursor, if_neg (by omega)] at hcur
    obtain ⟨h1, h2, h3⟩ := hcur
    have hend : objectAddr supply i (objectCount i) =
        supply (i / 2) + BitVec.ofNat 64 (i % 2 * 2048 + 2048) := by
      rw [objectAddr, count_mul_size hi, slabBase, BitVec.add_assoc, ← BitVec.ofNat_add]
    have h2 := h2.trans ((congrArg (objectAddr supply i) hn).trans hend)
    rw [Cursor]
    simp only [slabInitSlab, true_and]
    by_cases hodd : i % 2 = 0
    · rw [if_neg (by omega), h1, h2, h3, show (i + 1) / 2 = i / 2 by omega, hodd]
      refine ⟨rfl, ?_, rfl⟩
      simp [objectAddr, slabBase, show (i + 1) % 2 = 1 by omega, show (i + 1) / 2 = i / 2 by omega]
    · rw [if_pos (by omega), h1, h2, h3, show i % 2 = 1 by omega]
      exact ⟨by omega, .inr (by simp [pageSize])⟩

/-- The outer loop after `n` rounds. -/
theorem slabs_fold (h : Pages supply) (hn : n ≤ 11) :
    let s := Nat.fold n (fun i _ s => slabInitSlab (handOut supply) i s) (SlabInit.zero 0)
    Cursor supply n 0 s ∧ (∀ i < n, Laid supply i (s.slabs i)) ∧
      ∀ i j, n ≤ i → (s.slabs i).objects j = 0#64 := by
  induction n with
  | zero => exact ⟨by simp [Cursor, SlabInit.zero], fun _ hlt => by omega, fun _ _ _ => rfl⟩
  | succ n ih =>
    obtain ⟨hcur, hlaid, hzero⟩ := ih (by omega)
    simp only [Nat.fold_succ]
    obtain ⟨h1, h2, h3⟩ := slabInitSlab_spec h (by omega) hcur fun j => hzero n j le_rfl
    refine ⟨h3, fun k hk => ?_, fun k j hk => ?_⟩
    · by_cases hkn : k = n
      · subst hkn
        exact h1
      · rw [h2 k hkn]
        exact hlaid k (by omega)
    · rw [h2 k (by omega)]
      exact hzero k j (by omega)

/-- `slab_init` lays all the slabs out. -/
theorem slabInit_laid (h : Pages supply) (hi : i < 11) :
    Laid supply i ((slabInit (handOut supply) (SlabInit.zero 0)).slabs i) :=
  (slabs_fold h (show slabCount ≤ 11 from le_rfl)).2.1 i hi

/-- Six pages are enough for all of them. -/
theorem slabInit_pages (h : Pages supply) :
    (slabInit (handOut supply) (SlabInit.zero 0)).pmm = 6 := by
  have hcur := (slabs_fold h (show slabCount ≤ 11 from le_rfl)).1
  rw [Cursor, if_neg (by decide)] at hcur
  exact hcur.1

/-! Distinct objects do not overlap. -/

/-- The bytes of an object. -/
def bytes (ptr : Word) (size : ℕ) : Set ℕ := {a | ptr.toNat ≤ a ∧ a < ptr.toNat + size}

/-- Pointer `ptr` is an object of slab `i`. -/
def IsObject (supply : ℕ → Word) (i : ℕ) (ptr : Word) : Prop :=
  ∃ j < objectCount i, ptr = objectAddr supply i j

theorem isObject_half (h : Pages supply) (hi : i < 11) {ptr : Word} (ho : IsObject supply i ptr) :
    (slabBase supply i).toNat ≤ ptr.toNat ∧
      ptr.toNat + objectSize i ≤ (slabBase supply i).toNat + 2048 := by
  obtain ⟨j, hj, rfl⟩ := ho
  have hend := object_end hi hj
  rw [toNat_slabBase h hi, toNat_objectAddr h hi hj]
  omega

theorem half_disjoint (h : Pages supply) (hi : i < 11) (hj : j < 11) (hne : i ≠ j) :
    (slabBase supply i).toNat + 2048 ≤ (slabBase supply j).toNat ∨
      (slabBase supply j).toNat + 2048 ≤ (slabBase supply i).toNat := by
  rw [toNat_slabBase h hi, toNat_slabBase h hj]
  by_cases hp : i / 2 = j / 2
  · rw [hp]
    omega
  · have hai := h.aligned (i / 2) (by omega)
    have haj := h.aligned (j / 2) (by omega)
    have hd : (supply (i / 2)).toNat ≠ (supply (j / 2)).toNat := by
      intro he
      have he' := BitVec.eq_of_toNat_eq he
      rcases Nat.lt_or_gt_of_ne hp with hlt | hlt
      · exact h.distinct _ _ hlt (by omega) he'
      · exact h.distinct _ _ hlt (by omega) he'.symm
    omega

theorem bytes_disjoint (h : Pages supply) (hi : i < 11) (hj : j < 11) {p q : Word}
    (hp : IsObject supply i p) (hq : IsObject supply j q) (hne : p ≠ q) :
    Disjoint (bytes p (objectSize i)) (bytes q (objectSize j)) := by
  have hapart : p.toNat + objectSize i ≤ q.toNat ∨ q.toNat + objectSize j ≤ p.toNat := by
    by_cases hij : i = j
    · subst hij
      obtain ⟨k, hk, rfl⟩ := hp
      obtain ⟨l, hl, rfl⟩ := hq
      rw [toNat_objectAddr h hi hk, toNat_objectAddr h hi hl]
      have hkl : k ≠ l := by
        rintro rfl
        exact hne rfl
      rcases Nat.lt_or_gt_of_ne hkl with hlt | hlt
      · have hle := Nat.mul_le_mul_right (objectSize i) (Nat.succ_le_of_lt hlt)
        rw [Nat.succ_mul] at hle
        omega
      · have hle := Nat.mul_le_mul_right (objectSize i) (Nat.succ_le_of_lt hlt)
        rw [Nat.succ_mul] at hle
        omega
    · have hp' := isObject_half h hi hp
      have hq' := isObject_half h hj hq
      have hhalf := half_disjoint h hi hj hij
      omega
  apply Set.disjoint_left.mpr
  rintro a ⟨h1, h2⟩ ⟨h3, h4⟩
  omega

theorem slab_unique (h : Pages supply) (hi : i < 11) (hj : j < 11) {p : Word}
    (hp : IsObject supply i p) (hq : IsObject supply j p) : i = j := by
  by_contra hij
  have hp' := isObject_half h hi hp
  have hq' := isObject_half h hj hq
  have hhalf := half_disjoint h hi hj hij
  have hsi := objectSize_le hi
  have hsj := objectSize_le hj
  omega

theorem isObject_nonnull (h : Pages supply) (hi : i < 11) {p : Word} (hp : IsObject supply i p) :
    p ≠ 0#64 := by
  have hpos := nonnull_toNat h (show i / 2 < 6 by omega)
  have hhalf := (isObject_half h hi hp).1
  rw [toNat_slabBase h hi] at hhalf
  rintro rfl
  simp at hhalf
  omega

/-- An object is aligned to its size and lies in one page. -/
theorem isObject_page (h : Pages supply) (hi : i < 11) {p : Word} (hp : IsObject supply i p) :
    objectSize i ∣ p.toNat ∧ ∃ k < 6, (supply k).toNat ≤ p.toNat ∧
      p.toNat + objectSize i ≤ (supply k).toNat + 4096 := by
  have ha := h.aligned (i / 2) (by omega)
  have hhalf := isObject_half h hi hp
  rw [toNat_slabBase h hi] at hhalf
  refine ⟨?_, i / 2, by omega, by omega, by omega⟩
  obtain ⟨j, hj, rfl⟩ := hp
  have hdvd : objectSize i ∣ 2048 := ⟨objectCount i, by rw [Nat.mul_comm, count_mul_size hi]⟩
  have hbase : 2048 ∣ (supply (i / 2)).toNat + i % 2 * 2048 := by omega
  rw [toNat_objectAddr h hi hj]
  exact Nat.dvd_add (hdvd.trans hbase) (Nat.dvd_mul_left _ _)

end KnutOS.Slab
