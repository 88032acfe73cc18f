import KnutOS.Memory.Pmm
import KnutOS.Memory.VmmOwnership

/-! The virtual memory manager on the physical one: the frames that `pmm_alloc(1)` returns one
after the other are a supply, and runs on the two managers are runs with that supply. -/
namespace KnutOS

/-- The same memory over another state of the page frame allocator. -/
def Machine.map {σ τ : Type*} (g : σ → τ) (m : Machine σ) : Machine τ := ⟨m.mem, g m.pmm⟩

@[simp] theorem Machine.mem_map {σ τ : Type*} (g : σ → τ) (m : Machine σ) :
    (m.map g).mem = m.mem := rfl

@[simp] theorem Machine.pmm_map {σ τ : Type*} (g : σ → τ) (m : Machine σ) :
    (m.map g).pmm = g m.pmm := rfl

namespace Vmm

open Foundation RadixTree Pmm

/-- The manager after `k` calls of `pmm_alloc(1)`. -/
def afterAllocs (la57 : Bool) (s : Pmm) (k : ℕ) : Pmm := (fun s => (pmmAlloc la57 s 1).2)^[k] s

/-- The frame that a pointer from `pmm_alloc(1)` stands for. -/
def frameOf (la57 : Bool) (ptr : Word) : Option Frame :=
  if ptr = 0#64 then none else some (Entry.frame (higherHalfDataToPhys la57 ptr))

/-- The answers of `pmm_alloc(1)`, one call after the other. -/
def handedOut (la57 : Bool) (s : Pmm) (k : ℕ) : Option Frame :=
  frameOf la57 (pmmAlloc la57 (afterAllocs la57 s k) 1).1

variable {la57 : Bool} {s : Pmm} {b i j k lo count N : ℕ} {f root : Frame} {mem : Memory}

theorem afterAllocs_succ (la57 : Bool) (s : Pmm) (k : ℕ) :
    afterAllocs la57 s (k + 1) = (pmmAlloc la57 (afterAllocs la57 s k) 1).2 :=
  Function.iterate_succ_apply' _ k s

theorem afterAllocs_add (la57 : Bool) (s : Pmm) (j k : ℕ) :
    afterAllocs la57 s (j + k) = afterAllocs la57 (afterAllocs la57 s j) k := by
  rw [Nat.add_comm]
  exact Function.iterate_add_apply _ k j s

theorem handedOut_afterAllocs (la57 : Bool) (s : Pmm) (j k : ℕ) :
    handedOut la57 (afterAllocs la57 s j) k = handedOut la57 s (j + k) := by
  rw [handedOut, handedOut, afterAllocs_add]

/-- The address of frame number `i`. -/
theorem frameAddr_ofNat (h : i < 2 ^ 40) :
    frameAddr (BitVec.ofNat 40 i) = BitVec.ofNat 64 (i * 4096) := by
  apply BitVec.eq_of_toNat_eq
  rw [toNat_frameAddr, BitVec.toNat_ofNat, BitVec.toNat_ofNat]
  omega

theorem frameOf_block (la57 : Bool) (h : s.FirstFree i) :
    frameOf la57 (physToHigherHalfData la57 (BitVec.ofNat 64 (i * 4096))) =
      some (BitVec.ofNat 40 i) := by
  have hlt := h.lt
  rw [frameOf, if_neg (block_ne_null la57 h), higherHalfDataToPhys_physToHigherHalfData,
    ← frameAddr_ofNat (by omega), frame_frameAddr]

/-- An answer is the frame of the first free bit, or there is none. -/
theorem handedOut_cases (la57 : Bool) (s : Pmm) (k : ℕ) :
    ((afterAllocs la57 s k).Dry ∧ handedOut la57 s k = none ∧
      (pmmAlloc la57 (afterAllocs la57 s k) 1).1 = 0#64 ∧
      afterAllocs la57 s (k + 1) = afterAllocs la57 s k) ∨
    (¬ (afterAllocs la57 s k).Dry ∧ ∃ i, (afterAllocs la57 s k).FirstFree i ∧
      handedOut la57 s k = some (BitVec.ofNat 40 i) ∧
      (pmmAlloc la57 (afterAllocs la57 s k) 1).1 =
        physToHigherHalfData la57 (BitVec.ofNat 64 (i * 4096)) ∧
      afterAllocs la57 s (k + 1) = (afterAllocs la57 s k).take (BitVec.ofNat 64 i) 1) := by
  rw [afterAllocs_succ, handedOut]
  rcases alloc_cases la57 (afterAllocs la57 s k) le_rfl with ⟨hd, he⟩ | ⟨hd, i, hi, he⟩
  · exact .inl ⟨hd, by rw [he]; rfl, by rw [he], by rw [he]⟩
  · exact .inr ⟨hd, i, hi, by rw [he, frameOf_block la57 hi], by rw [he], by rw [he]⟩

theorem answer_handedOut (la57 : Bool) (s : Pmm) (k : ℕ) :
    answer la57 (handedOut la57 s k) = (pmmAlloc la57 (afterAllocs la57 s k) 1).1 := by
  rcases handedOut_cases la57 s k with ⟨_, hnone, he, _⟩ | ⟨_, i, hi, hsome, he, _⟩
  · rw [hnone, he]
    rfl
  · have hlt := hi.lt
    rw [hsome, he, answer, frameAddr_ofNat (by omega)]

theorem handedOut_lt (h : handedOut la57 s k = some f) : f.toNat < 2 ^ 32 := by
  rcases handedOut_cases la57 s k with ⟨_, hnone, _⟩ | ⟨_, i, hi, hsome, _⟩
  · rw [hnone] at h
    cases h
  · have hlt := hi.lt
    rw [hsome] at h
    cases h
    rw [BitVec.toNat_ofNat]
    omega

/-! Up to 8 TiB, no frame is handed out twice. -/

theorem pages_afterAllocs (la57 : Bool) (s : Pmm) (k : ℕ) :
    (afterAllocs la57 s k).pages = s.pages := by
  induction k with
  | zero => rfl
  | succ k ih =>
    rcases handedOut_cases la57 s k with ⟨_, _, _, he⟩ | ⟨_, i, _, _, _, he⟩
    · rw [he, ih]
    · rw [he, pages_take, ih]

/-- A frame that was taken does not read as free again. -/
theorem test_afterAllocs (h : (afterAllocs la57 s j).bitmap.test i = true)
    (hjk : j ≤ k) : (afterAllocs la57 s k).bitmap.test i = true := by
  induction k, hjk using Nat.le_induction with
  | base => exact h
  | succ k _ ih =>
    rcases handedOut_cases la57 s k with ⟨_, _, _, he⟩ | ⟨_, n, _, _, _, he⟩
    · rw [he, ih]
    · rw [he, take, Bitmap.test_setRun, ih, Bool.or_true]

theorem distinct_handedOut (la57 : Bool) (hp : s.pages ≤ 2 ^ 31) (N : ℕ) :
    Distinct (handedOut la57 s) N := by
  intro j k f g hjk _ hf hg
  rcases handedOut_cases la57 s j with ⟨_, hnone, _⟩ | ⟨_, a, ha, hsome, _, he⟩
  · rw [hnone] at hf
    cases hf
  rcases handedOut_cases la57 s k with ⟨_, hnone, _⟩ | ⟨_, b, hb, hsome', _, _⟩
  · rw [hnone] at hg
    cases hg
  have halt := ha.1
  have hblt := hb.1
  rw [pages_afterAllocs] at halt hblt
  have htaken : (afterAllocs la57 s (j + 1)).bitmap.test a = true := by
    rw [he, take, Bitmap.test_setRun, Bool.or_eq_true, decide_eq_true_eq]
    exact .inl ((Bitmap.hits_ofNat_iff (by omega)).mpr ⟨le_rfl, Nat.lt_succ_self a⟩)
  have hclear := (clear_iff (by omega)).mp hb.2.1
  rw [hsome] at hf
  rw [hsome'] at hg
  rintro rfl
  have hab := congrArg BitVec.toNat (Option.some.inj (hf.trans hg.symm))
  rw [BitVec.toNat_ofNat, BitVec.toNat_ofNat] at hab
  obtain rfl : a = b := by omega
  rw [test_afterAllocs htaken hjk] at hclear
  cases hclear

theorem freshSupply_handedOut (la57 : Bool) (hp : s.pages ≤ 2 ^ 31)
    (hz : ∀ k f, handedOut la57 s k = some f → ∀ i, mem.entries f i = 0#64) (N : ℕ) :
    FreshSupply (handedOut la57 s) mem N :=
  ⟨fun _ _ _ hf => (handedOut_lt hf).trans (by decide), distinct_handedOut la57 hp N,
    fun k f _ hf => hz k f hf⟩

/-! First fit. -/

/-- After `k` calls the bits below `b` are set and those from `b` on are as they were. -/
structure Packed (la57 : Bool) (s : Pmm) (k b : ℕ) : Prop where
  calls_le : k ≤ b
  below : ∀ i < b, (afterAllocs la57 s k).bitmap.test i = true
  above : ∀ i, b ≤ i → (afterAllocs la57 s k).bitmap.test i = s.bitmap.test i
  used : (afterAllocs la57 s k).info.usedPages = s.info.usedPages + BitVec.ofNat 32 k

/-- `count` free frames from `lo` on are enough for as many calls. -/
structure FreeRun (s : Pmm) (lo count : ℕ) : Prop where
  pages_le : s.pages ≤ 2 ^ 31
  inside : lo + count ≤ s.pages
  null : s.bitmap.test 0 = true
  free : ∀ i, lo ≤ i → i < lo + count → s.bitmap.test i = false
  used : ∀ k < count, s.info.usedPages + BitVec.ofNat 32 k ≠ 0#32

theorem packed_zero (la57 : Bool) (s : Pmm) : Packed la57 s 0 0 :=
  ⟨le_rfl, fun _ hi => by omega, fun _ _ => rfl, (BitVec.add_zero _).symm⟩

/-- As long as the run of free frames is not used up, the next call finds a frame. -/
theorem Packed.free (h : Packed la57 s k b) (hrun : FreeRun s lo count) (hb : b ≤ lo + k)
    (hk : k < count) :
    (afterAllocs la57 s k).Clear (lo + k) ∧ ¬ (afterAllocs la57 s k).Dry := by
  have hpages := pages_afterAllocs la57 s k
  have hsmall := hrun.pages_le
  have hinside := hrun.inside
  have hfree : (afterAllocs la57 s k).Clear (lo + k) := by
    rw [clear_iff (by omega), h.above _ hb]
    exact hrun.free _ (by omega) (by omega)
  refine ⟨hfree, ?_⟩
  rintro (hu | h0 | hno)
  · rw [h.used] at hu
    exact hrun.used k hk hu
  · rw [clear_iff (by omega)] at h0
    by_cases hz : b = 0
    · rw [h.above 0 (by omega), hrun.null] at h0
      cases h0
    · rw [h.below 0 (by omega)] at h0
      cases h0
  · exact hno _ (by omega) hfree

/-- The next call takes the first free frame, and the bits below it were all set. -/
theorem packed_succ (hrun : FreeRun s lo count) (h : Packed la57 s k b) (hb : b ≤ lo + k)
    (hk : k < count) :
    ∃ i, k ≤ i ∧ i ≤ lo + k ∧ (afterAllocs la57 s k).FirstFree i ∧
      handedOut la57 s k = some (BitVec.ofNat 40 i) ∧
      (pmmAlloc la57 (afterAllocs la57 s k) 1).1 =
        physToHigherHalfData la57 (BitVec.ofNat 64 (i * 4096)) ∧
      Packed la57 s (k + 1) (i + 1) := by
  obtain ⟨hfree, hdry⟩ := h.free hrun hb hk
  obtain ⟨hge, hbelow, habove, hused⟩ := h
  have hpages := pages_afterAllocs la57 s k
  have hsmall := hrun.pages_le
  have hinside := hrun.inside
  rcases handedOut_cases la57 s k with ⟨hd, _⟩ | ⟨_, i, hi, hsome, hptr, hnext⟩
  · exact (hdry hd).elim
  have hik : i ≤ lo + k := by
    by_contra hlt
    exact hi.2.2 _ (by omega) hfree
  have hbi : b ≤ i := by
    by_contra hlt
    have hclear := (clear_iff (by omega)).mp hi.2.1
    rw [hbelow i (by omega)] at hclear
    cases hclear
  have htest : ∀ j, (afterAllocs la57 s (k + 1)).bitmap.test j =
      (decide (i ≤ j ∧ j < i + 1) || (afterAllocs la57 s k).bitmap.test j) := by
    intro j
    simp only [hnext, take, Bitmap.test_setRun, Bitmap.hits_ofNat_iff (show i + 1 ≤ 2 ^ 31 by omega)]
  refine ⟨i, by omega, hik, hi, hsome, hptr, by omega, ?_, ?_, ?_⟩
  · intro j hj
    rw [htest, Bool.or_eq_true]
    by_cases hji : j = i
    · exact .inl (decide_eq_true (by omega))
    · have hset := hi.2.2 j (by omega)
      rw [clear_iff (by omega), Bool.not_eq_false] at hset
      exact .inr hset
  · intro j hj
    rw [htest, decide_eq_false (by omega), Bool.false_or]
    exact habove j (by omega)
  · rw [hnext, take, hused, BitVec.add_assoc, BitVec.ofNat_add]

theorem exists_packed (hrun : FreeRun s lo count) (hk : k ≤ count) :
    ∃ b ≤ lo + k, Packed la57 s k b := by
  induction k with
  | zero => exact ⟨0, by omega, packed_zero la57 s⟩
  | succ k ih =>
    obtain ⟨b, hb, hpacked⟩ := ih (by omega)
    obtain ⟨i, _, hi, _, _, _, hnext⟩ := packed_succ hrun hpacked hb (by omega)
    exact ⟨i + 1, by omega, hnext⟩

/-! A call with one allocator is the same call with another one that answers alike, as far as it
is asked. -/

section

variable {τ : Type*} {A : ℕ → ℕ → Word × ℕ} {B : τ → ℕ → Word × τ} {g : ℕ → τ}
  (hA : ∀ k n, (A k n).2 = k + 1) (h : ∀ k < N, B (g k) 1 = ((A k 1).1, g (k + 1)))
include hA h

theorem descend_map (m : Machine ℕ) (ptr : Word) (flags : BitVec 32) (is : List Index)
    (hN : (descend la57 A m ptr flags is).2.pmm ≤ N) :
    descend la57 B (m.map g) ptr flags is =
      ((descend la57 A m ptr flags is).1, (descend la57 A m ptr flags is).2.map g) := by
  induction is generalizing m ptr with
  | nil => rfl
  | cons i is ih =>
    cases hp : Entry.present (m.load la57 (ptr + 8#64 * i.setWidth 64)) with
    | true =>
      have hB := getPageMapLevel_of_present (s := m.map g) B flags hp
      simp only [descend, hB, getPageMapLevel_of_present A flags hp] at hN ⊢
      exact ih m _ hN
    | false =>
      have hB := getPageMapLevel_of_absent (s := m.map g) B flags hp
      simp only [descend, hB, getPageMapLevel_of_absent A flags hp] at hN ⊢
      have hle := (pmm_descend_counting la57 hA _ _ flags is).1.trans hN
      simp only [Machine.store, hA] at hle
      have hanswer := h m.pmm hle
      simp only [Machine.map, hanswer]
      have hnext := ih _ _ hN
      simp only [Machine.map, Machine.store, hA] at hnext ⊢
      exact hnext

theorem applyWith_map (dir : Word) (m : Machine ℕ) (a : Call)
    (hN : (a.applyWith la57 A dir m).pmm ≤ N) :
    a.applyWith la57 B dir (m.map g) = (a.applyWith la57 A dir m).map g := by
  cases a with
  | map pa va flags =>
    simp only [Call.applyWith, vmmMapPage_eq] at hN ⊢
    rw [descend_map hA h m dir flags _ hN]
    rfl
  | unmap va =>
    simp only [Call.applyWith, vmmUnmapPage_eq] at hN ⊢
    rw [descend_map hA h m dir 0#32 _ hN]
    rfl

end

theorem pmmAlloc_afterAllocs (la57 : Bool) (s : Pmm) (k : ℕ) :
    pmmAlloc la57 (afterAllocs la57 s k) 1 =
      ((orNull la57 (handedOut la57 s) k 1).1, afterAllocs la57 s (k + 1)) := by
  rw [orNull, answer_handedOut, afterAllocs_succ]

/-- A call on the physical manager is the call with the supply. -/
theorem applyWith_afterAllocs (la57 : Bool) (s : Pmm) (dir : Word) (m : Machine ℕ) (a : Call) :
    a.applyWith la57 (pmmAlloc la57) dir (m.map (afterAllocs la57 s)) =
      (a.applyWith la57 (orNull la57 (handedOut la57 s)) dir m).map (afterAllocs la57 s) :=
  applyWith_map (fun _ _ => rfl) (fun k _ => pmmAlloc_afterAllocs la57 s k) dir m a le_rfl

/-- A step on the physical manager with any arguments. -/
def PmmStep (la57 : Bool) (dir : Word) (m : Machine Pmm) (a : Call) (m' : Machine Pmm) : Prop :=
  m' = a.applyWith la57 (pmmAlloc la57) dir m

def PmmSuppliedStep (la57 : Bool) (root : Frame) (dir : Word) (m : Machine Pmm) (a : Call)
    (m' : Machine Pmm) : Prop :=
  PmmStep la57 dir m a m' ∧ Supplied la57 (handedOut la57 m.pmm) root m.mem a

/-- A new directory in a frame of the physical manager. -/
def createdOnPmm (la57 : Bool) (s : Pmm) (mem : Memory) : Word × Machine Pmm :=
  vmmCreatePageDirectory la57 (pmmAlloc la57) ⟨mem, s⟩

theorem createdOnPmm_eq (la57 : Bool) (s : Pmm) (mem : Memory) :
    createdOnPmm la57 s mem =
      ((createdOrNull la57 (handedOut la57 s) mem).1,
        (createdOrNull la57 (handedOut la57 s) mem).2.map (afterAllocs la57 s)) := by
  have h := pmmAlloc_afterAllocs la57 s 0
  simp only [createdOnPmm, createdOrNull, vmmCreatePageDirectory, Machine.map]
  rw [show s = afterAllocs la57 s 0 from rfl, h]
  rfl

/-- The simulation: a run on the physical manager is a run with the supply. -/
theorem run_of_pmmRun {dir : Word} {calls : List Call} {m : Machine ℕ} {m' : Machine Pmm}
    (h : Run (PmmSuppliedStep la57 root dir) (m.map (afterAllocs la57 s)) calls m') :
    ∃ n, m' = Machine.map (afterAllocs la57 s) n ∧
      Run (SuppliedStep la57 (handedOut la57 s) root dir) m calls n := by
  generalize hm : m.map (afterAllocs la57 s) = t at h
  induction h generalizing m with
  | refl => exact ⟨m, hm.symm, .refl m⟩
  | @stepL t u v a calls hst _ ih =>
    obtain ⟨hstep, hguard⟩ := hst
    subst hm
    have hnext : handedOut la57 (m.map (afterAllocs la57 s)).pmm =
        fun k => handedOut la57 s (m.pmm + k) := by
      funext k
      exact handedOut_afterAllocs la57 s m.pmm k
    rw [hnext] at hguard
    have hmap := hstep.trans (applyWith_afterAllocs la57 s dir m a)
    obtain ⟨n, hn, hrun⟩ := ih hmap.symm
    exact ⟨n, hn, .stepL ⟨rfl, hguard⟩ hrun⟩

end Vmm

end KnutOS
