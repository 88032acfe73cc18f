import KnutOS.Memory.SlabSafety

/-! `slab_free` of pointers that nobody holds: which of them it ignores. -/
namespace KnutOS.Slab

open Foundation

variable {supply : ℕ → Word} {slabs : Slabs} {i j : ℕ} {size ptr : Word}
  {c c' : Config} {a : Call} {calls : List Call}

/-- The calls of `Step`, and frees of any pointer that is not a live object. -/
inductive WildStep : Config → Call → Config → Prop
  | held {c c' : Config} {a : Call} (h : Step c a c') : WildStep c a c'
  | wild {c : Config} {o : Object} (ho : ∀ o' ∈ c.live, o'.ptr ≠ o.ptr) :
      WildStep c (.free o) ⟨slabFree c.slabs o.ptr, c.live⟩

theorem layout_step (hp : Pages supply) (h : Layout supply c.slabs) (hs : WildStep c a c') :
    Layout supply c'.slabs := by
  cases hs with
  | held hs =>
    cases hs with
    | alloc => exact h.slabAlloc _
    | allocNull => exact h.slabAlloc _
    | free => exact h.slabFree hp _
  | wild => exact h.slabFree hp _

theorem layout_run (hp : Pages supply) (h : Run WildStep (initial supply) calls c) :
    Layout supply c.slabs :=
  h.invariant (P := fun d => Layout supply d.slabs) (layout_initial hp)
    fun _ _ _ hd hs => layout_step hp hd hs

/-- `slab_free(ptr)` changes no entry and no flag. -/
def Ignored (slabs : Slabs) (ptr : Word) : Prop :=
  ∀ i < 11, (slabFree slabs ptr i).objects = (slabs i).objects ∧
    (slabFree slabs ptr i).isFull = (slabs i).isFull

/-- Whoever holds it, a pointer is ignored unless it is an object that ends within the first
1024 bytes of a slab in which some object is allocated. -/
theorem free_ignored_iff (supply : ℕ → Word) (hp : Pages supply) (calls : List Call) (c : Config)
    (h : Run WildStep (initial supply) calls c) (ptr : Word) :
    Ignored c.slabs ptr ↔
      ∀ i < 11, Recognized supply i ptr → ∀ j < objectCount i, (c.slabs i).objects j ≠ 0#64 := by
  have hlay := layout_run hp h
  constructor
  · intro hig i hi hr
    rcases slabFree_of_recognized hp hlay hi hr with ⟨hall, _⟩ | ⟨j, _, hnull, hs⟩
    · exact hall
    · have hentry := congrFun (hig i hi).1 j
      rw [hs, setObject_same, if_pos rfl, hnull] at hentry
      exact (isObject_nonnull hp hi hr.isObject hentry).elim
  · intro hall
    have hs : slabFree c.slabs ptr = c.slabs := by
      by_cases hr : ∃ i < 11, Recognized supply i ptr
      · obtain ⟨i, hi, hr⟩ := hr
        rcases slabFree_of_recognized hp hlay hi hr with ⟨_, hs⟩ | ⟨j, hj, hnull, _⟩
        · exact hs
        · exact (hall i hi hr j hj hnull).elim
      · exact slabFree_of_unrecognized hp hlay fun i hi hri => hr ⟨i, hi, hri⟩
    intro i _
    rw [hs]
    exact ⟨rfl, rfl⟩

/-- One 512-byte object on a fresh slab. -/
theorem run_alloc_512 : Run WildStep (initial lowPages) [.alloc 512#64]
    ⟨(slabAlloc (initial lowPages).slabs 512#64).2, [⟨0x5000#64, 512#64⟩]⟩ :=
  .stepL (.held (step_alloc_first lowPages_pages (i := 8) (by decide) rfl (by decide))) (.refl _)

/-- A free of the middle of the object is ignored. -/
theorem free_ignored_lowPages :
    ∃ c, Run WildStep (initial lowPages) [.alloc 512#64] c ∧ Ignored c.slabs 0x5100#64 := by
  have hmiddle : ∀ i < 11, ¬ Recognized lowPages i 0x5100#64 := by
    rintro i hi ⟨j, hj, hptr, hend⟩
    have haddr := congrArg BitVec.toNat hptr
    rw [toNat_objectAddr lowPages_pages hi hj] at haddr
    simp only [lowPages, BitVec.toNat_ofNat, objectSize] at haddr hend
    interval_cases i <;> omega
  refine ⟨_, run_alloc_512, ?_⟩
  exact (free_ignored_iff lowPages lowPages_pages _ _ run_alloc_512 0x5100#64).mpr
    fun i hi hr => absurd hr (hmiddle i hi)

/-- With one 512-byte object allocated, freeing the free object behind it is not ignored: the
object is listed twice afterwards. -/
theorem free_ignored_fails :
    Run WildStep (initial lowPages) [.alloc 512#64]
      ⟨(slabAlloc (initial lowPages).slabs 512#64).2, [⟨0x5000#64, 512#64⟩]⟩ ∧
    ¬ Ignored (slabAlloc (initial lowPages).slabs 512#64).2 0x5200#64 := by
  have hi : 8 < 11 := by decide
  refine ⟨run_alloc_512, fun hig => ?_⟩
  have hlay := (layout_initial lowPages_pages).slabAlloc 512#64
  have hr : Recognized lowPages 8 0x5200#64 := ⟨1, by decide, by decide, by decide⟩
  have hnull : ((slabAlloc (initial lowPages).slabs 512#64).2 8).objects 0 = 0#64 := by
    rw [show 512#64 = BitVec.ofNat 64 (objectSize 8) from rfl, slabAlloc_initial lowPages_pages hi,
      setObject_same, if_pos rfl]
  rcases slabFree_of_recognized lowPages_pages hlay hi hr with ⟨hall, _⟩ | ⟨j, _, hnullj, hs⟩
  · exact hall 0 (by decide) hnull
  · have hentry := congrFun (hig 8 hi).1 j
    rw [hs, setObject_same, if_pos rfl, hnullj] at hentry
    revert hentry
    decide

end KnutOS.Slab
