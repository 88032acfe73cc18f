import KnutOS.Memory.SlabSafety

/-! The flag `is_full`: `slab_alloc` sets it, and nothing clears it again. -/
namespace KnutOS.Slab

open Foundation

variable {supply : ℕ → Word} {slabs : Slabs} {i j k : ℕ} {p : Word} {c c' : Config} {a : Call}
  {calls : List Call}

/-- Slab `i` lists an object. -/
def Lists (slabs : Slabs) (i : ℕ) : Prop := ∃ j < objectCount i, (slabs i).objects j ≠ 0#64

/-- Every slab that lists an object hands one out, and is not marked full. -/
def Available (slabs : Slabs) : Prop :=
  ∀ i < 11, ((slabAlloc slabs (BitVec.ofNat 64 (objectSize i))).1 ≠ 0#64 ↔ Lists slabs i) ∧
    ((slabs i).isFull = true → ¬ Lists slabs i)

/-- A step that frees no object into a slab that is marked full. -/
def Unmarked (supply : ℕ → Word) (c : Config) (a : Call) (c' : Config) : Prop :=
  Step c a c' ∧ ∀ o, a = .free o → ∀ i < 11, Recognized supply i o.ptr → (c.slabs i).isFull = false

/-- The flags are right: what is marked full lists nothing. -/
def FlagsRight (slabs : Slabs) : Prop := ∀ i < 11, (slabs i).isFull = true → ¬ Lists slabs i

theorem available_iff (h : Layout supply slabs) : Available slabs ↔ FlagsRight slabs := by
  refine ⟨fun ha i hi => (ha i hi).2, fun hf i hi => ⟨?_, hf i hi⟩⟩
  rcases slabAlloc_cases h hi with ⟨hfull, he⟩ | ⟨_, hall, he⟩ | ⟨_, j, hj, hne, he⟩
  · rw [he]
    exact ⟨fun hne => (hne rfl).elim, fun hl => (hf i hi hfull hl).elim⟩
  · rw [he]
    exact ⟨fun hne => (hne rfl).elim, fun ⟨j, hj, hne⟩ => (hne (hall j hj)).elim⟩
  · rw [he]
    exact ⟨fun _ => ⟨j, hj, hne⟩, fun _ => hne⟩

theorem isFull_setObject (slabs : Slabs) (i j : ℕ) (p : Word) (k : ℕ) :
    (setObject slabs i j p k).isFull = (slabs k).isFull :=
  (setObject_frame j p slabs i k).2.2.2

theorem lists_other (h : k ≠ i) : Lists (setObject slabs i j p) k ↔ Lists slabs k := by
  simp only [Lists, setObject_other j p slabs h]

/-- Clearing an entry lists nothing new. -/
theorem lists_of_take (h : Lists (setObject slabs i j 0#64) k) : Lists slabs k := by
  by_cases hki : k = i
  · subst hki
    obtain ⟨l, hl, hne⟩ := h
    rw [setObject_same] at hne
    by_cases hlj : l = j
    · simp [hlj] at hne
    · exact ⟨l, hl, by rwa [if_neg hlj] at hne⟩
  · exact (lists_other hki).mp h

theorem lists_setFull (slabs : Slabs) (i k : ℕ) : Lists (setFull slabs i) k ↔ Lists slabs k := by
  simp only [Lists, (setFull_frame slabs i k).2.2.2]

/-- A call that frees nothing into a marked slab keeps the flags right. -/
theorem flagsRight_step (hp : Pages supply) (h : Sorted supply c) (hs : Unmarked supply c a c')
    (hf : FlagsRight c.slabs) : FlagsRight c'.slabs := by
  obtain ⟨hs, hfree⟩ := hs
  intro k hk hfull hl
  rcases step_cases hp h hs with ⟨_, rfl, rfl | ⟨i, hi, hall, rfl⟩⟩ |
    ⟨i, hi, rfl, _, j, hj, hne, rfl⟩ | ⟨o, ho, rfl, rfl, _⟩ | ⟨o, ho, rfl, i, hi, hr, j, hj, hnull, rfl⟩
  · exact hf k hk hfull hl
  · rw [lists_setFull] at hl
    by_cases hki : k = i
    · subst hki
      obtain ⟨j, hj, hne⟩ := hl
      exact hne (hall j hj)
    · have hsame := congrArg Slab.isFull (setFull_other c.slabs hki)
      exact hf k hk (hsame.symm.trans hfull) hl
  · rw [isFull_setObject] at hfull
    exact hf k hk hfull (lists_of_take hl)
  · exact hf k hk hfull hl
  · rw [isFull_setObject] at hfull
    by_cases hki : k = i
    · subst hki
      have hclear := hfree o rfl k hk hr
      rw [hfull] at hclear
      cases hclear
    · exact hf k hk hfull ((lists_other hki).mp hl)

/-- A wrong flag stays wrong, and a free into a marked slab makes it wrong. -/
theorem flagsRight_of_step (hp : Pages supply) (h : Sorted supply c) (hs : Step c a c')
    (hf : FlagsRight c'.slabs) : FlagsRight c.slabs ∧ Unmarked supply c a c' := by
  rcases step_cases hp h hs with ⟨_, rfl, rfl | ⟨i, hi, hall, rfl⟩⟩ |
    ⟨i, hi, rfl, hclear, j, hj, hne, rfl⟩ | ⟨o, ho, rfl, rfl, hlost⟩ |
    ⟨o, ho, rfl, i, hi, hr, j, hj, hnull, rfl⟩
  · exact ⟨hf, hs, fun o he => by cases he⟩
  · refine ⟨fun k hk hfull hl => ?_, hs, fun o he => by cases he⟩
    refine hf k hk ?_ ((lists_setFull c.slabs i k).mpr hl)
    by_cases hki : k = i
    · subst hki
      simp [setFull]
    · exact (congrArg Slab.isFull (setFull_other c.slabs hki)).trans hfull
  · refine ⟨fun k hk hfull hl => ?_, hs, fun o he => by cases he⟩
    have hki : k ≠ i := by
      rintro rfl
      rw [hclear] at hfull
      cases hfull
    refine hf k hk ?_ ((lists_other hki).mpr hl)
    rwa [isFull_setObject]
  · refine ⟨hf, hs, fun o' he k hk hr => ?_⟩
    cases he
    cases hfull : (c.slabs k).isFull with
    | true => exact (hf k hk hfull ⟨0, Nat.two_pow_pos _, hlost k hk hr 0 (Nat.two_pow_pos _)⟩).elim
    | false => rfl
  · have hlists : Lists (setObject c.slabs i j o.ptr) i := by
      refine ⟨j, hj, ?_⟩
      rw [setObject_same, if_pos rfl]
      exact isObject_nonnull hp hi hr.isObject
    have hclear : (c.slabs i).isFull = false := by
      cases hfull : (c.slabs i).isFull with
      | true => exact (hf i hi ((isFull_setObject _ _ _ _ _).trans hfull) hlists).elim
      | false => rfl
    refine ⟨fun k hk hfull hl => ?_, hs, fun o' he k hk hrk => ?_⟩
    · have hki : k ≠ i := by
        rintro rfl
        rw [hclear] at hfull
        cases hfull
      exact hf k hk ((isFull_setObject _ _ _ _ _).trans hfull) ((lists_other hki).mpr hl)
    · cases he
      rwa [recognized_unique hp hk hi hrk hr]

theorem flagsRight_initial (hp : Pages supply) : FlagsRight (initial supply).slabs := by
  intro i hi hfull
  have hlaid : Laid supply i ((initial supply).slabs i) := slabInit_laid hp hi
  rw [hlaid.isFull] at hfull
  cases hfull

theorem flagsRight_run (hp : Pages supply) (h : Run Step c calls c') (hs : Sorted supply c)
    (hx : c.pool.Exclusive) (hf : FlagsRight c'.slabs) :
    FlagsRight c.slabs ∧ Run (Unmarked supply) c calls c' := by
  induction h with
  | refl => exact ⟨hf, .refl _⟩
  | @stepL s u t a xs hst htail ih =>
    obtain ⟨x, hpool⟩ := pool_step hp hs hst
    obtain ⟨hu, hrun⟩ := ih (sorted_step hp hs hx hst) (Pool.exclusive_step hpool hx) hf
    obtain ⟨hfs, hunmarked⟩ := flagsRight_of_step hp hs hst hu
    exact ⟨hfs, .stepL hunmarked hrun⟩

/-- Objects that are listed can be had exactly as long as no object was freed into a slab
marked full. -/
theorem slab_available_iff (supply : ℕ → Word) (hp : Pages supply) (calls : List Call) (c : Config)
    (h : Run Step (initial supply) calls c) :
    Available c.slabs ↔ Run (Unmarked supply) (initial supply) calls c := by
  obtain ⟨hs₀, hx₀⟩ := sorted_run hp (.refl (initial supply))
  rw [available_iff (sorted_run hp h).1.layout]
  constructor
  · exact fun hf => (flagsRight_run hp h hs₀ hx₀ hf).2
  · intro hrun
    have hinv := hrun.invariant
      (P := fun d => Sorted supply d ∧ d.pool.Exclusive ∧ FlagsRight d.slabs)
      ⟨hs₀, hx₀, flagsRight_initial hp⟩ ?_
    · exact hinv.2.2
    · rintro d a d' ⟨hs, hx, hf⟩ hst
      obtain ⟨x, hpool⟩ := pool_step hp hs hst.1
      exact ⟨sorted_step hp hs hx hst.1, Pool.exclusive_step hpool hx, flagsRight_step hp hs hst hf⟩

theorem isFull_initial (hp : Pages supply) (hi : i < 11) :
    ((initial supply).slabs i).isFull = false := by
  have hlaid : Laid supply i ((initial supply).slabs i) := slabInit_laid hp hi
  exact hlaid.isFull

theorem isFull_alloc_first (hp : Pages supply) (hi : i < 11) (hk : k < 11) :
    ((slabAlloc (initial supply).slabs (BitVec.ofNat 64 (objectSize i))).2 k).isFull = false := by
  rw [slabAlloc_initial hp hi]
  exact (isFull_setObject _ _ _ _ _).trans (isFull_initial hp hk)

theorem unmarked_free_only (supply : ℕ → Word) (o : Object) (h : ∀ k < 11, (slabs k).isFull = false) :
    Unmarked supply ⟨slabs, [o]⟩ (.free o) ⟨slabFree slabs o.ptr, []⟩ :=
  ⟨step_free_only slabs o, fun _ _ k hk _ => h k hk⟩

/-- An object allocated first and freed goes into a slab that is not marked. -/
theorem slab_available_lowPages :
    Available (slabFree (slabAlloc (initial lowPages).slabs 8#64).2 0x2000#64) := by
  have hi : 2 < 11 := by decide
  have halloc : Step (initial lowPages) (.alloc 8#64) ⟨_, [⟨0x2000#64, 8#64⟩]⟩ :=
    step_alloc_first lowPages_pages hi rfl (by decide)
  have hmark : ∀ k < 11, ((slabAlloc (initial lowPages).slabs 8#64).2 k).isFull = false := by
    intro k hk
    rw [show 8#64 = BitVec.ofNat 64 (objectSize 2) from rfl]
    exact isFull_alloc_first lowPages_pages hi hk
  have hfree := unmarked_free_only lowPages ⟨0x2000#64, 8#64⟩ hmark
  exact (slab_available_iff lowPages lowPages_pages _ _
    (.stepL halloc (.stepL hfree.1 (.refl _)))).mpr
    (.stepL ⟨halloc, fun o he => by cases he⟩ (.stepL hfree (.refl _)))

/-- A slab that lists one object hands it out. -/
theorem step_alloc_sole (h : Layout supply slabs) (hi : i < 11) (hclear : (slabs i).isFull = false)
    (hj : j < objectCount i) (hne : (slabs i).objects j ≠ 0#64)
    (hsole : ∀ k < objectCount i, (slabs i).objects k ≠ 0#64 → k = j) (live : List Object) :
    Step ⟨slabs, live⟩ (.alloc (BitVec.ofNat 64 (objectSize i)))
      ⟨setObject slabs i j 0#64, ⟨(slabs i).objects j, BitVec.ofNat 64 (objectSize i)⟩ :: live⟩ := by
  rcases slabAlloc_cases h hi with ⟨hfull, _⟩ | ⟨_, hall, _⟩ | ⟨_, k, hk, hkne, he⟩
  · rw [hclear] at hfull
    cases hfull
  · exact (hne (hall j hj)).elim
  · obtain rfl := hsole k hk hkne
    have hstep : Step ⟨slabs, live⟩ (.alloc (BitVec.ofNat 64 (objectSize i))) _ :=
      .alloc (by rwa [he])
    rwa [he] at hstep

/-- A slab that lists none refuses the call, and is marked full. -/
theorem step_alloc_empty (h : Layout supply slabs) (hi : i < 11)
    (hclear : (slabs i).isFull = false) (hall : ∀ j < objectCount i, (slabs i).objects j = 0#64)
    (live : List Object) :
    Step ⟨slabs, live⟩ (.alloc (BitVec.ofNat 64 (objectSize i))) ⟨setFull slabs i, live⟩ := by
  rcases slabAlloc_cases h hi with ⟨hfull, _⟩ | ⟨_, _, he⟩ | ⟨_, j, hj, hne, _⟩
  · rw [hclear] at hfull
    cases hfull
  · have hstep : Step ⟨slabs, live⟩ (.alloc (BitVec.ofNat 64 (objectSize i))) _ :=
      .allocNull (congrArg Prod.fst he)
    rwa [he] at hstep
  · exact (hne (hall j hj)).elim

/-- A slab of two objects is used up, refuses a call, and gets its first object back. -/
theorem run_exhaust (hp : Pages supply) (hi : i < 11) (hcount : objectCount i = 2)
    (hr : Recognized supply i (objectAddr supply i 0)) :
    let size := BitVec.ofNat 64 (objectSize i)
    ∃ c, Run Step (initial supply)
        [.alloc size, .alloc size, .alloc size, .free ⟨objectAddr supply i 0, size⟩] c ∧
      (c.slabs i).isFull = true ∧ Lists c.slabs i := by
  intro size
  have h₁ := step_alloc_first hp hi rfl rfl
  rw [slabAlloc_initial hp hi] at h₁
  have hlay₁ := (layout_initial hp).setObject (i := i) (j := 0) (p := 0#64)
  have hclear₁ : (setObject (initial supply).slabs i 0 0#64 i).isFull = false :=
    (isFull_setObject _ _ _ _ _).trans (isFull_initial hp hi)
  have hone : (setObject (initial supply).slabs i 0 0#64 i).objects 1 ≠ 0#64 := by
    rw [setObject_same, if_neg (by decide)]
    exact initial_nonnull hp hi (by omega)
  have hzero : (setObject (initial supply).slabs i 0 0#64 i).objects 0 = 0#64 := by
    rw [setObject_same, if_pos rfl]
  generalize setObject (initial supply).slabs i 0 0#64 = s₁ at h₁ hlay₁ hclear₁ hone hzero
  have hsole : ∀ k < objectCount i, (s₁ i).objects k ≠ 0#64 → k = 1 := by
    intro k hk hne
    by_contra hk1
    obtain rfl : k = 0 := by omega
    exact hne hzero
  have h₂ := step_alloc_sole hlay₁ hi hclear₁ (by omega) hone hsole [⟨objectAddr supply i 0, size⟩]
  have hlay₂ := hlay₁.setObject (i := i) (j := 1) (p := 0#64)
  have hnull₂ : ∀ j < objectCount i, (setObject s₁ i 1 0#64 i).objects j = 0#64 := by
    intro j hj
    rw [setObject_same]
    split
    · rfl
    · obtain rfl : j = 0 := by omega
      exact hzero
  have h₃ := step_alloc_empty hlay₂ hi ((isFull_setObject _ _ _ _ _).trans hclear₁) hnull₂
    [⟨(s₁ i).objects 1, size⟩, ⟨objectAddr supply i 0, size⟩]
  generalize setObject s₁ i 1 0#64 = s₂ at h₂ hlay₂ hnull₂ h₃
  have h₄ := @Step.free ⟨setFull s₂ i, [⟨(s₁ i).objects 1, size⟩, ⟨objectAddr supply i 0, size⟩]⟩
    ⟨objectAddr supply i 0, size⟩ (by simp)
  refine ⟨_, .stepL h₁ (.stepL h₂ (.stepL h₃ (.stepL h₄ (.refl _)))), ?_⟩
  rcases slabFree_of_recognized hp (hlay₂.setFull (i := i)) hi hr with ⟨hall, _⟩ | ⟨j, hj, _, he₄⟩
  · have hnull := hnull₂ 0 (by omega)
    rw [← (setFull_frame s₂ i i).2.2.2] at hnull
    exact (hall 0 (by omega) hnull).elim
  · dsimp only
    rw [he₄]
    refine ⟨?_, j, hj, ?_⟩
    · rw [isFull_setObject]
      simp [setFull]
    · rw [setObject_same, if_pos rfl]
      exact isObject_nonnull hp hi hr.isObject

/-- The two objects of 1024 bytes: the flag set by the third call outlives the free. -/
theorem slab_available_fails : ∃ c, Run Step (initial lowPages)
    [.alloc 1024#64, .alloc 1024#64, .alloc 1024#64, .free ⟨0x5800#64, 1024#64⟩] c ∧
    ¬ Available c.slabs := by
  have hi : 9 < 11 := by decide
  have hptr : 0x5800#64 = objectAddr lowPages 9 0 := by decide
  have hr : Recognized lowPages 9 (objectAddr lowPages 9 0) := ⟨0, by decide, rfl, by decide⟩
  obtain ⟨c, hrun, hfull, hlists⟩ := run_exhaust lowPages_pages hi rfl hr
  rw [hptr]
  exact ⟨c, hrun, fun ha => (ha 9 hi).2 hfull hlists⟩

end KnutOS.Slab
