import KnutOS.Memory.PmmRuns

/-! Who owns which page frame. `pmm_find_first_free_page` looks for one free frame, whatever
the page count; the results say under which condition that is enough. -/
namespace KnutOS.Pmm

open Foundation

variable {la57 : Bool} {c c' : Config} {a : Call} {calls : List Call} {s s₀ : Pmm} {i n f : ℕ}
  {b : Block} {memoryMap : List MmapEntry} {bytes : ℤ → BitVec 8}

/-- Frame `f` has a bit in the map, and the bit is clear. -/
def FrameFree (s : Pmm) (f : ℕ) : Prop := f < 8 * s.bitmap.size.toNat ∧ s.bitmap.test f = false

/-- The clear bits from the first free frame on are enough for `n` pages, and so is the
`int` that numbers them. -/
def FirstRunFits (s : Pmm) (n : ℕ) : Prop :=
  ¬ s.Dry → ∀ i, s.FirstFree i → i + n ≤ 2 ^ 31 ∧ ∀ k < n, s.FrameFree (i + k)

/-- A block that `pmm_alloc(n)` hands out consists of `n` consecutive free frames. -/
def AllocTakesFree (la57 : Bool) (s : Pmm) (n : ℕ) : Prop :=
  (pmmAlloc la57 s n).1 ≠ 0#64 →
    ∃ i, (pmmAlloc la57 s n).1 = physToHigherHalfData la57 (BitVec.ofNat 64 (i * 4096)) ∧
      ∀ k < n, s.FrameFree (i + k)

/-- The allocator as a pool of page frames. -/
def Config.pool (la57 : Bool) (c : Config) : Pool ℕ :=
  ⟨{f | c.pmm.FrameFree f}, c.live.map (Block.frames la57)⟩

/-- Live blocks lie within the bitmap, and their bit numbers fit an `int`. -/
def InRange (la57 : Bool) (c : Config) : Prop :=
  ∀ b ∈ c.live, (b.index la57).toNat + b.count ≤ 2 ^ 31 ∧
    (b.index la57).toNat + b.count ≤ 8 * c.pmm.bitmap.size.toNat

theorem hits_index (h : (b.index la57).toNat + b.count ≤ 2 ^ 31) :
    Bitmap.Hits (b.index la57) b.count f ↔ f ∈ b.frames la57 :=
  Bitmap.hits_iff (by omega) h

theorem frames_ofFrame (la57 : Bool) (n : ℕ) (h : i < 2 ^ 52) :
    (Block.ofFrame la57 i n).frames la57 = {f | i ≤ f ∧ f < i + n} := by
  have hindex : ((Block.ofFrame la57 i n).index la57).toNat = i := by
    rw [Block.index_ofFrame la57 h, BitVec.toNat_ofNat, Nat.mod_eq_of_lt (by omega)]
  rw [Block.frames, hindex]
  rfl

theorem inRange_step (h : Guarded la57 FirstRunFits c a c') (hr : InRange la57 c) :
    InRange la57 c' := by
  obtain ⟨hs, hg⟩ := h
  rcases step_cases hs with ⟨_, _, _, rfl⟩ | ⟨n, i, ha, hn, hd, hi, rfl⟩ | ⟨b, _, _, rfl⟩
  · exact hr
  · intro b hb
    rcases List.mem_cons.mp hb with rfl | hb
    · obtain ⟨hlt, hfree⟩ := hg n ha hd i hi
      have hlast := (hfree (n - 1) (by omega)).1
      rw [Block.index_ofFrame la57 (by omega), BitVec.toNat_ofNat,
        Nat.mod_eq_of_lt (show i < 2 ^ 64 by omega)]
      simp only [Block.ofFrame, take, Bitmap.size_setRun]
      omega
    · simpa only [take, Bitmap.size_setRun] using hr b hb
  · intro b' hb'
    simpa only [give, Bitmap.size_unsetRun] using hr b' (List.mem_of_mem_erase hb')

/-- Taking the first run is an acquisition, and freeing a live block is its release. -/
theorem pool_step (h : Guarded la57 FirstRunFits c a c') (hr : InRange la57 c) :
    ∃ x, Pool.Step (c.pool la57) x (c'.pool la57) ∧ ∀ b, x ≠ .discard b := by
  obtain ⟨hs, hg⟩ := h
  rcases step_cases hs with ⟨_, _, _, rfl⟩ | ⟨n, i, ha, hn, hd, hi, rfl⟩ | ⟨b, _, hb, rfl⟩
  · exact ⟨.skip, .skip, by simp⟩
  · obtain ⟨hlt, hfree⟩ := hg n ha hd i hi
    have hfr := frames_ofFrame la57 n (show i < 2 ^ 52 by omega)
    have hsub : (Block.ofFrame la57 i n).frames la57 ⊆ (c.pool la57).free := by
      rw [hfr]
      intro f hf
      have := hfree (f - i) (by have := hf.2; omega)
      rwa [Nat.add_sub_cancel' hf.1] at this
    refine ⟨.acquire ((Block.ofFrame la57 i n).frames la57), ?_, by simp⟩
    have hpool : Config.pool la57 ⟨c.pmm.take (BitVec.ofNat 64 i) n, Block.ofFrame la57 i n :: c.live⟩ =
        ⟨(c.pool la57).free \ (Block.ofFrame la57 i n).frames la57,
          (Block.ofFrame la57 i n).frames la57 :: (c.pool la57).live⟩ := by
      simp only [Config.pool, List.map_cons, Pool.mk.injEq, and_true]
      ext f
      simp only [Set.mem_ofPred_eq, Set.mem_sdiff, FrameFree, take, Bitmap.size_setRun,
        Bitmap.test_setRun, Bitmap.hits_ofNat_iff hlt, hfr, Bool.or_eq_false_iff,
        decide_eq_false_iff_not]
      tauto
    rw [hpool]
    exact .acquire hsub
  · obtain ⟨l₁, l₂, _, hl, he⟩ := List.exists_erase_eq hb
    obtain ⟨h31, hsize⟩ := hr b hb
    refine ⟨.release (b.frames la57), ?_, by simp⟩
    have hfree : {f | (c.pmm.give (b.index la57) b.count).FrameFree f} =
        {f | c.pmm.FrameFree f} ∪ b.frames la57 := by
      ext f
      simp only [Set.mem_ofPred_eq, Set.mem_union, FrameFree, give, Bitmap.size_unsetRun,
        Bitmap.test_unsetRun, hits_index h31, Bool.and_eq_false_iff, Bool.not_eq_false',
        decide_eq_true_eq]
      constructor
      · rintro ⟨hf, hb | ht⟩
        · exact .inr hb
        · exact .inl ⟨hf, ht⟩
      · rintro (⟨hf, ht⟩ | hb)
        · exact ⟨hf, .inr ht⟩
        · exact ⟨by have := hb.2; omega, .inl hb⟩
    rw [he]
    simp only [Config.pool, hfree, hl, List.map_append, List.map_cons]
    exact .release

/-- The invariant of a run whose allocations all fit the first free run. -/
theorem exclusive_guarded (h : Run (Guarded la57 FirstRunFits) ⟨s₀, []⟩ calls c) :
    InRange la57 c ∧ (c.pool la57).Exclusive ∧
      (c.pool la57).total = {f | s₀.FrameFree f} := by
  apply h.invariant (P := fun d => InRange la57 d ∧ (d.pool la57).Exclusive ∧
    (d.pool la57).total = {f | s₀.FrameFree f})
  · exact ⟨by simp [InRange], Pool.exclusive_initial _, by simp [Config.pool, Pool.total]⟩
  · rintro d a d' ⟨hr, he, ht⟩ hs
    obtain ⟨x, hp, hx⟩ := pool_step hs hr
    exact ⟨inRange_step hs hr, Pool.exclusive_step hp he, (Pool.total_step hp hx).trans ht⟩

/-- In a run whose allocations all fit the first free run, every block consists of free
frames, and live blocks share no frame. -/
theorem blocks_exclusive (la57 : Bool) (memoryMap : List MmapEntry) (bytes : ℤ → BitVec 8)
    (calls : List Call) (c : Config)
    (h : Run (Guarded la57 FirstRunFits) (start la57 memoryMap bytes) calls c) :
    (c.live.Pairwise fun a b => Disjoint (a.frames la57) (b.frames la57)) ∧
    ∀ n, 1 ≤ n → FirstRunFits c.pmm n → AllocTakesFree la57 c.pmm n := by
  refine ⟨List.pairwise_map.mp (exclusive_guarded h).2.1.live_live, ?_⟩
  intro n hn hfit hne
  rcases alloc_cases la57 c.pmm hn with ⟨_, he⟩ | ⟨hd, i, hi, he⟩
  · simp [he] at hne
  · exact ⟨i, by rw [he], (hfit hd i hi).2⟩

theorem firstRunFits_of (hi : s.FirstFree i) (hlt : i + n ≤ 2 ^ 31)
    (hk : ∀ k < n, s.FrameFree (i + k)) : FirstRunFits s n := by
  intro _ j hj
  obtain rfl := hi.unique hj
  exact ⟨hlt, hk⟩

/-- On `smallMap`: one page, then the two pages after it. -/
theorem blocks_exclusive_smallMap :
    ([⟨0xFFFF800000003000#64, 2⟩, ⟨0xFFFF800000002000#64, 1⟩] : List Block).Pairwise
      fun a b => Disjoint (a.frames false) (b.frames false) := by
  have h1 : FirstRunFits (smallPmm false) 1 := by
    apply firstRunFits_of (i := 2) (by decide) (by decide)
    simp only [FrameFree]
    decide
  have h2 : FirstRunFits (pmmAlloc false (smallPmm false) 1).2 2 := by
    apply firstRunFits_of (i := 3) (by decide) (by decide)
    simp only [FrameFree]
    decide
  refine (blocks_exclusive false smallMap (fun _ => 0#8) [.alloc 1, .alloc 2]
    ⟨(pmmAlloc false (pmmAlloc false (smallPmm false) 1).2 2).2, _⟩ ?_).1
  rw [start, pmmInit_smallMap]
  refine .stepL ⟨.alloc (by decide) (by decide), ?_⟩ (.stepL ⟨.alloc (by decide) (by decide), ?_⟩ ?_)
  · rintro n ⟨⟩
    exact h1
  · rintro n ⟨⟩
    exact h2
  · exact .refl _

/-- Over a fragmented bitmap the scan is not enough: of three free frames the first two are
taken, the first comes back, and a request for two pages gets it together with the second,
which is still in use. -/
theorem blocks_exclusive_fails :
    ¬ ∀ (la57 : Bool) (memoryMap : List MmapEntry) (bytes : ℤ → BitVec 8),
      Accepted memoryMap → ∀ (calls : List Call) (c : Config),
      Run (Step la57) (start la57 memoryMap bytes) calls c →
      (c.live.Pairwise fun a b => Disjoint (a.frames la57) (b.frames la57)) ∧
      ∀ n, 1 ≤ n → AllocTakesFree la57 c.pmm n := by
  intro h
  let s₂ := (pmmAlloc false (pmmAlloc false (smallPmm false) 1).2 1).2
  let s₃ := pmmFree false s₂ 0xFFFF800000002000#64 1
  have hrun : Run (Step false) (start false smallMap fun _ => 0#8)
      [.alloc 1, .alloc 1, .free ⟨0xFFFF800000002000#64, 1⟩, .alloc 2]
      ⟨(pmmAlloc false s₃ 2).2, [⟨0xFFFF800000002000#64, 2⟩, ⟨0xFFFF800000003000#64, 1⟩]⟩ := by
    rw [start, pmmInit_smallMap]
    refine .stepL (.alloc (by decide) (by decide)) (.stepL (.alloc (by decide) (by decide)) ?_)
    refine .stepL (.free (b := ⟨0xFFFF800000002000#64, 1⟩) (by decide)) ?_
    exact .stepL (.alloc (by decide) (by decide)) (.refl _)
  have hpair := (h false smallMap _ smallMap_accepted _ _ hrun).1
  have hdisj := (List.pairwise_cons.mp hpair).1 _ List.mem_cons_self
  refine Set.disjoint_left.mp hdisj (?_ : (3 : ℕ) ∈ _) ?_ <;>
    simp only [Block.frames, Set.mem_ofPred_eq] <;> decide

/-! Freeing everything. A frame that `pmm_init` left reserved is safe as long as no block
covers it, and it stays free for good once a block that did is freed. -/

/-- Block `b` covers bit `f` of the map. -/
def Block.Covers (la57 : Bool) (b : Block) (f : ℕ) : Prop := Bitmap.Hits (b.index la57) b.count f

/-- The block that `pmm_alloc(n)` is about to hand out covers no bit of the map that was set
in `s₀`. -/
def TakesUnreserved (s₀ s : Pmm) (n : ℕ) : Prop :=
  ¬ s.Dry → ∀ i, s.FirstFree i → ∀ f < 8 * s₀.bitmap.size.toNat,
    Bitmap.Hits (BitVec.ofNat 64 i) n f → s₀.bitmap.test f = false

/-- Bitmap and counter are what they were in `s₀`. -/
def Restored (s₀ s : Pmm) : Prop :=
  (∀ f < 8 * s₀.bitmap.size.toNat, s.bitmap.test f = s₀.bitmap.test f) ∧
    s.info.usedPages = s₀.info.usedPages

/-- A reserved frame has been covered by a block: it is covered still, or it has become free. -/
def Spoiled (la57 : Bool) (s₀ : Pmm) (c : Config) : Prop :=
  ∃ f < 8 * s₀.bitmap.size.toNat, s₀.bitmap.test f = true ∧
    ((∃ b ∈ c.live, b.Covers la57 f) ∨ c.pmm.bitmap.test f = false)

theorem spoiled_step (hs : Step la57 c a c') (h : Spoiled la57 s₀ c) : Spoiled la57 s₀ c' := by
  obtain ⟨f, hf, hres, h⟩ := h
  refine ⟨f, hf, hres, ?_⟩
  rcases step_cases hs with ⟨_, _, _, rfl⟩ | ⟨n, i, _, _, _, hi, rfl⟩ | ⟨b, _, hb, rfl⟩
  · exact h
  · rcases h with ⟨b, hb, hc⟩ | ht
    · exact .inl ⟨b, List.mem_cons_of_mem _ hb, hc⟩
    · by_cases hhit : Bitmap.Hits (BitVec.ofNat 64 i) n f
      · left
        refine ⟨_, List.mem_cons_self, ?_⟩
        rwa [Block.Covers, Block.index_ofFrame la57 (by have := hi.lt; omega)]
      · right
        simp [take, Bitmap.test_setRun, hhit, ht]
  · by_cases hhit : b.Covers la57 f
    · right
      have hhit' : Bitmap.Hits (b.index la57) b.count f := hhit
      simp [give, Bitmap.test_unsetRun, hhit']
    · rcases h with ⟨d, hd, hc⟩ | ht
      · left
        have hne : d ≠ b := by rintro rfl; exact hhit hc
        exact ⟨d, (List.mem_erase_of_ne hne).mpr hd, hc⟩
      · right
        simp [give, Bitmap.test_unsetRun, ht]

/-- An allocation that covers a reserved frame spoils it. -/
theorem spoiled_of_not_guarded (hs : Step la57 c a c')
    (h : ¬ ∀ n, a = .alloc n → TakesUnreserved s₀ c.pmm n) : Spoiled la57 s₀ c' := by
  simp only [TakesUnreserved, not_forall] at h
  obtain ⟨n, rfl, hd, i, hi, f, hf, hhit, hres⟩ := h
  refine ⟨f, hf, by simpa using hres, .inl ⟨Block.ofFrame la57 i n, ?_, ?_⟩⟩
  · rcases step_cases hs with ⟨_, _, hdry, _⟩ | ⟨m, j, hm, _, _, hj, rfl⟩ | ⟨b, hb, _⟩
    · exact (hd hdry).elim
    · obtain rfl := hi.unique hj
      cases hm
      exact List.mem_cons_self
    · cases hb
  · rwa [Block.Covers, Block.index_ofFrame la57 (by have := hi.lt; omega)]

/-- Every run meets the condition at each of its allocations, or ends spoiled. -/
theorem guarded_or_spoiled (s₀ : Pmm) (h : Run (Step la57) c calls c') :
    Run (Guarded la57 (TakesUnreserved s₀)) c calls c' ∨ Spoiled la57 s₀ c' := by
  induction h with
  | refl => exact .inl (.refl _)
  | @stepL c d c' a calls hs hr ih =>
    by_cases hg : ∀ n, a = .alloc n → TakesUnreserved s₀ c.pmm n
    · rcases ih with ih | ih
      · exact .inl (.stepL ⟨hs, hg⟩ ih)
      · exact .inr ih
    · exact .inr (hr.invariant (spoiled_of_not_guarded hs hg)
        (fun _ _ _ hd hs => spoiled_step hs hd))

/-- Live blocks cover unreserved frames only, and every other bit is as in `s₀`. -/
structure Accounted (la57 : Bool) (s₀ : Pmm) (c : Config) : Prop where
  size : c.pmm.bitmap.size = s₀.bitmap.size
  covered : ∀ b ∈ c.live, ∀ f < 8 * s₀.bitmap.size.toNat, b.Covers la57 f → s₀.bitmap.test f = false
  reserved : ∀ f < 8 * s₀.bitmap.size.toNat, s₀.bitmap.test f = true → c.pmm.bitmap.test f = true
  live : ∀ f < 8 * s₀.bitmap.size.toNat, s₀.bitmap.test f = false → c.pmm.bitmap.test f = true →
    ∃ b ∈ c.live, b.Covers la57 f

theorem accounted_step (hs : Guarded la57 (TakesUnreserved s₀) c a c')
    (h : Accounted la57 s₀ c) : Accounted la57 s₀ c' := by
  obtain ⟨hs, hg⟩ := hs
  have hsize := (run_frame (.stepL hs (.refl c'))).2.1.trans h.size
  rcases step_cases hs with ⟨_, _, _, rfl⟩ | ⟨n, i, ha, _, hd, hi, rfl⟩ | ⟨b, _, hb, rfl⟩
  · exact h
  · have hindex := Block.index_ofFrame (n := n) la57 (show i < 2 ^ 52 by have := hi.lt; omega)
    refine ⟨hsize, ?_, ?_, ?_⟩
    · intro b hb f hf hc
      rcases List.mem_cons.mp hb with rfl | hb
      · rw [Block.Covers, hindex] at hc
        exact hg n ha hd i hi f hf hc
      · exact h.covered b hb f hf hc
    · intro f hf hr
      simp [take, Bitmap.test_setRun, h.reserved f hf hr]
    · intro f hf hr ht
      simp only [take, Bitmap.test_setRun, Bool.or_eq_true, decide_eq_true_eq] at ht
      rcases ht with hhit | ht
      · exact ⟨_, List.mem_cons_self, by rwa [Block.Covers, hindex]⟩
      · obtain ⟨b, hb, hc⟩ := h.live f hf hr ht
        exact ⟨b, List.mem_cons_of_mem _ hb, hc⟩
  · refine ⟨hsize, fun d hd => h.covered d (List.mem_of_mem_erase hd), ?_, ?_⟩
    · intro f hf hr
      have hc : ¬ Bitmap.Hits (b.index la57) b.count f := by
        intro hc
        simp [h.covered b hb f hf hc] at hr
      simp [give, Bitmap.test_unsetRun, hc, h.reserved f hf hr]
    · intro f hf hr ht
      simp only [give, Bitmap.test_unsetRun, Bool.and_eq_true, Bool.not_eq_true',
        decide_eq_false_iff_not] at ht
      obtain ⟨d, hd, hc⟩ := h.live f hf hr ht.2
      have hne : d ≠ b := by rintro rfl; exact ht.1 hc
      exact ⟨d, (List.mem_erase_of_ne hne).mpr hd, hc⟩

theorem accounted_run (h : Run (Guarded la57 (TakesUnreserved s₀)) ⟨s₀, []⟩ calls c) :
    Accounted la57 s₀ c := by
  apply h.invariant (P := Accounted la57 s₀)
  · exact ⟨rfl, by simp, fun _ _ h => h, fun _ _ h h' => by simp [h] at h'⟩
  · exact fun _ _ _ hd hs => accounted_step hs hd

/-- Once every block is freed, the allocator is restored exactly if no allocation covered a
frame that `pmm_init` left reserved; and until then no such frame becomes free. -/
theorem freed_restores (la57 : Bool) (memoryMap : List MmapEntry) (bytes : ℤ → BitVec 8)
    (calls : List Call) (c : Config)
    (h : Run (Step la57) (start la57 memoryMap bytes) calls c) :
    (Run (Guarded la57 (TakesUnreserved (pmmInit la57 memoryMap bytes)))
        (start la57 memoryMap bytes) calls c →
      ∀ f < 8 * (pmmInit la57 memoryMap bytes).bitmap.size.toNat,
        (pmmInit la57 memoryMap bytes).bitmap.test f = true → c.pmm.bitmap.test f = true) ∧
    (c.live = [] → (Restored (pmmInit la57 memoryMap bytes) c.pmm ↔
      Run (Guarded la57 (TakesUnreserved (pmmInit la57 memoryMap bytes)))
        (start la57 memoryMap bytes) calls c)) := by
  refine ⟨fun hg => (accounted_run hg).reserved, ?_⟩
  intro hlive
  constructor
  · rintro ⟨hbits, _⟩
    rcases guarded_or_spoiled (pmmInit la57 memoryMap bytes) h with hg | ⟨f, hf, hr, hs⟩
    · exact hg
    · rcases hs with ⟨b, hb, _⟩ | ht
      · simp [hlive] at hb
      · rw [hbits f hf, hr] at ht
        cases ht
  · intro hg
    have hacc := accounted_run hg
    refine ⟨?_, ?_⟩
    · intro f hf
      cases hr : (pmmInit la57 memoryMap bytes).bitmap.test f with
      | true => exact hacc.reserved f hf hr
      | false =>
        by_contra ht
        obtain ⟨b, hb, _⟩ := hacc.live f hf hr (by simpa using ht)
        simp [hlive] at hb
    · have hused := run_usedPages h
      simpa [livePages, hlive] using hused

/-- On `smallMap` the three free frames can be lent out and taken back. -/
theorem freed_restores_smallMap :
    Restored (smallPmm false)
      (pmmFree false (pmmAlloc false (smallPmm false) 3).2 0xFFFF800000002000#64 3) := by
  have hguard : TakesUnreserved (smallPmm false) (smallPmm false) 3 := by
    intro _ i hi f _ hhit
    have h2 : (smallPmm false).FirstFree 2 := by decide
    obtain rfl := hi.unique h2
    obtain ⟨hl, hu⟩ := (Bitmap.hits_ofNat_iff (by decide)).mp hhit
    have hf : f = 2 ∨ f = 3 ∨ f = 4 := by omega
    rcases hf with rfl | rfl | rfl <;> decide
  have halloc : Step false ⟨smallPmm false, []⟩ (.alloc 3)
      ⟨(pmmAlloc false (smallPmm false) 3).2, [⟨0xFFFF800000002000#64, 3⟩]⟩ :=
    .alloc (by decide) (by decide)
  have hfree := @Step.free false ⟨(pmmAlloc false (smallPmm false) 3).2,
    [⟨0xFFFF800000002000#64, 3⟩]⟩ _ List.mem_cons_self
  have hrun := Run.stepL halloc (.stepL hfree (.refl _))
  have hgrun : Run (Guarded false (TakesUnreserved (smallPmm false))) ⟨smallPmm false, []⟩ _ _ :=
    .stepL ⟨halloc, by rintro n ⟨⟩; exact hguard⟩ (.stepL ⟨hfree, by simp⟩ (.refl _))
  have hstart : start false smallMap (fun _ => 0#8) = ⟨smallPmm false, []⟩ := by
    rw [start, pmmInit_smallMap]
  have hmain := (freed_restores false smallMap (fun _ => 0#8) _ _ (by rw [hstart]; exact hrun)).2
  rw [hstart, pmmInit_smallMap] at hmain
  exact (hmain rfl).mpr hgrun

/-- A request for four pages covers the kernel's first frame too, and freeing it makes that
frame free. -/
theorem freed_restores_fails :
    ¬ ∀ (la57 : Bool) (memoryMap : List MmapEntry) (bytes : ℤ → BitVec 8),
      Accepted memoryMap → ∀ (calls : List Call) (c : Config),
      Run (Step la57) (start la57 memoryMap bytes) calls c → c.live = [] →
      Restored (pmmInit la57 memoryMap bytes) c.pmm := by
  intro h
  have hrun : Run (Step false) (start false smallMap fun _ => 0#8)
      [.alloc 4, .free ⟨0xFFFF800000002000#64, 4⟩]
      ⟨pmmFree false (pmmAlloc false (smallPmm false) 4).2 0xFFFF800000002000#64 4, []⟩ := by
    rw [start, pmmInit_smallMap]
    refine .stepL (.alloc (by decide) (by decide)) ?_
    exact .stepL (.free (b := ⟨0xFFFF800000002000#64, 4⟩) List.mem_cons_self) (.refl _)
  have hbits := (h false smallMap _ smallMap_accepted _ _ hrun rfl).1
  rw [pmmInit_smallMap] at hbits
  exact absurd (hbits 5 (by decide)) (by decide)

end KnutOS.Pmm
