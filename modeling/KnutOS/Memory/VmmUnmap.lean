import KnutOS.Memory.PmmInit
import KnutOS.Memory.VmmPmm

/-! Unmapping a page that is not mapped. The walk is the one that makes tables, and it makes them
for `vmm_unmap_page` too. -/
namespace KnutOS.Vmm

open Foundation RadixTree Pmm

variable {la57 : Bool} {supply : ℕ → Option Frame} {root t u : Frame} {N : ℕ} {m m' : Machine ℕ}
  {mem : Memory} {ptr e v : Word} {flags : BitVec 32} {p is : List Index} {s : Pmm}

/-- No access to `v` is translated. -/
def Untranslated (la57 : Bool) (mem : Memory) (root : Frame) (v : Word) : Prop :=
  ∀ address flags, walk la57 mem root v ≠ .page address flags

/-- Bitmap, counter and all translations are the same. -/
structure Unchanged (la57 : Bool) (root : Frame) (m m' : Machine Pmm) : Prop where
  bitmap : m'.pmm.bitmap = m.pmm.bitmap
  usedPages : m'.pmm.info.usedPages = m.pmm.info.usedPages
  walks : ∀ w, walk la57 m'.mem root w = walk la57 m.mem root w

/-- How many tables `v` lacks. -/
def lacking (la57 : Bool) (mem : Memory) (root : Frame) (v : Word) : ℕ :=
  missing tableOf mem.entries root (upperIndices la57 v)

theorem table_of_child {f : Frame} (h : Entry.child e = some f) : tableOf e = some f := by
  cases hp : Entry.present e with
  | false => simp [Entry.child, hp] at h
  | true =>
    cases hl : Entry.large e with
    | true => simp [Entry.child, hl] at h
    | false => exact (table_of_present hp).trans ((child_of_present hp hl).symm.trans h)

theorem Tree.child_step (h : Tree la57 supply root N m)
    (ht : tableAt tableOf m.mem.entries root p = some t) (hp : p.length + 1 < levels la57)
    {i : Index} (hpres : Entry.present (m.mem.entries t i) = true) :
    ∃ f, tableOf (m.mem.entries t i) = some f ∧
      tableAt tableOf m.mem.entries root (p ++ [i]) = some f ∧
      m.mem.entries t i &&& ~~~511#64 = frameAddr f := by
  obtain ⟨_, f, _, _, _, hmask⟩ := h.owned p t i hp ht hpres
  have htable : tableOf (m.mem.entries t i) = some f := by
    rw [table_of_present hpres, frame_of_mask hmask]
  refine ⟨f, htable, ?_, hmask⟩
  rw [tableAt_append ht]
  simp [tableAt, htable]

/-- Where all tables are in place, the descent only follows them. -/
theorem descend_in_place (flags : BitVec 32) (h : Tree la57 supply root N m)
    (hptr : PointsTo la57 ptr t)
    (ht : tableAt tableOf m.mem.entries root p = some t)
    (hlen : p.length + is.length + 1 = levels la57)
    (hu : tableAt tableOf m.mem.entries t is = some u) :
    (descend la57 (orNull la57 supply) m ptr flags is).2 = m ∧
      PointsTo la57 (descend la57 (orNull la57 supply) m ptr flags is).1 u := by
  induction is generalizing ptr t p with
  | nil =>
    cases hu
    exact ⟨rfl, hptr⟩
  | cons i is ih =>
    simp only [List.length_cons] at hlen
    cases hpres : Entry.present (m.mem.entries t i) with
    | false => simp [tableAt, table_of_absent hpres] at hu
    | true =>
      obtain ⟨f, htable, hf, hmask⟩ := h.child_step ht (by omega) hpres
      have hload : Entry.present (m.load la57 (ptr + 8#64 * i.setWidth 64)) = true := by
        rwa [load_slot hptr]
      simp only [descend, getPageMapLevel_of_present _ flags hload, load_slot hptr, hmask]
      simp only [tableAt, htable, Option.bind_some] at hu
      exact ih (pointsTo_frameAddr la57 f) hf (by simp; omega) hu

/-- Where a table is missing, the descent asks for a frame. -/
theorem descend_asks (h : Tree la57 supply root N m) (hptr : PointsTo la57 ptr t)
    (ht : tableAt tableOf m.mem.entries root p = some t)
    (hlen : p.length + is.length + 1 = levels la57)
    (hmiss : missing tableOf m.mem.entries t is ≠ 0) :
    m.pmm < (descend la57 (orNull la57 supply) m ptr flags is).2.pmm := by
  induction is generalizing ptr t p with
  | nil => exact absurd rfl hmiss
  | cons i is ih =>
    simp only [List.length_cons] at hlen
    have hslot := load_slot (m := m) (i := i) hptr
    cases hpres : Entry.present (m.mem.entries t i) with
    | true =>
      obtain ⟨f, htable, hf, hmask⟩ := h.child_step ht (by omega) hpres
      rw [← hslot] at hpres
      simp only [descend, getPageMapLevel_of_present _ flags hpres, hslot, hmask]
      simp only [missing, htable] at hmiss
      exact ih (pointsTo_frameAddr la57 f) hf (by simp; omega) hmiss
    | false =>
      rw [← hslot] at hpres
      simp only [descend, getPageMapLevel_of_absent _ flags hpres]
      refine lt_of_lt_of_le ?_ (pmm_descend_orNull la57 supply _ _ flags is).1
      exact Nat.lt_succ_self m.pmm

/-- Clearing the leaf entry of a page that is not translated changes no walk. -/
theorem walk_clear_leaf (h : Tree la57 supply root N m) (hptr : PointsTo la57 ptr t)
    (ht : tableAt tableOf m.mem.entries root (upperIndices la57 v) = some t)
    (hv : Untranslated la57 m.mem root v) (w : Word) :
    walk la57 (m.store la57 (ptr + 8#64 * (leafIndex v).setWidth 64) 0#64).mem root w =
      walk la57 m.mem root w := by
  have hent := entries_store (m := m) (i := leafIndex v) (e := 0#64) hptr
  have hlen := length_upperIndices la57 v
  by_cases hc : tableAt Entry.child m.mem.entries root (upperIndices la57 v) = some t
  · -- the processor reads the entry, which is absent
    have hl : lookup Entry.child m.mem.entries root (indices la57 v) =
        some (0, m.mem.entries t (leafIndex v)) := by
      rw [indices, lookup_append hc (by simp)]
      rfl
    have habs : Entry.present (m.mem.entries t (leafIndex v)) = false := by
      rw [Bool.eq_false_iff]
      intro hpres
      apply hv _ _
      rw [walk_of_lookup hl, finish, hpres]
      rfl
    rcases lookup_write_childless (s := root) (q := indices la57 w) (child_of_absent habs)
      (child_of_absent (e := 0#64) (by decide)) with hsame | ⟨l, h1, h2⟩
    · exact walk_congr (by rw [hent, hsame])
    · exact walk_congr_absent h1 (by rw [hent, h2]) habs (by decide)
  · -- the processor stops above it, and reads it for no other page
    apply walk_congr
    rw [hent]
    apply lookup_write
    intro q r hq hqt
    have hqlen := congrArg List.length hq
    rw [length_indices, List.length_append, List.length_cons] at hqlen
    have hpath := h.unshared q (upperIndices la57 v) t (by omega) (by omega)
      (tableAt_mono (fun _ _ => table_of_child) hqt) ht
    rw [hpath] at hqt
    exact hc hqt

/-- With all tables in place, `vmm_unmap_page` on a page that is not translated changes no walk,
takes no frame and leaves the tables in place. -/
theorem unmap_in_place (h : Tree la57 supply root N m) {dir : Word} (hdir : PointsTo la57 dir root)
    (hmiss : lacking la57 m.mem root v = 0) (hv : Untranslated la57 m.mem root v) :
    let m' := vmmUnmapPage la57 (orNull la57 supply) m dir v
    m'.pmm = m.pmm ∧ Tree la57 supply root N m' ∧ lacking la57 m'.mem root v = 0 ∧
      ∀ w, walk la57 m'.mem root w = walk la57 m.mem root w := by
  have hlen := length_upperIndices la57 v
  obtain ⟨t, ht⟩ := missing_eq_zero_iff.mp hmiss
  obtain ⟨hsame, hptr⟩ := descend_in_place (p := []) 0#32 h hdir rfl
    (by simpa using hlen) ht
  simp only [vmmUnmapPage_eq, hsame]
  refine ⟨rfl, h.store_bottom hptr (h.bottom ht hlen) _, ?_, walk_clear_leaf h hptr ht hv⟩
  apply missing_eq_zero_iff.mpr
  refine ⟨t, ?_⟩
  rw [entries_store hptr, tableAt_write_leaf h.unshared ht hlen (by omega)]
  exact ht

theorem unmaps_in_place (h : Tree la57 supply root N m) {dir : Word}
    (hdir : PointsTo la57 dir root) (hmiss : lacking la57 m.mem root v = 0)
    (hv : Untranslated la57 m.mem root v) (n : ℕ) :
    let m' := (fun m => vmmUnmapPage la57 (orNull la57 supply) m dir v)^[n] m
    m'.pmm = m.pmm ∧ ∀ w, walk la57 m'.mem root w = walk la57 m.mem root w := by
  induction n generalizing m with
  | zero => exact ⟨rfl, fun _ => rfl⟩
  | succ n ih =>
    obtain ⟨hpmm, htree, hmiss', hwalk⟩ := unmap_in_place h hdir hmiss hv
    obtain ⟨hpmm', hwalk'⟩ := ih htree hmiss' fun a fl => by rw [hwalk]; exact hv a fl
    exact ⟨hpmm'.trans hpmm, fun w => (hwalk' w).trans (hwalk w)⟩

/-! What `k` calls of `pmm_alloc(1)` do to the counter. -/

theorem afterAllocs_of_dry (h : s.Dry) (k : ℕ) : afterAllocs la57 s k = s := by
  induction k with
  | zero => rfl
  | succ k ih => rw [afterAllocs_succ, ih, alloc_of_dry h]

theorem used_afterAllocs (la57 : Bool) (s : Pmm) (k : ℕ) :
    ∃ j ≤ k, (afterAllocs la57 s k).info.usedPages = s.info.usedPages + BitVec.ofNat 32 j ∧
      (¬ s.Dry → 0 < k → 0 < j) := by
  induction k with
  | zero => exact ⟨0, le_rfl, by simp [afterAllocs], fun _ hk => hk⟩
  | succ k ih =>
    obtain ⟨j, hj, hused, hpos⟩ := ih
    rcases handedOut_cases la57 s k with ⟨hd, _, _, he⟩ | ⟨_, i, _, _, _, he⟩
    · refine ⟨j, by omega, by rw [he, hused], fun hs _ => ?_⟩
      by_contra hj0
      have hk : k = 0 := by
        by_contra hk
        exact hj0 (hpos hs (Nat.pos_of_ne_zero hk))
      subst hk
      exact hs hd
    · refine ⟨j + 1, by omega, ?_, fun _ _ => Nat.succ_pos j⟩
      rw [he, take]
      simp only [hused, BitVec.add_assoc, BitVec.ofNat_add]

/-- A few calls change bitmap or counter unless the first one gets nothing. -/
theorem allocs_unchanged_iff (la57 : Bool) (s : Pmm) {k : ℕ} (hk : k < 2 ^ 32) :
    ((afterAllocs la57 s k).bitmap = s.bitmap ∧
      (afterAllocs la57 s k).info.usedPages = s.info.usedPages) ↔ k = 0 ∨ s.Dry := by
  constructor
  · rintro ⟨_, hused⟩
    obtain ⟨j, hj, hj', hpos⟩ := used_afterAllocs la57 s k
    by_contra hno
    simp only [not_or] at hno
    have hj0 := hpos hno.2 (Nat.pos_of_ne_zero hno.1)
    rw [hused, ← BitVec.add_zero s.info.usedPages, BitVec.add_assoc, BitVec.zero_add] at hj'
    have hn := congrArg BitVec.toNat ((BitVec.add_right_inj _).mp hj')
    rw [BitVec.toNat_ofNat, BitVec.toNat_ofNat] at hn
    omega
  · rintro (rfl | hd)
    · exact ⟨rfl, rfl⟩
    · rw [afterAllocs_of_dry hd]
      exact ⟨rfl, rfl⟩

/-! On the physical manager. -/

theorem unmap_map (la57 : Bool) (s : Pmm) (dir v : Word) (m : Machine ℕ) :
    vmmUnmapPage la57 (pmmAlloc la57) (m.map (afterAllocs la57 s)) dir v =
      (vmmUnmapPage la57 (orNull la57 (handedOut la57 s)) m dir v).map (afterAllocs la57 s) :=
  applyWith_afterAllocs la57 s dir m (.unmap v)

theorem unmaps_map (la57 : Bool) (s : Pmm) (dir v : Word) (m : Machine ℕ) (n : ℕ) :
    (fun m => vmmUnmapPage la57 (pmmAlloc la57) m dir v)^[n] (m.map (afterAllocs la57 s)) =
      ((fun m => vmmUnmapPage la57 (orNull la57 (handedOut la57 s)) m dir v)^[n] m).map
        (afterAllocs la57 s) := by
  induction n generalizing m with
  | zero => rfl
  | succ n ih =>
    simp only [Function.iterate_succ_apply, unmap_map]
    exact ih _

/-- The allocator is left alone exactly if no table is missing or no frame is left. -/
theorem unmap_allocator_iff (h : Tree la57 (handedOut la57 s) root N m) {dir : Word}
    (hdir : PointsTo la57 dir root) :
    let m₀ := m.map (afterAllocs la57 s)
    let m' := vmmUnmapPage la57 (pmmAlloc la57) m₀ dir v
    (m'.pmm.bitmap = m₀.pmm.bitmap ∧ m'.pmm.info.usedPages = m₀.pmm.info.usedPages) ↔
      lacking la57 m.mem root v = 0 ∨ m₀.pmm.Dry := by
  intro m₀ m'
  let r := descend la57 (orNull la57 (handedOut la57 s)) m dir 0#32 (upperIndices la57 v)
  have hlen := length_upperIndices la57 v
  obtain ⟨hlo, hhi⟩ : m.pmm ≤ r.2.pmm ∧ r.2.pmm ≤ m.pmm + (upperIndices la57 v).length :=
    pmm_descend_orNull la57 (handedOut la57 s) m dir 0#32 (upperIndices la57 v)
  have hpmm : m'.pmm = afterAllocs la57 m₀.pmm (r.2.pmm - m.pmm) := by
    have hadd := afterAllocs_add la57 s m.pmm (r.2.pmm - m.pmm)
    rw [Nat.add_sub_cancel' hlo] at hadd
    rw [show m' = _ from unmap_map la57 s dir v m, vmmUnmapPage_eq]
    exact hadd
  have hlevels : levels la57 ≤ 5 := by cases la57 <;> decide
  rw [hpmm, allocs_unchanged_iff la57 m₀.pmm (by omega)]
  refine or_congr_left ⟨fun hk => ?_, fun hmiss => ?_⟩
  · by_contra hmiss
    have hasks : m.pmm < r.2.pmm :=
      descend_asks (p := []) h hdir rfl (by simpa using hlen) hmiss
    omega
  · obtain ⟨t, ht⟩ := missing_eq_zero_iff.mp hmiss
    rw [show r.2 = m from (descend_in_place (p := []) 0#32 h hdir rfl (by simpa using hlen) ht).1,
      Nat.sub_self]

/-- What a tree in order says of a page that is not translated. -/
theorem unmap_of_tree (h : Tree la57 (handedOut la57 s) root N m) {dir : Word}
    (hdir : PointsTo la57 dir root) (hv : Untranslated la57 m.mem root v)
    (hmiss : lacking la57 m.mem root v = 0) (n : ℕ) :
    Unchanged la57 root (m.map (afterAllocs la57 s))
      ((fun m => vmmUnmapPage la57 (pmmAlloc la57) m dir v)^[n] (m.map (afterAllocs la57 s))) := by
  obtain ⟨hpmm, hwalk⟩ := unmaps_in_place h hdir hmiss hv n
  have hsame := congrArg (afterAllocs la57 s) hpmm
  rw [unmaps_map]
  exact ⟨congrArg Pmm.bitmap hsame, congrArg (fun s => s.info.usedPages) hsame, hwalk⟩

/-- The states of runs on the physical manager whose calls find their frames. -/
theorem tree_of_pmmRun {calls : List Call} {m : Machine Pmm} (h0 : handedOut la57 s 0 = some root)
    (hfresh : ∀ n, FreshSupply (handedOut la57 s) mem n)
    (h : Run (PmmSuppliedStep la57 root (createdOnPmm la57 s mem).1) (createdOnPmm la57 s mem).2
      calls m) :
    PointsTo la57 (createdOnPmm la57 s mem).1 root ∧
      ∃ n, m = Machine.map (afterAllocs la57 s) n ∧ Tree la57 (handedOut la57 s) root n.pmm n := by
  rw [createdOnPmm_eq] at h ⊢
  obtain ⟨n, rfl, hrun⟩ := run_of_pmmRun h
  have hdir : PointsTo la57 (createdOrNull la57 (handedOut la57 s) mem).1 root := by
    have hlow := (hfresh 1).low 0 root Nat.zero_lt_one h0
    simpa only [createdOrNull, vmmCreatePageDirectory, orNull, h0, answer] using
      pointsTo_higherHalf la57 hlow
  have hpos : 0 < n.pmm := lt_of_lt_of_le Nat.zero_lt_one (pmm_suppliedRun hrun)
  have htree := tree_created la57 h0 (hfresh n.pmm) hpos
  exact ⟨hdir, n, rfl, tree_run hrun htree (hfresh n.pmm).distinct Nat.zero_lt_one hdir le_rfl⟩

/-- In the states of every run whose calls find their frames, for every page that is not
translated: with its tables in place any number of `vmm_unmap_page` calls change nothing; the
allocator is left alone only then, or if it has nothing to give; and while it has, the call
changes nothing exactly if the tables are in place. -/
theorem unmap_unchanged_iff (la57 : Bool) (s : Pmm) (mem : Memory) (root : Frame)
    (calls : List Call) (m : Machine Pmm) (h0 : handedOut la57 s 0 = some root)
    (hfresh : ∀ n, FreshSupply (handedOut la57 s) mem n)
    (h : Run (PmmSuppliedStep la57 root (createdOnPmm la57 s mem).1) (createdOnPmm la57 s mem).2
      calls m)
    (v : Word) (hv : Untranslated la57 m.mem root v) :
    let unmap := fun m => vmmUnmapPage la57 (pmmAlloc la57) m (createdOnPmm la57 s mem).1 v
    (lacking la57 m.mem root v = 0 → ∀ n, Unchanged la57 root m (unmap^[n] m)) ∧
    (((unmap m).pmm.bitmap = m.pmm.bitmap ∧ (unmap m).pmm.info.usedPages = m.pmm.info.usedPages) ↔
      lacking la57 m.mem root v = 0 ∨ m.pmm.Dry) ∧
    (¬ m.pmm.Dry → (Unchanged la57 root m (unmap m) ↔ lacking la57 m.mem root v = 0)) := by
  obtain ⟨hdir, n, rfl, htree⟩ := tree_of_pmmRun h0 hfresh h
  have hplace := unmap_of_tree htree hdir hv
  have halloc := unmap_allocator_iff (v := v) htree hdir
  refine ⟨hplace, halloc, fun hd => ⟨fun hsame => ?_, fun hmiss => hplace hmiss 1⟩⟩
  rcases halloc.mp ⟨hsame.bitmap, hsame.usedPages⟩ with hmiss | hdry
  · exact hmiss
  · exact absurd hdry hd

/-! `smallMap` on a memory full of zeros, with a new directory in frame 2. -/

theorem smallPmm_fresh (n : ℕ) :
    FreshSupply (handedOut false (smallPmm false)) (fun _ => 0#64) n :=
  freshSupply_handedOut false (by decide) (fun _ _ _ _ => rfl) n

theorem createdOnPmm_zero (la57 : Bool) (s : Pmm) :
    (createdOnPmm la57 s fun _ => 0#64).2.mem = fun _ => 0#64 := by
  funext a
  simp [createdOnPmm, vmmCreatePageDirectory, Machine.clear]

theorem untranslated_zero :
    Untranslated false (createdOnPmm false (smallPmm false) fun _ => 0#64).2.mem 2#40 0x200000#64 := by
  intro address flags
  rw [createdOnPmm_zero, show walk false (fun _ => 0#64) 2#40 0x200000#64 = .notPresent by decide]
  exact Walk.noConfusion

theorem lacking_small :
    lacking false (createdOnPmm false (smallPmm false) fun _ => 0#64).2.mem 2#40 0x200000#64 ≠ 0 := by
  rw [createdOnPmm_zero]
  decide

theorem not_dry_small : ¬ (createdOnPmm false (smallPmm false) fun _ => 0#64).2.pmm.Dry := by
  unfold Dry
  decide

/-- A manager of 16 pages, of which frames 2 to 9 are free. -/
def roomyPmm : Pmm where
  info := ⟨0x10000#64, 16#32, 8#32, [⟨0x2000#64, 0x8000#64, mmapUsable⟩]⟩
  bitmap := ⟨0xFFFF800000001000#64, 2#64, fun k => if k = 0 then 0x03#8 else 0xFC#8⟩
  highestPage := 0x10000#64

/-- A directory on it, after a page was mapped in it. -/
def roomyMachine : Machine Pmm :=
  vmmMapPage false (pmmAlloc false) (createdOnPmm false roomyPmm fun _ => 0#64).2
    (createdOnPmm false roomyPmm fun _ => 0#64).1 0xA000#64 0x200000#64 3#32

theorem roomyPmm_fresh (n : ℕ) : FreshSupply (handedOut false roomyPmm) (fun _ => 0#64) n :=
  freshSupply_handedOut false (by decide) (fun _ _ _ _ => rfl) n

/-- There is a frame for each of the three tables. -/
theorem roomyMachine_run :
    Run (PmmSuppliedStep false 2#40 (createdOnPmm false roomyPmm fun _ => 0#64).1)
      (createdOnPmm false roomyPmm fun _ => 0#64).2 [.map 0xA000#64 0x200000#64 3#32]
      roomyMachine := by
  refine .stepL ⟨rfl, .inr fun k hk => ?_⟩ (.refl _)
  have hlacks : missing tableOf (createdOnPmm false roomyPmm fun _ => 0#64).2.mem.entries 2#40
      (upperIndices false 0x200000#64) = 3 := by decide +kernel
  have hframe : handedOut false (createdOnPmm false roomyPmm fun _ => 0#64).2.pmm k =
      some (BitVec.ofNat 40 (k + 3)) := by
    rw [hlacks] at hk
    interval_cases k <;> decide +kernel
  exact ⟨_, hframe, (link_fields 3#32 (by decide) _).2.1⟩

/-- The page beside the one that was mapped finds its tables, and a page 1 GiB higher does not. -/
theorem unmap_unchanged_roomy :
    (∀ n, Unchanged false 2#40 roomyMachine
      ((fun m => vmmUnmapPage false (pmmAlloc false) m
        (createdOnPmm false roomyPmm fun _ => 0#64).1 0x201000#64)^[n] roomyMachine)) ∧
    ¬ Unchanged false 2#40 roomyMachine
      (vmmUnmapPage false (pmmAlloc false) roomyMachine
        (createdOnPmm false roomyPmm fun _ => 0#64).1 0x40000000#64) := by
  have hmain := unmap_unchanged_iff false roomyPmm (fun _ => 0#64) 2#40
    [.map 0xA000#64 0x200000#64 3#32] roomyMachine (by decide) roomyPmm_fresh roomyMachine_run
  have huntranslated : ∀ v, walk false roomyMachine.mem 2#40 v = .notPresent →
      Untranslated false roomyMachine.mem 2#40 v := by
    intro v hv address flags
    rw [hv]
    exact Walk.noConfusion
  refine ⟨(hmain 0x201000#64 (huntranslated _ (by decide +kernel))).1 (by decide +kernel), ?_⟩
  have hdry : ¬ roomyMachine.pmm.Dry := by
    unfold Dry
    decide +kernel
  have hfar := (hmain 0x40000000#64 (huntranslated _ (by decide +kernel))).2.2 hdry
  have hlacks : lacking false roomyMachine.mem 2#40 0x40000000#64 ≠ 0 := by decide +kernel
  exact fun h => hlacks (hfar.mp h)

/-- The walk of `vmm_unmap_page` makes the missing tables: on `smallMap` the first call for a page
in an empty directory takes the last two frames. -/
theorem unmap_unchanged_fails :
    ¬ ∀ (la57 : Bool) (s : Pmm) (mem : Memory) (root : Frame) (calls : List Call)
      (m : Machine Pmm), handedOut la57 s 0 = some root →
      (∀ n, FreshSupply (handedOut la57 s) mem n) →
      Run (PmmStep la57 (createdOnPmm la57 s mem).1) (createdOnPmm la57 s mem).2 calls m →
      ∀ v, Untranslated la57 m.mem root v →
      Unchanged la57 root m
        (vmmUnmapPage la57 (pmmAlloc la57) m (createdOnPmm la57 s mem).1 v) := by
  intro h
  have hroot : handedOut false (smallPmm false) 0 = some 2#40 := by decide
  have hsame := h false (smallPmm false) (fun _ => 0#64) 2#40 [] _ hroot smallPmm_fresh (.refl _)
    0x200000#64 untranslated_zero
  obtain ⟨hdir, n, hn, htree⟩ := tree_of_pmmRun hroot smallPmm_fresh (.refl _)
  have halloc := unmap_allocator_iff (v := 0x200000#64) htree hdir
  have hmem : n.mem = (createdOnPmm false (smallPmm false) fun _ => 0#64).2.mem :=
    congrArg Machine.mem hn.symm
  rw [← hn, hmem] at halloc
  rcases halloc.mp ⟨hsame.bitmap, hsame.usedPages⟩ with hmiss | hdry
  · exact lacking_small hmiss
  · exact not_dry_small hdry

end KnutOS.Vmm
