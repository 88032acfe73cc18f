import KnutOS.Foundation.Run
import KnutOS.Memory.VmmTree

/-! The table tree as a flat map from virtual pages to frames and flags. -/
namespace KnutOS.Vmm

open Foundation RadixTree

variable {la57 : Bool} {frames : ℕ → Frame} {root t : Frame} {N : ℕ} {m m' : Machine ℕ}
  {ptr pa va v w : Word} {flags : BitVec 32} {i : Index} {p is : List Index}

/-! One call takes at most one frame a level, and none where the table is there. -/

theorem pmm_get {A : ℕ → ℕ → Word × ℕ} (la57 : Bool) (hA : ∀ k n, (A k n).2 = k + 1)
    (m : Machine ℕ) (ptr i : Word) (flags : BitVec 32) :
    m.pmm ≤ (vmmGetPageMapLevel la57 A m ptr i flags).2.pmm ∧
    (vmmGetPageMapLevel la57 A m ptr i flags).2.pmm ≤ m.pmm + 1 := by
  simp only [vmmGetPageMapLevel]
  split
  · exact ⟨le_rfl, Nat.le_succ _⟩
  · simp only [Machine.store, hA]
    exact ⟨Nat.le_succ _, le_rfl⟩

/-- So it is with any allocator that counts its calls. -/
theorem pmm_descend_counting {A : ℕ → ℕ → Word × ℕ} (la57 : Bool)
    (hA : ∀ k n, (A k n).2 = k + 1) (m : Machine ℕ) (ptr : Word) (flags : BitVec 32) (is : List Index) :
    m.pmm ≤ (descend la57 A m ptr flags is).2.pmm ∧
    (descend la57 A m ptr flags is).2.pmm ≤ m.pmm + is.length := by
  induction is generalizing m ptr with
  | nil => exact ⟨le_rfl, le_rfl⟩
  | cons i is ih =>
    obtain ⟨h1, h2⟩ := pmm_get la57 hA m ptr (i.setWidth 64) flags
    obtain ⟨h3, h4⟩ := ih (vmmGetPageMapLevel la57 A m ptr (i.setWidth 64) flags).2
      (vmmGetPageMapLevel la57 A m ptr (i.setWidth 64) flags).1
    simp only [descend, List.length_cons]
    omega

theorem pmm_descend (la57 : Bool) (frames : ℕ → Frame) (m : Machine ℕ) (ptr : Word)
    (flags : BitVec 32) (is : List Index) :
    m.pmm ≤ (descend la57 (handOut la57 frames) m ptr flags is).2.pmm ∧
    (descend la57 (handOut la57 frames) m ptr flags is).2.pmm ≤ m.pmm + is.length :=
  pmm_descend_counting la57 (fun _ _ => rfl) m ptr flags is

/-- One level further down, where the table is there. -/
theorem child_step (h : Directory la57 m.mem root)
    (ht : tableAt Entry.child m.mem.entries root p = some t) (hp : p.length + 1 < levels la57)
    (hpres : Entry.present (m.mem.entries t i) = true) :
    ∃ u, Entry.child (m.mem.entries t i) = some u ∧
      tableAt Entry.child m.mem.entries root (p ++ [i]) = some u ∧
      PointsTo la57 (m.mem.entries t i &&& ~~~511#64) u := by
  obtain ⟨hlarge, hmask⟩ := h.pointers p t i hp ht hpres
  have hc := child_of_present hpres hlarge
  refine ⟨_, hc, ?_, ?_⟩
  · rw [tableAt_append ht]
    simp [tableAt, hc]
  · rw [hmask]
    exact pointsTo_frameAddr la57 _

theorem pmm_descend_missing (h : Directory la57 m.mem root) (hptr : PointsTo la57 ptr t)
    (ht : tableAt Entry.child m.mem.entries root p = some t)
    (hlen : p.length + is.length + 1 = levels la57) :
    (descend la57 (handOut la57 frames) m ptr flags is).2.pmm ≤
      m.pmm + missing Entry.child m.mem.entries t is := by
  induction is generalizing ptr t p with
  | nil => exact le_rfl
  | cons i is ih =>
    simp only [List.length_cons] at hlen
    cases hpres : Entry.present (m.mem.entries t i) with
    | true =>
      obtain ⟨u, hc, hu, hptr'⟩ := child_step h ht (by omega) hpres
      simp only [descend, vmmGetPageMapLevel_of_present hptr hpres, missing, hc]
      exact ih hptr' hu (by simp; omega)
    | false =>
      obtain ⟨_, hle⟩ := pmm_descend la57 frames m ptr flags (i :: is)
      simpa only [missing, child_of_absent hpres, List.length_cons] using hle

/-- A table is linked in only with flags that allow it. -/
theorem linkable_of_absent (ht : tableAt Entry.child m.mem.entries root p = some t)
    (hpres : Entry.present (m.mem.entries t i) = false)
    (hfl : Linkable flags ∨
      ∃ u, tableAt Entry.child m.mem.entries root (p ++ [i] ++ is) = some u) : Linkable flags := by
  rcases hfl with hfl | ⟨u, hu⟩
  · exact hfl
  · rw [tableAt_append_none (tableAt_absent ht hpres)] at hu
    cases hu

/-- Descending to the level 1 table, with new tables linked in on the way where the flags allow. -/
theorem sound_descend (h : Sound la57 frames root N m) (hptr : PointsTo la57 ptr t)
    (ht : tableAt Entry.child m.mem.entries root p = some t)
    (hlen : p.length + is.length + 1 = levels la57)
    (hN : (descend la57 (handOut la57 frames) m ptr flags is).2.pmm ≤ N)
    (hfl : Linkable flags ∨ ∃ u, tableAt Entry.child m.mem.entries root (p ++ is) = some u) :
    let r := descend la57 (handOut la57 frames) m ptr flags is
    Sound la57 frames root N r.2 ∧
    (∃ u, tableAt Entry.child r.2.mem.entries root (p ++ is) = some u ∧ PointsTo la57 r.1 u) ∧
    ∀ v, walk la57 r.2.mem root v = walk la57 m.mem root v := by
  induction is generalizing m ptr t p with
  | nil => exact ⟨h, ⟨t, by rw [List.append_nil]; exact ht, hptr⟩, fun _ => rfl⟩
  | cons i is ih =>
    simp only [List.length_cons] at hlen
    have happ : p ++ i :: is = (p ++ [i]) ++ is := by simp
    rw [happ] at hfl ⊢
    cases hpres : Entry.present (m.mem.entries t i) with
    | true =>
      obtain ⟨u, _, hu, hptr'⟩ := child_step h.directory ht (by omega) hpres
      simp only [descend, vmmGetPageMapLevel_of_present hptr hpres] at hN ⊢
      exact ih h hptr' hu (by simp; omega) hN hfl
    | false =>
      have hlink := linkable_of_absent ht hpres hfl
      simp only [descend, vmmGetPageMapLevel_of_absent hptr hpres] at hN ⊢
      have hmono := (pmm_descend la57 frames _ _ flags is).1.trans hN
      obtain ⟨hs, hu, hw⟩ := h.store_link hmono hptr ht (by omega) hpres hlink
      rw [(hlink.entry _).2.1] at hN ⊢
      obtain ⟨hs', hu', hw'⟩ := ih hs (pointsTo_frameAddr la57 _) hu (by simp; omega) hN (.inl hlink)
      exact ⟨hs', hu', fun v => (hw' v).trans (hw v)⟩

/-- Descending with flags 0 from a table in which nothing is present: no table is linked in. -/
theorem sound_descend_bare (h : Sound la57 frames root N m) (hptr : PointsTo la57 ptr t)
    (ht : ∀ j, Entry.present (m.mem.entries t j) = false)
    (hN : (descend la57 (handOut la57 frames) m ptr 0#32 is).2.pmm ≤ N) :
    let r := descend la57 (handOut la57 frames) m ptr 0#32 is
    Sound la57 frames root N r.2 ∧
    (∃ u, PointsTo la57 r.1 u ∧ ∀ j, Entry.present (r.2.mem.entries u j) = false) ∧
    ∀ v, walk la57 r.2.mem root v = walk la57 m.mem root v := by
  induction is generalizing m ptr t with
  | nil => exact ⟨h, ⟨t, hptr, ht⟩, fun _ => rfl⟩
  | cons i is ih =>
    obtain ⟨he, hmask⟩ := absent_entry (frames m.pmm)
    simp only [descend, vmmGetPageMapLevel_of_absent hptr (ht i), hmask] at hN ⊢
    have hlt := (pmm_descend la57 frames _ _ 0#32 is).1.trans hN
    obtain ⟨hs, _, hw⟩ := h.take.store_absent hptr (ht i) he
    have hbare := (h.spare m.pmm le_rfl hlt).bare
    obtain ⟨hs', hu', hw'⟩ := ih hs (pointsTo_frameAddr la57 (frames m.pmm))
      (fun j => absent_store hptr he (hbare j)) hN
    exact ⟨hs', hu', fun v => (hw' v).trans (hw v)⟩

/-- Descending with flags 0 arrives at the level 1 table, if it is there; if it is not, it arrives
at a table outside the tree. -/
theorem sound_descend_unmap (h : Sound la57 frames root N m) (hptr : PointsTo la57 ptr t)
    (ht : tableAt Entry.child m.mem.entries root p = some t)
    (hlen : p.length + is.length + 1 = levels la57)
    (hN : (descend la57 (handOut la57 frames) m ptr 0#32 is).2.pmm ≤ N) :
    let r := descend la57 (handOut la57 frames) m ptr 0#32 is
    Sound la57 frames root N r.2 ∧
    (∃ u, PointsTo la57 r.1 u ∧
      (tableAt Entry.child r.2.mem.entries root (p ++ is) = some u ∨
        (tableAt Entry.child m.mem.entries root (p ++ is) = none ∧
          ∀ j, Entry.present (r.2.mem.entries u j) = false))) ∧
    ∀ v, walk la57 r.2.mem root v = walk la57 m.mem root v := by
  induction is generalizing m ptr t p with
  | nil => exact ⟨h, ⟨t, hptr, .inl (by rw [List.append_nil]; exact ht)⟩, fun _ => rfl⟩
  | cons i is ih =>
    simp only [List.length_cons] at hlen
    have happ : p ++ i :: is = (p ++ [i]) ++ is := by simp
    rw [happ]
    cases hpres : Entry.present (m.mem.entries t i) with
    | true =>
      obtain ⟨u, _, hu, hptr'⟩ := child_step h.directory ht (by omega) hpres
      simp only [descend, vmmGetPageMapLevel_of_present hptr hpres] at hN ⊢
      exact ih h hptr' hu (by simp; omega) hN
    | false =>
      obtain ⟨he, hmask⟩ := absent_entry (frames m.pmm)
      simp only [descend, vmmGetPageMapLevel_of_absent hptr hpres, hmask] at hN ⊢
      have hlt := (pmm_descend la57 frames _ _ 0#32 is).1.trans hN
      obtain ⟨hs, _, hw⟩ := h.take.store_absent hptr hpres he
      have hbare := (h.spare m.pmm le_rfl hlt).bare
      obtain ⟨hs', ⟨u, hu, hu'⟩, hw'⟩ := sound_descend_bare hs (pointsTo_frameAddr la57 (frames m.pmm))
        (fun j => absent_store hptr he (hbare j)) hN
      have hnone := tableAt_append_none (q := is) (tableAt_absent ht hpres)
      exact ⟨hs', ⟨u, hu, .inr ⟨hnone, hu'⟩⟩, fun v => (hw' v).trans (hw v)⟩

/-- `vmm_map_page` writes the leaf entry, and the walks of the other pages stay. -/
theorem sound_map (h : Sound la57 frames root N m) (hptr : PointsTo la57 ptr root)
    (hN : (vmmMapPage la57 (handOut la57 frames) m ptr pa va flags).pmm ≤ N)
    (hva : IsPage la57 va)
    (hfl : Linkable flags ∨
      ∃ u, tableAt Entry.child m.mem.entries root (upperIndices la57 va) = some u) :
    let m' := vmmMapPage la57 (handOut la57 frames) m ptr pa va flags
    Sound la57 frames root N m' ∧
    walk la57 m'.mem root va = finish va 0 (pa ||| flags.signExtend 64) ∧
    ∀ w, IsPage la57 w → w ≠ va → walk la57 m'.mem root w = walk la57 m.mem root w := by
  rw [vmmMapPage_eq] at hN ⊢
  have hlen := length_upperIndices la57 va
  obtain ⟨hs, ⟨u, hu, hptr'⟩, hw⟩ :=
    sound_descend (p := []) h hptr rfl (by simpa using hlen) hN hfl
  obtain ⟨hs', hself, hother⟩ := hs.store_leaf hptr' hu (pa ||| flags.signExtend 64)
  exact ⟨hs', hself, fun w hwp hne => (hother w hva hwp hne).trans (hw w)⟩

/-- `vmm_unmap_page` leaves the page unmapped, and the walks of the other pages stay. -/
theorem sound_unmap (h : Sound la57 frames root N m) (hptr : PointsTo la57 ptr root)
    (hN : (vmmUnmapPage la57 (handOut la57 frames) m ptr va).pmm ≤ N) (hva : IsPage la57 va) :
    let m' := vmmUnmapPage la57 (handOut la57 frames) m ptr va
    Sound la57 frames root N m' ∧ walk la57 m'.mem root va = .notPresent ∧
    ∀ w, IsPage la57 w → w ≠ va → walk la57 m'.mem root w = walk la57 m.mem root w := by
  rw [vmmUnmapPage_eq] at hN ⊢
  have hlen := length_upperIndices la57 va
  obtain ⟨hs, ⟨u, hptr', hu⟩, hw⟩ :=
    sound_descend_unmap (p := []) h hptr rfl (by simpa using hlen) hN
  rcases hu with hu | ⟨hnone, hu⟩
  · obtain ⟨hs', hself, hother⟩ := hs.store_leaf hptr' hu 0#64
    refine ⟨hs', ?_, fun w hwp hne => (hother w hva hwp hne).trans (hw w)⟩
    exact hself.trans (finish_notPresent _ _ (by decide))
  · obtain ⟨hs', _, hw'⟩ := hs.store_absent hptr' (hu (leafIndex va)) (e := 0#64) (by decide)
    refine ⟨hs', ?_, fun w _ _ => (hw' w).trans (hw w)⟩
    exact ((hw' va).trans (hw va)).trans (walk_of_missing h.directory hnone)

/-! Runs of calls on the directory that `vmm_create_page_directory` made. -/

inductive Call
  | map (physicalAddress virtualAddress : Word) (flags : BitVec 32)
  | unmap (virtualAddress : Word)

/-- The arguments a caller may pass. -/
def Call.Valid (la57 : Bool) : Call → Prop
  | .map pa va flags => pa.toNat % 4096 = 0 ∧ pa.toNat < 2 ^ 52 ∧ IsPage la57 va ∧
      flags.toNat < 512 ∧ flags.getLsbD 0 = true
  | .unmap va => IsPage la57 va

def Call.apply (la57 : Bool) (frames : ℕ → Frame) (dir : Word) (m : Machine ℕ) : Call → Machine ℕ
  | .map pa va flags => vmmMapPage la57 (handOut la57 frames) m dir pa va flags
  | .unmap va => vmmUnmapPage la57 (handOut la57 frames) m dir va

/-- A call with any allocator. -/
def Call.applyWith {σ : Type*} (la57 : Bool) (pmmAlloc : σ → ℕ → Word × σ) (dir : Word)
    (m : Machine σ) : Call → Machine σ
  | .map pa va flags => vmmMapPage la57 pmmAlloc m dir pa va flags
  | .unmap va => vmmUnmapPage la57 pmmAlloc m dir va

/-- The flat map from virtual pages to frames and flags. -/
abbrev PageMap := Word → Option (Word × BitVec 9)

/-- What a call means for the flat map. -/
def Call.update (f : PageMap) : Call → PageMap
  | .map pa va flags => Function.update f va (some (pa, flags.setWidth 9))
  | .unmap va => Function.update f va none

def mappings (calls : List Call) : PageMap := calls.foldl Call.update fun _ => none

def Walk.ofMapping : Option (Word × BitVec 9) → Walk
  | none => .notPresent
  | some (pa, flags) => .page pa flags

/-- A call of `vmm_map_page` with the PAT flag finds the tables above level 1 in place. -/
def PatInPlace (la57 : Bool) (root : Frame) (m : Machine ℕ) : Call → Prop
  | .map _ va flags => flags.getLsbD 7 = false ∨
      missing Entry.child m.mem.entries root (upperIndices la57 va) = 0
  | .unmap _ => True

def Step (la57 : Bool) (frames : ℕ → Frame) (dir : Word) (m : Machine ℕ) (a : Call)
    (m' : Machine ℕ) : Prop :=
  a.Valid la57 ∧ m' = a.apply la57 frames dir m

/-- A step that meets the condition. -/
def GuardedStep (la57 : Bool) (frames : ℕ → Frame) (dir : Word) (m : Machine ℕ) (a : Call)
    (m' : Machine ℕ) : Prop :=
  Step la57 frames dir m a m' ∧ PatInPlace la57 (frames 0) m a

/-- The walks find what the flat map says. -/
def Refines (la57 : Bool) (root : Frame) (m : Machine ℕ) (f : PageMap) : Prop :=
  ∀ v, IsPage la57 v → walk la57 m.mem root v = Walk.ofMapping (f v)

theorem Call.apply_eq (la57 : Bool) (frames : ℕ → Frame) (dir : Word) (m : Machine ℕ) (a : Call) :
    a.apply la57 frames dir m = a.applyWith la57 (handOut la57 frames) dir m := by
  cases a <;> rfl

theorem pmm_applyWith {A : ℕ → ℕ → Word × ℕ} (la57 : Bool) (hA : ∀ k n, (A k n).2 = k + 1)
    (dir : Word) (m : Machine ℕ) (a : Call) :
    m.pmm ≤ (a.applyWith la57 A dir m).pmm ∧ (a.applyWith la57 A dir m).pmm ≤ m.pmm + 4 := by
  have hlevels : levels la57 ≤ 5 := by cases la57 <;> decide
  cases a with
  | map pa va flags =>
    have hlen := length_upperIndices la57 va
    obtain ⟨h1, h2⟩ := pmm_descend_counting la57 hA m dir flags (upperIndices la57 va)
    rw [Call.applyWith, vmmMapPage_eq]
    exact ⟨h1, h2.trans (by omega)⟩
  | unmap va =>
    have hlen := length_upperIndices la57 va
    obtain ⟨h1, h2⟩ := pmm_descend_counting la57 hA m dir 0#32 (upperIndices la57 va)
    rw [Call.applyWith, vmmUnmapPage_eq]
    exact ⟨h1, h2.trans (by omega)⟩

theorem pmm_step {dir : Word} {a : Call} (h : Step la57 frames dir m a m') : m.pmm ≤ m'.pmm := by
  obtain ⟨_, rfl⟩ := h
  rw [Call.apply_eq]
  exact (pmm_applyWith la57 (fun _ _ => rfl) dir m a).1

/-- The leaf entry of a valid call is found as it was asked for. -/
theorem finish_leaf (ha : pa.toNat % 4096 = 0) (hlt : pa.toNat < 2 ^ 52)
    (hf : flags.toNat < 512) (h0 : flags.getLsbD 0 = true) :
    finish va 0 (pa ||| flags.signExtend 64) = .page pa (flags.setWidth 9) := by
  have hn := toNat_signExtend_flags hf
  obtain ⟨h1, _, h3, h4, _⟩ := entry_fields (flags.signExtend 64) ha hlt (by omega)
  rw [getLsbD_signExtend_flags 0 (by decide), h0] at h4
  have hset : (flags.signExtend 64).setWidth 9 = flags.setWidth 9 := by
    apply BitVec.eq_of_toNat_eq
    rw [BitVec.toNat_setWidth, BitVec.toNat_setWidth, hn]
  simp only [finish, h4, Bool.not_true, Bool.false_eq_true, if_false, if_true, h1, h3, hset]

/-- A valid call either links its tables in properly or finds them in place. -/
theorem linkable_or_inPlace (hv : (Call.map pa va flags).Valid la57)
    (hg : PatInPlace la57 root m (.map pa va flags)) :
    Linkable flags ∨
      ∃ u, tableAt Entry.child m.mem.entries root (upperIndices la57 va) = some u := by
  obtain ⟨_, _, _, hlow, h0⟩ := hv
  rcases hg with h7 | hmiss
  · exact .inl ⟨hlow, h0, h7⟩
  · exact .inr (missing_eq_zero_iff.mp hmiss)

/-- The simulation step. -/
theorem refines_step {f : PageMap} {dir : Word} {a : Call} (h : Sound la57 frames root N m)
    (hdir : PointsTo la57 dir root) (hr : Refines la57 root m f) (hs : Step la57 frames dir m a m')
    (hg : PatInPlace la57 root m a) (hN : m'.pmm ≤ N) :
    Sound la57 frames root N m' ∧ Refines la57 root m' (a.update f) := by
  obtain ⟨hvalid, rfl⟩ := hs
  cases a with
  | map pa va flags =>
    have hfl := linkable_or_inPlace hvalid hg
    obtain ⟨ha, hlt, hva, hlow, h0⟩ := hvalid
    obtain ⟨hsound, hself, hother⟩ := sound_map h hdir hN hva hfl
    refine ⟨hsound, ?_⟩
    intro v hv
    by_cases hvva : v = va
    · subst hvva
      simp only [Call.apply, Call.update, Function.update_self, Walk.ofMapping]
      rw [hself, finish_leaf ha hlt hlow h0]
    · simp only [Call.apply, Call.update, Function.update_of_ne hvva]
      rw [hother v hv hvva, hr v hv]
  | unmap va =>
    obtain ⟨hsound, hself, hother⟩ := sound_unmap h hdir hN hvalid
    refine ⟨hsound, ?_⟩
    intro v hv
    by_cases hvva : v = va
    · subst hvva
      simp only [Call.apply, Call.update, Function.update_self, Walk.ofMapping]
      exact hself
    · simp only [Call.apply, Call.update, Function.update_of_ne hvva]
      rw [hother v hv hvva, hr v hv]

/-- A new directory, made by the first call of `pmm_alloc`. -/
def created (la57 : Bool) (frames : ℕ → Frame) (mem : Memory) : Word × Machine ℕ :=
  vmmCreatePageDirectory la57 (handOut la57 frames) ⟨mem, 0⟩

/-- What is assumed of the first `n` frames that `pmm_alloc` hands out. -/
structure FreshFrames (frames : ℕ → Frame) (mem : Memory) (n : ℕ) : Prop where
  low : ∀ k < n, (frames k).toNat < 2 ^ 35
  distinct : ∀ j k, j < k → k < n → frames j ≠ frames k
  zero : ∀ k < n, ∀ i, mem.entries (frames k) i = 0#64

theorem entries_created {mem : Memory} (h : FreshFrames frames mem N) {k : ℕ} (hk : k < N) :
    (created la57 frames mem).2.mem.entries (frames k) i = 0#64 := by
  have hz := h.zero k hk i
  simp only [created, vmmCreatePageDirectory, Machine.clear, Memory.entries] at hz ⊢
  split
  · rfl
  · exact hz

theorem sound_created (la57 : Bool) {mem : Memory} (h : FreshFrames frames mem N) (hN : 0 < N) :
    Sound la57 frames (frames 0) N (created la57 frames mem).2 ∧
    Refines la57 (frames 0) (created la57 frames mem).2 fun _ => none := by
  have habs : ∀ k < N, ∀ i,
      Entry.present ((created la57 frames mem).2.mem.entries (frames k) i) = false := by
    intro k hk i
    rw [entries_created h hk]
    decide
  have hroot := fun i => child_of_absent (habs 0 hN i)
  have hdir := directory_of_bare la57 (habs 0 hN)
  refine ⟨⟨hdir, ?_, ?_⟩, ?_⟩
  · intro k hk hkN
    refine ⟨?_, habs k hkN⟩
    rintro ⟨p, _, hp⟩
    obtain ⟨_, heq⟩ := tableAt_childless hroot hp
    exact h.distinct 0 k hk hkN heq.symm
  · intro j k _ hjk hkN
    exact h.distinct j k hjk hkN
  · intro v _
    apply walk_of_missing hdir
    cases ht : tableAt Entry.child (created la57 frames mem).2.mem.entries (frames 0)
      (upperIndices la57 v) with
    | none => rfl
    | some t =>
      have hlen := length_upperIndices la57 v
      rw [(tableAt_childless hroot ht).1] at hlen
      cases la57 <;> cases hlen

theorem pmm_run {dir : Word} {calls : List Call} (h : Run (GuardedStep la57 frames dir) m calls m') :
    m.pmm ≤ m'.pmm :=
  h.invariant (P := fun s => m.pmm ≤ s.pmm) le_rfl fun _ _ _ hs hst => hs.trans (pmm_step hst.1)

/-- The simulation over a run. -/
theorem refines_run {f : PageMap} {dir : Word} {calls : List Call}
    (h : Run (GuardedStep la57 frames dir) m calls m') (hs : Sound la57 frames (frames 0) N m)
    (hdir : PointsTo la57 dir (frames 0)) (hr : Refines la57 (frames 0) m f) (hN : m'.pmm ≤ N) :
    Refines la57 (frames 0) m' (calls.foldl Call.update f) := by
  induction h generalizing f with
  | refl => exact hr
  | stepL hst htail ih =>
    obtain ⟨hs', hr'⟩ := refines_step hs hdir hr hst.1 hst.2 ((pmm_run htail).trans hN)
    exact ih hs' hr' hN

/-- After every run in which calls with the PAT flag find their tables in place, the page walk of
every virtual page finds what the calls say. -/
theorem walk_refines (la57 : Bool) (frames : ℕ → Frame) (mem : Memory) (calls : List Call)
    (m : Machine ℕ)
    (h : Run (GuardedStep la57 frames (created la57 frames mem).1) (created la57 frames mem).2 calls m)
    (hfresh : FreshFrames frames mem m.pmm) (v : Word) (hv : IsPage la57 v) :
    pageWalk la57 m.mem (vmmActivatePageDirectory la57 (created la57 frames mem).1) v =
      Walk.ofMapping (mappings calls v) := by
  have hpos : 0 < m.pmm := lt_of_lt_of_le Nat.zero_lt_one (pmm_run h)
  obtain ⟨hs, hr⟩ := sound_created la57 hfresh hpos
  have hdir := pointsTo_higherHalf la57 (hfresh.low 0 hpos)
  have hroot : vmmActivatePageDirectory la57 (created la57 frames mem).1 = frameAddr (frames 0) :=
    higherHalfDataToPhys_physToHigherHalfData la57 _
  rw [hroot]
  exact refines_run h hs hdir hr le_rfl v hv

/-- Frames 1, 2, 3, ... of a memory full of zeros. -/
def lowFrames (k : ℕ) : Frame := BitVec.ofNat 40 (k + 1)

theorem lowFrames_fresh (hn : N < 2 ^ 30) : FreshFrames lowFrames (fun _ => 0#64) N := by
  refine ⟨?_, ?_, fun _ _ _ => rfl⟩
  · intro k hk
    rw [lowFrames, BitVec.toNat_ofNat]
    omega
  · intro j k hjk hk he
    have hn := congrArg BitVec.toNat he
    rw [lowFrames, lowFrames, BitVec.toNat_ofNat, BitVec.toNat_ofNat] at hn
    omega

/-- Two pages in one level 1 table, the second with the PAT flag; then the first is unmapped. -/
def lowCalls : List Call :=
  [.map 0x5000#64 0x200000#64 3#32, .map 0x6000#64 0x201000#64 0x83#32, .unmap 0x200000#64]

/-- The state after the first `k` of them. -/
def lowState (k : ℕ) : Machine ℕ :=
  (lowCalls.take k).foldl (Call.apply false lowFrames (created false lowFrames fun _ => 0#64).1)
    (created false lowFrames fun _ => 0#64).2

theorem lowCalls_steps :
    let step := GuardedStep false lowFrames (created false lowFrames fun _ => 0#64).1
    step (lowState 0) (.map 0x5000#64 0x200000#64 3#32) (lowState 1) ∧
    step (lowState 1) (.map 0x6000#64 0x201000#64 0x83#32) (lowState 2) ∧
    step (lowState 2) (.unmap 0x200000#64) (lowState 3) := by
  have hfirst : (Call.map 0x5000#64 0x200000#64 3#32).Valid false :=
    ⟨by decide, by decide, ⟨by decide, by decide⟩, by decide, by decide⟩
  have hsecond : (Call.map 0x6000#64 0x201000#64 0x83#32).Valid false :=
    ⟨by decide, by decide, ⟨by decide, by decide⟩, by decide, by decide⟩
  have hthird : (Call.unmap 0x200000#64).Valid false := ⟨by decide, by decide⟩
  -- the second call finds the tables that the first one has made
  exact ⟨⟨⟨hfirst, rfl⟩, .inl (by decide)⟩, ⟨⟨hsecond, rfl⟩, .inr (by decide +kernel)⟩,
    ⟨hthird, rfl⟩, trivial⟩

theorem lowCalls_run :
    Run (GuardedStep false lowFrames (created false lowFrames fun _ => 0#64).1)
      (created false lowFrames fun _ => 0#64).2 lowCalls (lowState 3) := by
  obtain ⟨hfirst, hsecond, hthird⟩ := lowCalls_steps
  exact .stepL hfirst (.stepL hsecond (.stepL hthird (.refl _)))

theorem walk_refines_lowFrames :
    pageWalk false (lowState 3).mem 0x1000#64 0x200000#64 = .notPresent ∧
    pageWalk false (lowState 3).mem 0x1000#64 0x201000#64 = .page 0x6000#64 0x83#9 := by
  have hwalk := walk_refines false lowFrames (fun _ => 0#64) lowCalls (lowState 3) lowCalls_run
    (lowFrames_fresh (by decide +kernel))
  exact ⟨hwalk 0x200000#64 ⟨by decide, by decide⟩, hwalk 0x201000#64 ⟨by decide, by decide⟩⟩

/-- The PAT flag of a page reaches the entries that link in its new tables, where the bit is
reserved: the page that was just mapped faults. -/
theorem walk_refines_fails :
    ¬ ∀ (la57 : Bool) (frames : ℕ → Frame) (mem : Memory) (calls : List Call) (m : Machine ℕ),
      Run (Step la57 frames (created la57 frames mem).1) (created la57 frames mem).2 calls m →
      FreshFrames frames mem m.pmm → ∀ v, IsPage la57 v →
      pageWalk la57 m.mem (vmmActivatePageDirectory la57 (created la57 frames mem).1) v =
        Walk.ofMapping (mappings calls v) := by
  intro h
  have hvalid : (Call.map 0x5000#64 0x200000#64 0x81#32).Valid false :=
    ⟨by decide, by decide, ⟨by decide, by decide⟩, by decide, by decide⟩
  have hwalk := h false lowFrames (fun _ => 0#64) [.map 0x5000#64 0x200000#64 0x81#32] _
    (.stepL ⟨hvalid, rfl⟩ (.refl _)) (lowFrames_fresh (by decide)) 0x200000#64
    ⟨by decide, by decide⟩
  exact absurd hwalk (by decide)

end KnutOS.Vmm
