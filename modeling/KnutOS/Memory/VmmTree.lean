import KnutOS.Memory.Vmm

/-! What the stores of the virtual memory manager do to the tree of tables, and to the page
walks over it. -/
namespace KnutOS.Vmm

open Foundation RadixTree

/-- `pmm_alloc(1)`, where call number `k` hands out frame `frames k`. -/
def handOut (la57 : Bool) (frames : ℕ → Frame) (k _pageCount : ℕ) : Word × ℕ :=
  (physToHigherHalfData la57 (frameAddr (frames k)), k + 1)

/-- An entry that the masks of the kernel and of the processor take for the same table. -/
def PointerEntry (e : Word) : Prop :=
  Entry.large e = false ∧ e &&& ~~~511#64 = frameAddr (Entry.frame e)

/-- No table is shared, and what is present above level 1 points to a table. -/
structure Directory (la57 : Bool) (mem : Memory) (root : Frame) : Prop where
  unshared : Unshared Entry.child mem.entries root (levels la57)
  pointers : ∀ p t i, p.length + 1 < levels la57 →
    tableAt Entry.child mem.entries root p = some t →
    Entry.present (mem.entries t i) = true → PointerEntry (mem.entries t i)

/-- A frame outside the tree, in which no entry is present. -/
structure Spare (la57 : Bool) (mem : Memory) (root f : Frame) : Prop where
  outside : ¬ Reached Entry.child mem.entries root (levels la57) f
  bare : ∀ i, Entry.present (mem.entries f i) = false

/-- The tables are in order, and so are the frames still to be handed out, up to the `N`-th. -/
structure Sound (la57 : Bool) (frames : ℕ → Frame) (root : Frame) (N : ℕ) (m : Machine ℕ) :
    Prop where
  directory : Directory la57 m.mem root
  spare : ∀ k, m.pmm ≤ k → k < N → Spare la57 m.mem root (frames k)
  distinct : ∀ j k, m.pmm ≤ j → j < k → k < N → frames j ≠ frames k

/-- Flags with which a new table is linked in properly. -/
structure Linkable (flags : BitVec 32) : Prop where
  low : flags.toNat < 512
  present : flags.getLsbD 0 = true
  small : flags.getLsbD 7 = false

/-- The page walk from the table in frame `root`. -/
abbrev walk (la57 : Bool) (mem : Memory) (root : Frame) (v : Word) : Walk :=
  pageWalk la57 mem (frameAddr root) v

variable {la57 : Bool} {frames : ℕ → Frame} {root t f : Frame} {N : ℕ} {m : Machine ℕ}
  {mem mem' : Memory} {ptr e v : Word} {flags : BitVec 32} {i : Index} {p : List Index}

theorem toNat_signExtend_flags (h : flags.toNat < 512) :
    (flags.signExtend 64).toNat = flags.toNat := by
  have hm : flags.msb = false := by
    rw [BitVec.msb_eq_decide]
    simp
    omega
  rw [BitVec.toNat_signExtend, BitVec.toNat_setWidth, hm]
  simp
  omega

theorem getLsbD_signExtend_flags (k : ℕ) (h : k < 32) :
    (flags.signExtend 64).getLsbD k = flags.getLsbD k := by
  rw [BitVec.getLsbD_signExtend]
  simp [h, show k < 64 by omega]

/-- The entry that `vmm_get_page_map_level` writes for a new table in frame `f`. -/
theorem link_fields (flags : BitVec 32) (h : flags.toNat < 512) (f : Frame) :
    let e := frameAddr f ||| flags.signExtend 64
    Entry.frame e = f ∧ e &&& ~~~511#64 = frameAddr f ∧ Entry.present e = flags.getLsbD 0 ∧
      Entry.large e = flags.getLsbD 7 := by
  have hf := f.isLt
  have ha := toNat_frameAddr f
  have hn := toNat_signExtend_flags h
  obtain ⟨h1, h2, _, h4, h5⟩ := entry_fields (flags.signExtend 64)
    (a := frameAddr f) (by omega) (by omega) (by omega)
  rw [getLsbD_signExtend_flags 0 (by decide)] at h4
  rw [getLsbD_signExtend_flags 7 (by decide)] at h5
  exact ⟨frameAddr_injective h1, h2, h4, h5⟩

theorem Linkable.entry (h : Linkable flags) (f : Frame) :
    let e := frameAddr f ||| flags.signExtend 64
    Entry.child e = some f ∧ e &&& ~~~511#64 = frameAddr f ∧ PointerEntry e := by
  obtain ⟨h1, h2, h3, h4⟩ := link_fields flags h.low f
  rw [h.present] at h3
  rw [h.small] at h4
  exact ⟨by rw [child_of_present h3 h4, h1], h2, h4, by rw [h2, h1]⟩

/-- With flags 0 the entry is absent. -/
theorem absent_entry (f : Frame) :
    let e := frameAddr f ||| (0#32).signExtend 64
    Entry.present e = false ∧ e &&& ~~~511#64 = frameAddr f := by
  obtain ⟨_, h2, h3, _⟩ := link_fields 0#32 (by decide) f
  exact ⟨h3, h2⟩

/-! Page walks as lookups in the tree. -/

theorem walk_of_lookup {l : ℕ}
    (h : lookup Entry.child mem.entries root (indices la57 v) = some (l, e)) :
    walk la57 mem root v = finish v l e := by
  simp only [walk, pageWalk, frame_frameAddr, h]

theorem walk_congr (h : lookup Entry.child mem'.entries root (indices la57 v) =
    lookup Entry.child mem.entries root (indices la57 v)) :
    walk la57 mem' root v = walk la57 mem root v := by
  simp only [walk, pageWalk, frame_frameAddr, h]

/-- A walk that ends at an absent entry before and after has not changed. -/
theorem walk_congr_absent {l l' : ℕ} {e' : Word}
    (h : lookup Entry.child mem.entries root (indices la57 v) = some (l, e))
    (h' : lookup Entry.child mem'.entries root (indices la57 v) = some (l', e'))
    (he : Entry.present e = false) (he' : Entry.present e' = false) :
    walk la57 mem' root v = walk la57 mem root v := by
  rw [walk_of_lookup h, walk_of_lookup h', finish_notPresent _ _ he, finish_notPresent _ _ he']

/-! Stores through a pointer to a table. -/

theorem load_slot (h : PointsTo la57 ptr t) :
    m.load la57 (ptr + 8#64 * i.setWidth 64) = m.mem.entries t i := congrArg m.mem (h i)

theorem entries_store (h : PointsTo la57 ptr t) :
    (m.store la57 (ptr + 8#64 * i.setWidth 64) e).mem.entries = write m.mem.entries t i e := by
  rw [Machine.store, h i]
  exact entries_update m.mem t i e

/-- A store of an absent entry makes no entry present. -/
theorem absent_store (h : PointsTo la57 ptr t) (he : Entry.present e = false) {s : Frame}
    {j : Index} (hsj : Entry.present (m.mem.entries s j) = false) :
    Entry.present ((m.store la57 (ptr + 8#64 * i.setWidth 64) e).mem.entries s j) = false := by
  rw [entries_store h]
  by_cases hst : s = t ∧ j = i
  · obtain ⟨rfl, rfl⟩ := hst
    rwa [write_self]
  · rwa [write_of_ne hst]

/-! `vmm_get_page_map_level` with any allocator. -/

section

variable {σ : Type*} {s : Machine σ} {ix : Word}

theorem getPageMapLevel_of_present (A : σ → ℕ → Word × σ) (flags : BitVec 32)
    (hp : Entry.present (s.load la57 (ptr + 8#64 * ix)) = true) :
    vmmGetPageMapLevel la57 A s ptr ix flags =
      (s.load la57 (ptr + 8#64 * ix) &&& ~~~511#64, s) := by
  have hne : ¬ s.load la57 (ptr + 8#64 * ix) &&& 1#64 = 0#64 := by
    rw [← present_eq_false_iff, hp]
    decide
  simp only [vmmGetPageMapLevel, ne_eq, hne, not_false_eq_true, if_true]

theorem getPageMapLevel_of_absent (A : σ → ℕ → Word × σ) (flags : BitVec 32)
    (hp : Entry.present (s.load la57 (ptr + 8#64 * ix)) = false) :
    let link := higherHalfDataToPhys la57 (A s.pmm 1).1 ||| flags.signExtend 64
    vmmGetPageMapLevel la57 A s ptr ix flags = (link &&& ~~~511#64,
      Machine.store la57 ⟨s.mem, (A s.pmm 1).2⟩ (ptr + 8#64 * ix) link) := by
  have he := (present_eq_false_iff _).mp hp
  simp only [vmmGetPageMapLevel, he, ne_eq, not_true_eq_false, if_false]
  simp only [Machine.load, Machine.store, Function.update_self]

end

theorem vmmGetPageMapLevel_of_present (h : PointsTo la57 ptr t)
    (hp : Entry.present (m.mem.entries t i) = true) :
    vmmGetPageMapLevel la57 (handOut la57 frames) m ptr (i.setWidth 64) flags =
      (m.mem.entries t i &&& ~~~511#64, m) := by
  rw [← load_slot h] at hp ⊢
  exact getPageMapLevel_of_present _ flags hp

theorem vmmGetPageMapLevel_of_absent (h : PointsTo la57 ptr t)
    (hp : Entry.present (m.mem.entries t i) = false) :
    vmmGetPageMapLevel la57 (handOut la57 frames) m ptr (i.setWidth 64) flags =
      ((frameAddr (frames m.pmm) ||| flags.signExtend 64) &&& ~~~511#64,
        Machine.store la57 ⟨m.mem, m.pmm + 1⟩ (ptr + 8#64 * i.setWidth 64)
          (frameAddr (frames m.pmm) ||| flags.signExtend 64)) := by
  rw [← load_slot h] at hp
  rw [getPageMapLevel_of_absent _ flags hp]
  simp only [handOut, higherHalfDataToPhys_physToHigherHalfData]

theorem Sound.take (h : Sound la57 frames root N m) :
    Sound la57 frames root N ⟨m.mem, m.pmm + 1⟩ :=
  ⟨h.directory, fun k hk => h.spare k (Nat.le_of_succ_le hk),
    fun j k hj => h.distinct j k (Nat.le_of_succ_le hj)⟩

/-- Below an absent entry there is no table. -/
theorem tableAt_absent (ht : tableAt Entry.child mem.entries root p = some t)
    (ho : Entry.present (mem.entries t i) = false) :
    tableAt Entry.child mem.entries root (p ++ [i]) = none := by
  rw [tableAt_append ht]
  simp [tableAt, child_of_absent ho]

/-- A level 1 table is not also a table further up. -/
theorem ne_leaf_table (hu : Unshared Entry.child mem.entries root (levels la57))
    (ht : tableAt Entry.child mem.entries root (upperIndices la57 v) = some t)
    (hp : p.length + 1 < levels la57) (hf : tableAt Entry.child mem.entries root p = some f) :
    f ≠ t := by
  have hlen := length_upperIndices la57 v
  rintro rfl
  have heq := congrArg List.length (hu _ _ _ (by omega) (by omega) hf ht)
  omega

/-- Overwriting an absent entry, wherever it lies, by another one. -/
theorem Sound.store_absent (h : Sound la57 frames root N m) (hptr : PointsTo la57 ptr t)
    (ho : Entry.present (m.mem.entries t i) = false) (he : Entry.present e = false) :
    Sound la57 frames root N (m.store la57 (ptr + 8#64 * i.setWidth 64) e) ∧
    (∀ p, tableAt Entry.child (m.store la57 (ptr + 8#64 * i.setWidth 64) e).mem.entries root p =
      tableAt Entry.child m.mem.entries root p) ∧
    ∀ v, walk la57 (m.store la57 (ptr + 8#64 * i.setWidth 64) e).mem root v =
      walk la57 m.mem root v := by
  have hent := entries_store (m := m) (i := i) (e := e) hptr
  have htab : ∀ s p, tableAt Entry.child (write m.mem.entries t i e) s p =
      tableAt Entry.child m.mem.entries s p :=
    fun s p => tableAt_write_childless (child_of_absent ho) (child_of_absent he)
  refine ⟨⟨⟨?_, ?_⟩, ?_, h.distinct⟩, ?_, ?_⟩
  · intro p q u hp hq
    rw [hent, htab, htab]
    exact h.directory.unshared p q u hp hq
  · intro p s j hp
    rw [hent, htab]
    intro hs hpres
    have hst : ¬ (s = t ∧ j = i) := by
      rintro ⟨rfl, rfl⟩
      rw [write_self, he] at hpres
      cases hpres
    rw [write_of_ne hst] at hpres ⊢
    exact h.directory.pointers p s j hp hs hpres
  · intro k hk hkN
    obtain ⟨hout, hbare⟩ := h.spare k hk hkN
    refine ⟨?_, fun j => absent_store hptr he (hbare j)⟩
    rintro ⟨p, hp, hu⟩
    rw [hent, htab] at hu
    exact hout ⟨p, hp, hu⟩
  · intro p
    rw [hent, htab]
  · intro v
    rcases lookup_write_childless (s := root) (q := indices la57 v) (child_of_absent ho)
      (child_of_absent he) with hl | ⟨l, h1, h2⟩
    · exact walk_congr (by rw [hent, hl])
    · exact walk_congr_absent h1 (by rw [hent, h2]) ho he

/-- Linking the next frame in under an absent entry of a table above level 1. -/
theorem Sound.store_link (h : Sound la57 frames root N m) (hN : m.pmm < N)
    (hptr : PointsTo la57 ptr t) (ht : tableAt Entry.child m.mem.entries root p = some t)
    (hp : p.length + 1 < levels la57) (ho : Entry.present (m.mem.entries t i) = false)
    (hfl : Linkable flags) :
    let m' := Machine.store la57 ⟨m.mem, m.pmm + 1⟩ (ptr + 8#64 * i.setWidth 64)
      (frameAddr (frames m.pmm) ||| flags.signExtend 64)
    Sound la57 frames root N m' ∧
    tableAt Entry.child m'.mem.entries root (p ++ [i]) = some (frames m.pmm) ∧
    ∀ v, walk la57 m'.mem root v = walk la57 m.mem root v := by
  intro m'
  obtain ⟨hchild, _, hpointer⟩ := hfl.entry (frames m.pmm)
  have hent : m'.mem.entries = write m.mem.entries t i _ :=
    entries_store (m := ⟨m.mem, m.pmm + 1⟩) hptr
  obtain ⟨hout, hbare⟩ := h.spare m.pmm le_rfl hN
  have hu := h.directory.unshared
  have hbare' : ∀ j, Entry.child (m.mem.entries (frames m.pmm) j) = none :=
    fun j => child_of_absent (hbare j)
  have hself := tableAt_link_self (i := i) hu ht hp hchild
  refine ⟨⟨⟨?_, ?_⟩, ?_, fun j k hj => h.distinct j k (Nat.le_of_succ_le hj)⟩, ?_, ?_⟩
  · rw [hent]
    exact unshared_link hu ht hp hchild hout hbare'
  · intro q s j hq
    rw [hent]
    intro hs hpres
    by_cases hst : s = t ∧ j = i
    · obtain ⟨rfl, rfl⟩ := hst
      rw [write_self]
      exact hpointer
    · rw [write_of_ne hst] at hpres ⊢
      rcases tableAt_link hu ht hp hchild hout hbare' (by omega) hs with ⟨rfl, _⟩ | hs'
      · rw [hbare j] at hpres
        cases hpres
      · exact h.directory.pointers q s j hq hs' hpres
  · intro k hk hkN
    have hne := h.distinct m.pmm k le_rfl hk hkN
    obtain ⟨houtk, hbarek⟩ := h.spare k (Nat.le_of_succ_le hk) hkN
    refine ⟨?_, fun j => ?_⟩
    · rw [hent]
      exact not_reached_link hu ht hp hchild hout hbare' hne houtk
    · rw [hent, write_other (ne_of_not_reached houtk ht (by omega))]
      exact hbarek j
  · rw [hent]
    exact hself
  · intro v
    rcases lookup_link (i := i) hu ht hp hchild hout hbare' (child_of_absent ho)
      (length_indices la57 v) with hl | ⟨l, l', j, h1, h2⟩
    · exact walk_congr (by rw [hent, hl])
    · exact walk_congr_absent h1 (by rw [hent, h2]) ho (hbare j)

/-- The table that was linked in is empty. -/
theorem Sound.bare_link (h : Sound la57 frames root N m) (hN : m.pmm < N)
    (hptr : PointsTo la57 ptr t) (ht : tableAt Entry.child m.mem.entries root p = some t)
    (hp : p.length < levels la57) (j : Index) :
    Entry.present ((Machine.store la57 ⟨m.mem, m.pmm + 1⟩ (ptr + 8#64 * i.setWidth 64) e).mem.entries
      (frames m.pmm) j) = false := by
  obtain ⟨hout, hbare⟩ := h.spare m.pmm le_rfl hN
  have hft : frames m.pmm ≠ t := by
    rintro rfl
    exact hout ⟨p, hp, ht⟩
  rw [entries_store (m := ⟨m.mem, m.pmm + 1⟩) hptr, write_other hft]
  exact hbare j

/-- Writing an entry of a level 1 table. -/
theorem Sound.store_leaf (h : Sound la57 frames root N m) (hptr : PointsTo la57 ptr t)
    (ht : tableAt Entry.child m.mem.entries root (upperIndices la57 v) = some t) (e : Word) :
    let m' := m.store la57 (ptr + 8#64 * (leafIndex v).setWidth 64) e
    Sound la57 frames root N m' ∧ walk la57 m'.mem root v = finish v 0 e ∧
    ∀ w, IsPage la57 v → IsPage la57 w → w ≠ v →
      walk la57 m'.mem root w = walk la57 m.mem root w := by
  intro m'
  have hent : m'.mem.entries = write m.mem.entries t (leafIndex v) e := entries_store hptr
  have hu := h.directory.unshared
  have hlen := length_upperIndices la57 v
  have htab : ∀ q, q.length < levels la57 →
      tableAt Entry.child m'.mem.entries root q = tableAt Entry.child m.mem.entries root q := by
    intro q hq
    rw [hent]
    exact tableAt_write_leaf hu ht hlen hq
  refine ⟨⟨⟨?_, ?_⟩, ?_, h.distinct⟩, ?_, ?_⟩
  · intro p q u hp hq hpu hqu
    rw [htab p hp] at hpu
    rw [htab q hq] at hqu
    exact hu p q u hp hq hpu hqu
  · intro q s j hq hs
    rw [htab q (by omega)] at hs
    rw [hent, write_other (ne_leaf_table hu ht hq hs)]
    exact h.directory.pointers q s j hq hs
  · intro k hk hkN
    obtain ⟨hout, hbare⟩ := h.spare k hk hkN
    have hkt : frames k ≠ t := by
      rintro rfl
      exact hout ⟨_, by omega, ht⟩
    refine ⟨?_, fun j => ?_⟩
    · rintro ⟨q, hq, hqk⟩
      exact hout ⟨q, hq, by rwa [htab q hq] at hqk⟩
    · rw [hent, write_other hkt]
      exact hbare j
  · apply walk_of_lookup
    rw [hent]
    exact lookup_write_leaf_self hu ht hlen
  · intro w hv hw hne
    apply walk_congr
    rw [hent]
    exact lookup_write_leaf hu ht hlen (length_indices la57 w)
      fun he => hne (indices_injective hw hv he)

/-- A directory in which nothing is present. -/
theorem directory_of_bare (la57 : Bool) (h : ∀ i, Entry.present (mem.entries root i) = false) :
    Directory la57 mem root := by
  have hroot := fun i => child_of_absent (h i)
  refine ⟨?_, ?_⟩
  · intro p q t _ _ hp hq
    obtain ⟨rfl, _⟩ := tableAt_childless hroot hp
    obtain ⟨rfl, _⟩ := tableAt_childless hroot hq
    rfl
  · intro p t i _ hp hpres
    obtain ⟨_, rfl⟩ := tableAt_childless hroot hp
    rw [h i] at hpres
    cases hpres

/-- Where a table is missing, nothing is mapped. -/
theorem walk_of_missing (h : Directory la57 mem root)
    (hv : tableAt Entry.child mem.entries root (upperIndices la57 v) = none) :
    walk la57 mem root v = .notPresent := by
  obtain ⟨p, t, i, r, hq, hp, hc, hl, _⟩ := lookup_of_tableAt_none hv (leafIndex v)
  rw [walk_of_lookup hl]
  apply finish_notPresent
  cases hpres : Entry.present (mem.entries t i) with
  | false => rfl
  | true =>
    have hlen := length_upperIndices la57 v
    rw [hq, List.length_append, List.length_cons] at hlen
    obtain ⟨hlarge, _⟩ := h.pointers p t i (by omega) hp hpres
    rw [child_of_present hpres hlarge] at hc
    cases hc

end KnutOS.Vmm
