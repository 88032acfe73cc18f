import KnutOS.Memory.VmmRefinement

/-! Mapping one page and the walks of the others, over arbitrary memory contents. A frame that
becomes a table keeps the bytes of its previous owner. -/
namespace KnutOS.Vmm

open Foundation RadixTree

variable {la57 : Bool} {frames : ℕ → Frame} {root t g : Frame} {m : Machine ℕ} {mem mem' : Memory}
  {ptr pa va w e link : Word} {flags : BitVec 32} {i j : Index} {p : List Index}

/-- The page beside `va` in its level 1 table, with leaf index `j`. -/
def sibling (va : Word) (j : Index) : Word :=
  (va &&& ~~~(0x1ff#64 <<< 12)) ||| (j.setWidth 64 <<< 12)

theorem getLsbD_sibling (va : Word) (j : Index) (k : ℕ) (hk : k < 64) :
    (sibling va j).getLsbD k = if 12 ≤ k ∧ k < 21 then j.getLsbD (k - 12) else va.getLsbD k := by
  have hmask : (0x1ff#64 <<< 12).getLsbD k = decide (12 ≤ k ∧ k < 21) := by
    rw [BitVec.getLsbD_shiftLeft, show 0x1ff#64 = BitVec.ofNat 64 (2 ^ 9 - 1) from rfl,
      BitVec.getLsbD_ofNat, Nat.testBit_two_pow_sub_one, Bool.eq_iff_iff]
    simp only [Bool.and_eq_true, Bool.not_eq_true', decide_eq_false_iff_not, decide_eq_true_eq]
    omega
  simp only [sibling, BitVec.getLsbD_or, BitVec.getLsbD_and, BitVec.getLsbD_not, hmask,
    BitVec.getLsbD_shiftLeft, BitVec.getLsbD_setWidth, hk, decide_true, Bool.true_and]
  by_cases h12 : k < 12
  · simp [h12, show ¬ 12 ≤ k by omega]
  · by_cases h21 : k < 21
    · simp [h12, h21, show 12 ≤ k by omega, show k - 12 < 64 by omega]
    · have hout : j.getLsbD (k - 12) = false := BitVec.getLsbD_of_ge j _ (by omega)
      simp [h12, h21, hout]

theorem upperIndices_sibling (la57 : Bool) (va : Word) (j : Index) :
    upperIndices la57 (sibling va j) = upperIndices la57 va := by
  have hfield : ∀ shift, 21 ≤ shift → shift ≤ 48 →
      (sibling va j).extractLsb' shift 9 = va.extractLsb' shift 9 := by
    intro shift h1 h2
    apply BitVec.eq_of_getLsbD_eq
    intro k hk
    rw [BitVec.getLsbD_extractLsb', BitVec.getLsbD_extractLsb',
      getLsbD_sibling va j _ (by omega), if_neg (by omega)]
  cases la57 <;>
    simp only [upperIndices, Bool.false_eq_true, if_false, if_true, List.map_cons, List.map_nil,
      hfield 21 (by decide) (by decide), hfield 30 (by decide) (by decide),
      hfield 39 (by decide) (by decide), hfield 48 (by decide) (by decide)]

theorem leafIndex_sibling (va : Word) (j : Index) : leafIndex (sibling va j) = j := by
  apply BitVec.eq_of_getLsbD_eq
  intro k hk
  rw [leafIndex, BitVec.getLsbD_extractLsb', getLsbD_sibling va j _ (by omega),
    if_pos (by omega), Nat.add_sub_cancel_left]
  simp [hk]

theorem isPage_sibling (h : IsPage la57 va) (j : Index) : IsPage la57 (sibling va j) := by
  have hcanon : ∀ k, 21 < k → k ≤ 64 → (va.setWidth k).signExtend 64 = va →
      ((sibling va j).setWidth k).signExtend 64 = sibling va j := by
    intro k hk hk' hva
    apply BitVec.eq_of_getLsbD_eq
    intro b hb
    have hvb := congrArg (fun x => x.getLsbD b) hva
    simp only [BitVec.getLsbD_signExtend, BitVec.getLsbD_setWidth, BitVec.msb_setWidth, hb,
      decide_true, Bool.true_and] at hvb ⊢
    by_cases hbk : b < k
    · simp [hbk]
    · simp only [hbk, if_false] at hvb ⊢
      rw [getLsbD_sibling va j _ (by omega), getLsbD_sibling va j _ hb, if_neg (by omega),
        if_neg (by omega)]
      exact hvb
  refine ⟨?_, ?_⟩
  · cases la57 with
    | false => exact hcanon 48 (by decide) (by decide) h.canonical
    | true => exact hcanon 57 (by decide) (by decide) h.canonical
  · have hlow : (sibling va j).extractLsb' 0 12 = va.extractLsb' 0 12 := by
      apply BitVec.eq_of_getLsbD_eq
      intro k hk
      rw [BitVec.getLsbD_extractLsb', BitVec.getLsbD_extractLsb',
        getLsbD_sibling va j _ (by omega), if_neg (by omega)]
    have hn := congrArg BitVec.toNat hlow
    have ha := h.aligned
    simp only [BitVec.extractLsb'_toNat, Nat.shiftRight_zero] at hn
    omega

/-! Where only the level 1 table is missing. -/

/-- Entry `i` of table `t` is absent, and would point to the level 1 table for `va`. -/
structure LastMissing (la57 : Bool) (mem : Memory) (root : Frame) (va : Word) (p : List Index)
    (t : Frame) (i : Index) : Prop where
  path : upperIndices la57 va = p ++ [i]
  table : tableAt Entry.child mem.entries root p = some t
  absent : Entry.present (mem.entries t i) = false

theorem LastMissing.length (h : LastMissing la57 mem root va p t i) :
    p.length + 2 = levels la57 := by
  have hlen := length_upperIndices la57 va
  rw [h.path, List.length_append, List.length_singleton] at hlen
  exact hlen

theorem tableAt_eq_none (h : missing Entry.child mem.entries root (upperIndices la57 va) ≠ 0) :
    tableAt Entry.child mem.entries root (upperIndices la57 va) = none := by
  cases hu : tableAt Entry.child mem.entries root (upperIndices la57 va) with
  | none => rfl
  | some u => exact (h (missing_eq_zero_iff.mpr ⟨u, hu⟩)).elim

theorem lastMissing_of_missing (h : Directory la57 mem root)
    (hmiss : missing Entry.child mem.entries root (upperIndices la57 va) = 1) :
    ∃ p t i, LastMissing la57 mem root va p t i := by
  have hnone : tableAt Entry.child mem.entries root (upperIndices la57 va) = none :=
    tableAt_eq_none (by omega)
  obtain ⟨p, t, i, r, hq, ht, hc, _, hr⟩ := lookup_of_tableAt_none hnone (leafIndex va)
  obtain rfl : r = [] := List.length_eq_zero_iff.mp (by omega)
  have hlen := length_upperIndices la57 va
  rw [hq, List.length_append, List.length_singleton] at hlen
  refine ⟨p, t, i, hq, ht, ?_⟩
  cases hpres : Entry.present (mem.entries t i) with
  | false => rfl
  | true =>
    obtain ⟨hlarge, _⟩ := h.pointers p t i (by omega) ht hpres
    rw [child_of_present hpres hlarge] at hc
    cases hc

/-! The two stores of such a call, a new table `g` under `t` and its leaf entry, as the walks of
the other pages see them. -/

section

variable (h : Directory la57 mem root) (hl : LastMissing la57 mem root va p t i)
  (hg : ¬ Reached Entry.child mem.entries root (levels la57) g)
  (hmem : mem'.entries = write (write mem.entries t i link) g (leafIndex va) e)
include h hl hg hmem

theorem walk_elsewhere (hw : upperIndices la57 w ≠ upperIndices la57 va) :
    walk la57 mem' root w = walk la57 mem root w := by
  have hlen := hl.length
  have hpass : ∀ p' r, indices la57 w = p' ++ i :: r →
      tableAt Entry.child mem.entries root p' ≠ some t := by
    intro p' r hwr hp'
    have hwlen := congrArg List.length hwr
    rw [length_indices, List.length_append, List.length_cons] at hwlen
    obtain rfl := h.unshared.prefix_eq hl.table (by omega) (by omega) hp'
    obtain ⟨k, rfl⟩ := List.length_eq_one_iff.mp (show r.length = 1 by omega)
    rw [indices, show p' ++ [i, k] = (p' ++ [i]) ++ [k] by simp, ← hl.path] at hwr
    exact hw (List.append_inj_left' hwr rfl)
  apply walk_congr
  rw [hmem, lookup_write, lookup_write hpass]
  intro p' r hwr hp'
  have hwlen := congrArg List.length hwr
  rw [length_indices, List.length_append, List.length_cons] at hwlen
  rw [tableAt_write] at hp'
  · exact hg ⟨p', by omega, hp'⟩
  · intro p'' r' hp''
    exact hpass p'' (r' ++ leafIndex va :: r) (by rw [hwr, hp'']; simp)

/-- A page under the new table is looked up through the new entry. -/
theorem lookup_below (hw : upperIndices la57 w = upperIndices la57 va) :
    lookup Entry.child mem'.entries root (indices la57 w) =
      lookup Entry.child mem'.entries t [i, leafIndex w] := by
  have hlen := hl.length
  have hshort : ∀ q : List Index, q.length ≤ p.length →
      tableAt Entry.child (write mem.entries t i link) root q =
        tableAt Entry.child mem.entries root q := by
    intro q hq
    apply tableAt_write
    rintro p' r rfl hp'
    rw [List.length_append, List.length_cons] at hq
    have := congrArg List.length (h.unshared.prefix_eq hl.table (by omega) (by omega) hp')
    omega
  have hp' : tableAt Entry.child mem'.entries root p = some t := by
    rw [hmem, tableAt_write, hshort p le_rfl, hl.table]
    rintro p' r hp hp'
    have hplen := congrArg List.length hp
    rw [List.length_append, List.length_cons] at hplen
    rw [hshort p' (by omega)] at hp'
    exact hg ⟨p', by omega, hp'⟩
  rw [indices, hw, hl.path, List.append_assoc, lookup_append hp' (by simp)]
  rfl

omit h in
theorem entry_link : mem'.entries t i = link := by
  have hne : t ≠ g := by
    rintro rfl
    exact hg ⟨p, by have := hl.length; omega, hl.table⟩
  rw [hmem, write_other hne, write_self]

omit h in
theorem entry_beside (hj : j ≠ leafIndex va) : mem'.entries g j = mem.entries g j := by
  have hne : g ≠ t := by
    rintro rfl
    exact hg ⟨p, by have := hl.length; omega, hl.table⟩
  rw [hmem, write_of_ne (fun hx => hj hx.2), write_other hne]

/-- With the page size bit in the new entry, the walk ends there. -/
theorem walk_large (hw : upperIndices la57 w = upperIndices la57 va)
    (hlarge : Entry.large link = true) : walk la57 mem' root w = finish w 1 link := by
  apply walk_of_lookup
  rw [lookup_below h hl hg hmem hw]
  simp only [lookup, entry_link hl hg hmem, child_of_large hlarge]
  rfl

/-- Otherwise it goes on to what the frame held before. -/
theorem walk_beside (hw : upperIndices la57 w = upperIndices la57 va)
    (hj : leafIndex w ≠ leafIndex va) (hchild : Entry.child link = some g) :
    walk la57 mem' root w = finish w 0 (mem.entries g (leafIndex w)) := by
  apply walk_of_lookup
  rw [lookup_below h hl hg hmem hw]
  simp only [lookup, entry_link hl hg hmem, hchild, entry_beside hl hg hmem hj]

/-- The walks of the other pages stay exactly if the entry is no large page and nothing else is
present in the frame. -/
theorem isolated_iff (hva : IsPage la57 va) (hpres : Entry.present link = true)
    (hframe : Entry.frame link = g) :
    (∀ w, IsPage la57 w → w ≠ va → walk la57 mem' root w = walk la57 mem root w) ↔
      Entry.large link = false ∧
        ∀ j, j ≠ leafIndex va → Entry.present (mem.entries g j) = false := by
  have hbefore : ∀ w, upperIndices la57 w = upperIndices la57 va →
      walk la57 mem root w = .notPresent := by
    intro w hw
    apply walk_of_missing h
    rw [hw, hl.path, tableAt_append hl.table]
    simp [tableAt, child_of_absent hl.absent]
  constructor
  · intro hsame
    have hsib : ∀ j, j ≠ leafIndex va → walk la57 mem' root (sibling va j) = .notPresent := by
      intro j hj
      have hne : sibling va j ≠ va := by
        intro he
        rw [← leafIndex_sibling va j, he] at hj
        exact hj rfl
      rw [hsame _ (isPage_sibling hva j) hne]
      exact hbefore _ (upperIndices_sibling la57 va j)
    have hsmall : Entry.large link = false := by
      cases hlarge : Entry.large link with
      | false => rfl
      | true =>
        have hnot := hsib (leafIndex va + 1#9) (by bv_omega)
        rw [walk_large h hl hg hmem (upperIndices_sibling la57 va _) hlarge] at hnot
        exact (finish_present _ _ hpres hnot).elim
    have hchild : Entry.child link = some g := by rw [child_of_present hpres hsmall, hframe]
    refine ⟨hsmall, ?_⟩
    intro j hj
    have hnot := hsib j hj
    rw [walk_beside h hl hg hmem (upperIndices_sibling la57 va j) (by rwa [leafIndex_sibling])
      hchild, leafIndex_sibling] at hnot
    cases hp : Entry.present (mem.entries g j) with
    | false => rfl
    | true => exact (finish_present _ _ hp hnot).elim
  · rintro ⟨hsmall, hothers⟩ w hw hwva
    have hchild : Entry.child link = some g := by rw [child_of_present hpres hsmall, hframe]
    by_cases hup : upperIndices la57 w = upperIndices la57 va
    · have hj : leafIndex w ≠ leafIndex va := by
        intro hj
        exact hwva (indices_injective hw hva (by rw [indices, indices, hup, hj]))
      rw [walk_beside h hl hg hmem hup hj hchild, hbefore w hup,
        finish_notPresent _ _ (hothers _ hj)]
    · exact walk_elsewhere h hl hg hmem hup

end

/-- Descending along tables that are all there reads only. -/
theorem descend_present (frames : ℕ → Frame) (flags : BitVec 32) {s : Frame} {q : List Index}
    (h : Directory la57 m.mem root) (hptr : PointsTo la57 ptr s)
    (hs : tableAt Entry.child m.mem.entries root q = some s)
    (ht : tableAt Entry.child m.mem.entries root (q ++ p) = some t)
    (hlen : q.length + p.length < levels la57) :
    ∃ ptr', descend la57 (handOut la57 frames) m ptr flags p = (ptr', m) ∧ PointsTo la57 ptr' t := by
  induction p generalizing ptr s q with
  | nil =>
    rw [List.append_nil, hs] at ht
    cases ht
    exact ⟨ptr, rfl, hptr⟩
  | cons i p ih =>
    simp only [List.length_cons] at hlen
    cases hpres : Entry.present (m.mem.entries s i) with
    | true =>
      obtain ⟨u, _, hu, hptr'⟩ := child_step h hs (by omega) hpres
      rw [show q ++ i :: p = (q ++ [i]) ++ p by simp] at ht
      simp only [descend, vmmGetPageMapLevel_of_present hptr hpres]
      exact ih hptr' hu ht (by simp; omega)
    | false =>
      rw [tableAt_append hs] at ht
      simp [tableAt, child_of_absent hpres] at ht

theorem descend_append (q : List Index) :
    descend la57 (handOut la57 frames) m ptr flags (p ++ q) =
      descend la57 (handOut la57 frames) (descend la57 (handOut la57 frames) m ptr flags p).2
        (descend la57 (handOut la57 frames) m ptr flags p).1 flags q := by
  induction p generalizing m ptr with
  | nil => rfl
  | cons i p ih => exact ih

/-- The two stores of a call that makes the level 1 table. -/
theorem entries_map_last (frames : ℕ → Frame) (pa : Word) (h : Directory la57 m.mem root) (hptr : PointsTo la57 ptr root)
    (hl : LastMissing la57 m.mem root va p t i) (hlow : flags.toNat < 512) :
    (vmmMapPage la57 (handOut la57 frames) m ptr pa va flags).mem.entries =
      write (write m.mem.entries t i (frameAddr (frames m.pmm) ||| flags.signExtend 64))
        (frames m.pmm) (leafIndex va) (pa ||| flags.signExtend 64) := by
  obtain ⟨_, hmask, _⟩ := link_fields flags hlow (frames m.pmm)
  obtain ⟨ptr', hd, hptr'⟩ := descend_present frames flags (q := []) (p := p) h hptr rfl hl.table
    (by have := hl.length; simp; omega)
  simp only [vmmMapPage_eq, hl.path, descend_append, hd, descend,
    vmmGetPageMapLevel_of_absent hptr' hl.absent, hmask]
  rw [entries_store (pointsTo_frameAddr la57 _), entries_store hptr']

/-- The frames from number `a` on, `n` of them, are different and no tables of the tree. -/
structure FreeFrames (la57 : Bool) (frames : ℕ → Frame) (mem : Memory) (root : Frame) (a n : ℕ) :
    Prop where
  outside : ∀ k, a ≤ k → k < a + n →
    ¬ Reached Entry.child mem.entries root (levels la57) (frames k)
  distinct : ∀ j k, a ≤ j → j < k → k < a + n → frames j ≠ frames k

/-- The number of tables that a call for `va` has to make. -/
def missingTables (la57 : Bool) (mem : Memory) (root : Frame) (va : Word) : ℕ :=
  missing Entry.child mem.entries root (upperIndices la57 va)

/-- No table has to be made, or the flags are page flags without PAT and nothing is present in
the frames that become tables. -/
def MakesEmptyTables (la57 : Bool) (frames : ℕ → Frame) (m : Machine ℕ) (root : Frame) (va : Word)
    (flags : BitVec 32) : Prop :=
  missingTables la57 m.mem root va = 0 ∨
    (flags.toNat < 512 ∧ flags.getLsbD 7 = false ∧
      ∀ k, m.pmm ≤ k → k < m.pmm + missingTables la57 m.mem root va →
        ∀ i, Entry.present (m.mem.entries (frames k) i) = false)

/-- The walks of all pages but `va` are what they were. -/
def Isolated (la57 : Bool) (root : Frame) (m m' : Machine ℕ) (va : Word) : Prop :=
  ∀ w, IsPage la57 w → w ≠ va → walk la57 m'.mem root w = walk la57 m.mem root w

/-- Mapping a page leaves the others alone if the tables it makes are empty. Where it makes the
level 1 table only, this is exact, but for the entry of the page itself. -/
theorem map_isolated (la57 : Bool) (frames : ℕ → Frame) (m : Machine ℕ) (root : Frame)
    (pa va : Word) (flags : BitVec 32) (hroot : root.toNat < 2 ^ 35)
    (h : Directory la57 m.mem root) (hva : IsPage la57 va) (h0 : flags.getLsbD 0 = true)
    (hfree : FreeFrames la57 frames m.mem root m.pmm (missingTables la57 m.mem root va)) :
    let m' := vmmMapPage la57 (handOut la57 frames) m (physToHigherHalfData la57 (frameAddr root))
      pa va flags
    (MakesEmptyTables la57 frames m root va flags → Isolated la57 root m m' va) ∧
    (missingTables la57 m.mem root va = 1 → flags.toNat < 512 →
      (Isolated la57 root m m' va ↔ flags.getLsbD 7 = false ∧
        ∀ j, j ≠ leafIndex va → Entry.present (m.mem.entries (frames m.pmm) j) = false)) := by
  intro m'
  have hptr := pointsTo_higherHalf la57 hroot
  constructor
  · intro hempty
    have hsound : Sound la57 frames root (m.pmm + missingTables la57 m.mem root va) m := by
      refine ⟨h, ?_, hfree.distinct⟩
      intro k hk hkN
      refine ⟨hfree.outside k hk hkN, ?_⟩
      rcases hempty with hzero | ⟨_, _, hbare⟩
      · omega
      · exact hbare k hk hkN
    have hN : m'.pmm ≤ m.pmm + missingTables la57 m.mem root va := by
      simp only [m', vmmMapPage_eq]
      exact pmm_descend_missing (p := []) h hptr rfl (by simpa using length_upperIndices la57 va)
    have hfl : Linkable flags ∨
        ∃ u, tableAt Entry.child m.mem.entries root (upperIndices la57 va) = some u := by
      rcases hempty with hzero | ⟨hlow, h7, _⟩
      · exact .inr (missing_eq_zero_iff.mp hzero)
      · exact .inl ⟨hlow, h0, h7⟩
    exact (sound_map hsound hptr hN hva hfl).2.2
  · intro hone hlow
    obtain ⟨p, t, i, hl⟩ := lastMissing_of_missing h hone
    obtain ⟨hframe, _, hpres, hlarge⟩ := link_fields flags hlow (frames m.pmm)
    have hmem := entries_map_last frames pa h hptr hl hlow
    have hout := hfree.outside m.pmm le_rfl (by omega)
    have hiff := isolated_iff h hl hout hmem hva (hpres.trans h0) hframe
    rw [hlarge] at hiff
    exact hiff

/-- A directory in frame 1 in which nothing is present, and the frames after it. -/
theorem lowFrames_free (la57 : Bool) (h : ∀ i, Entry.present (mem.entries 1#40 i) = false) {n : ℕ}
    (hn : n < 2 ^ 29) : FreeFrames la57 lowFrames mem 1#40 1 n := by
  have hfresh := lowFrames_fresh (show 1 + n < 2 ^ 30 by omega)
  refine ⟨?_, fun j k _ hjk hk => hfresh.distinct j k hjk hk⟩
  rintro k hk hkn ⟨p, _, hp⟩
  obtain ⟨_, heq⟩ := tableAt_childless (fun i => child_of_absent (h i)) hp
  exact hfresh.distinct 0 k hk hkn heq.symm

theorem map_isolated_lowFrames :
    walk false (vmmMapPage false (handOut false lowFrames) ⟨fun _ => 0#64, 1⟩
        (physToHigherHalfData false (frameAddr 1#40)) 0x5000#64 0x200000#64 3#32).mem 1#40
        0x201000#64 = walk false (fun _ => 0#64) 1#40 0x201000#64 := by
  have hbare : ∀ f i, Entry.present (Memory.entries (fun _ => 0#64) f i) = false := by
    intro f i
    simp [Memory.entries, Entry.present]
  exact (map_isolated false lowFrames ⟨fun _ => 0#64, 1⟩ 1#40 0x5000#64 0x200000#64 3#32
    (by decide) (directory_of_bare false (hbare _)) ⟨by decide, by decide⟩ (by decide)
    (lowFrames_free false (hbare _) (by decide))).1
    (.inr ⟨by decide, by decide, fun _ _ _ => hbare _⟩)
    0x201000#64 ⟨by decide, by decide⟩ (by decide)

/-- Frame 4 still holds an entry of its previous owner. -/
def dirtyMem : Memory := fun a => if a = 0x4008#64 then 0x9001#64 else 0#64

/-- Frame 4 becomes the level 1 table of the new page, and its old entry maps the page after it. -/
theorem map_isolated_fails :
    ¬ ∀ (la57 : Bool) (frames : ℕ → Frame) (m : Machine ℕ) (root : Frame) (pa va : Word)
      (flags : BitVec 32), root.toNat < 2 ^ 35 → Directory la57 m.mem root →
      pa.toNat % 4096 = 0 → IsPage la57 va → flags.getLsbD 0 = true →
      FreeFrames la57 frames m.mem root m.pmm (missingTables la57 m.mem root va) →
      Isolated la57 root m (vmmMapPage la57 (handOut la57 frames) m
        (physToHigherHalfData la57 (frameAddr root)) pa va flags) va := by
  intro h
  have hbare : ∀ i, Entry.present (dirtyMem.entries 1#40 i) = false := by
    intro i
    have hi := i.isLt
    have hne : entryAddr 1#40 i ≠ 0x4008#64 := by
      intro he
      have hn := toNat_entryAddr 1#40 i
      rw [he] at hn
      simp at hn
      omega
    rw [Memory.entries, dirtyMem, if_neg hne]
    rfl
  have hwalk := h false lowFrames ⟨dirtyMem, 1⟩ 1#40 0x5000#64 0x200000#64 3#32 (by decide)
    (directory_of_bare false hbare) (by decide) ⟨by decide, by decide⟩ (by decide)
    (lowFrames_free false hbare (by decide)) 0x201000#64 ⟨by decide, by decide⟩ (by decide)
  exact absurd hwalk (by decide)

end KnutOS.Vmm
