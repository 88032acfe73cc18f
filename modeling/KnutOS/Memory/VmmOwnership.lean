import KnutOS.Memory.VmmRefinement

/-! The tables as the kernel follows them, with an allocator that may run out: which frames the
tree holds, and that no frame is held twice. -/
namespace KnutOS.Vmm

open Foundation RadixTree

/-- The table that the kernel takes a present entry for; the page size bit means nothing to it. -/
def tableOf (e : Word) : Option Frame := if Entry.present e then some (Entry.frame e) else none

/-- What `pmm_alloc(1)` returns for a frame, and when there is none. -/
def answer (la57 : Bool) : Option Frame → Word
  | none => 0#64
  | some f => physToHigherHalfData la57 (frameAddr f)

/-- `pmm_alloc(1)`, where call number `k` hands out frame `supply k`, or `NULL`. -/
def orNull (la57 : Bool) (supply : ℕ → Option Frame) (k _pageCount : ℕ) : Word × ℕ :=
  (answer la57 (supply k), k + 1)

/-- No frame is handed out twice. -/
def Distinct (supply : ℕ → Option Frame) (N : ℕ) : Prop :=
  ∀ j k f g, j < k → k < N → supply j = some f → supply k = some g → f ≠ g

/-- The entry that links in frame `f` with these flags holds the address of `f`. -/
def Holds (flags : BitVec 32) (f : Frame) : Prop :=
  (frameAddr f ||| flags.signExtend 64) &&& ~~~511#64 = frameAddr f

/-- Memory in which some entries were cleared. -/
def Thinner (mem mem' : Memory) : Prop := ∀ a, mem' a = mem a ∨ Entry.present (mem' a) = false

/-- The frames in the tree are frames handed out, each under one entry, and those still to come
are empty and elsewhere. -/
structure Tree (la57 : Bool) (supply : ℕ → Option Frame) (root : Frame) (N : ℕ) (m : Machine ℕ) :
    Prop where
  unshared : Unshared tableOf m.mem.entries root (levels la57)
  owned : ∀ p t i, p.length + 1 < levels la57 →
    tableAt tableOf m.mem.entries root p = some t →
    Entry.present (m.mem.entries t i) = true →
    ∃ k f, 0 < k ∧ k < m.pmm ∧ supply k = some f ∧ m.mem.entries t i &&& ~~~511#64 = frameAddr f
  spare : ∀ k f, m.pmm ≤ k → k < N → supply k = some f →
    ¬ Reached tableOf m.mem.entries root (levels la57) f ∧
      ∀ i, Entry.present (m.mem.entries f i) = false

variable {la57 : Bool} {supply : ℕ → Option Frame} {root t f : Frame} {N : ℕ} {m m' : Machine ℕ}
  {mem mem' mem'' : Memory} {ptr e pa va : Word} {flags : BitVec 32} {i : Index} {p is : List Index}

theorem table_of_present (h : Entry.present e = true) : tableOf e = some (Entry.frame e) := by
  simp [tableOf, h]

theorem table_of_absent (h : Entry.present e = false) : tableOf e = none := by
  simp [tableOf, h]

theorem frame_of_mask (h : e &&& ~~~511#64 = frameAddr f) : Entry.frame e = f := by
  have hmask : Entry.frame (e &&& ~~~511#64) = Entry.frame e := by
    apply BitVec.eq_of_getLsbD_eq
    intro k hk
    have hbit : (511#64).getLsbD (12 + k) = false := by
      rw [show 511#64 = BitVec.ofNat 64 (2 ^ 9 - 1) from rfl, BitVec.getLsbD_ofNat,
        Nat.testBit_two_pow_sub_one]
      simp
      omega
    simp only [Entry.frame, BitVec.getLsbD_extractLsb', BitVec.getLsbD_and, BitVec.getLsbD_not,
      hbit, Bool.not_false, Bool.and_true, show 12 + k < 64 by omega, decide_true]
  rw [← hmask, h, frame_frameAddr]

/-! Stores that make no entry present. -/

theorem Thinner.refl (mem : Memory) : Thinner mem mem := fun _ => .inl rfl

theorem Thinner.trans (h : Thinner mem mem') (h' : Thinner mem' mem'') : Thinner mem mem'' := by
  intro a
  rcases h' a with ha | ha
  · rw [ha]
    exact h a
  · exact .inr ha

theorem Thinner.absent (h : Thinner mem mem') {a : Word} (ha : Entry.present (mem a) = false) :
    Entry.present (mem' a) = false := by
  rcases h a with he | he
  · rwa [he]
  · exact he

theorem Thinner.cut (h : Thinner mem mem') (s : Frame) (i : Index) (u : Frame)
    (hu : tableOf (mem'.entries s i) = some u) : tableOf (mem.entries s i) = some u := by
  rcases h (entryAddr s i) with he | he
  · rwa [Memory.entries, he] at hu
  · rw [Memory.entries, table_of_absent he] at hu
    cases hu

theorem thinner_store {σ : Type*} (la57 : Bool) (s : Machine σ) (ptr : Word) (h : Entry.present e = false) :
    Thinner s.mem (s.store la57 ptr e).mem := by
  intro a
  by_cases ha : a = dereference la57 ptr
  · subst ha
    exact .inr (by simpa [Machine.store] using h)
  · exact .inl (Function.update_of_ne ha _ _)

/-- The entry for an answer of `pmm_alloc` is present if the flags say so, even for `NULL`. -/
theorem present_answer (la57 : Bool) (o : Option Frame) (flags : BitVec 32) :
    Entry.present (higherHalfDataToPhys la57 (answer la57 o) ||| flags.signExtend 64) =
      flags.getLsbD 0 := by
  have hflag : (flags.signExtend 64).getLsbD 0 = flags.getLsbD 0 :=
    getLsbD_signExtend_flags 0 (by decide)
  have hbit : (higherHalfDataToPhys la57 (answer la57 o)).getLsbD 0 = false := by
    cases o with
    | none => cases la57 <;> decide
    | some f =>
      rw [answer, higherHalfDataToPhys_physToHigherHalfData, frameAddr, BitVec.getLsbD_shiftLeft]
      simp
  rw [Entry.present, BitVec.getLsbD_or, hbit, hflag, Bool.false_or]

theorem present_link (flags : BitVec 32) (f : Frame) :
    Entry.present (frameAddr f ||| flags.signExtend 64) = flags.getLsbD 0 := by
  simpa only [answer, higherHalfDataToPhys_physToHigherHalfData] using
    present_answer false (some f) flags

/-- Descending with flags that are not present clears entries, wherever the pointers lead. -/
theorem thinner_descend (la57 : Bool) (supply : ℕ → Option Frame) (h0 : flags.getLsbD 0 = false)
    (m : Machine ℕ) (ptr : Word) (is : List Index) :
    Thinner m.mem (descend la57 (orNull la57 supply) m ptr flags is).2.mem := by
  induction is generalizing m ptr with
  | nil => exact .refl _
  | cons i is ih =>
    cases hp : Entry.present (m.load la57 (ptr + 8#64 * i.setWidth 64)) with
    | true =>
      simp only [descend, getPageMapLevel_of_present _ flags hp]
      exact ih m _
    | false =>
      have hlink := (present_answer la57 (supply m.pmm) flags).trans h0
      simp only [descend, getPageMapLevel_of_absent _ flags hp]
      exact (thinner_store la57 ⟨m.mem, m.pmm + 1⟩ _ hlink).trans (ih _ _)

theorem pmm_descend_orNull (la57 : Bool) (supply : ℕ → Option Frame) (m : Machine ℕ) (ptr : Word)
    (flags : BitVec 32) (is : List Index) :
    m.pmm ≤ (descend la57 (orNull la57 supply) m ptr flags is).2.pmm ∧
    (descend la57 (orNull la57 supply) m ptr flags is).2.pmm ≤ m.pmm + is.length :=
  pmm_descend_counting la57 (fun _ _ => rfl) m ptr flags is

theorem Tree.thin (h : Tree la57 supply root N m) (ht : Thinner m.mem m'.mem)
    (hpmm : m.pmm ≤ m'.pmm) : Tree la57 supply root N m' := by
  refine ⟨h.unshared.of_cut ht.cut, ?_, ?_⟩
  · intro p t i hp htab hpres
    rcases ht (entryAddr t i) with he | he
    · have hsame : m'.mem.entries t i = m.mem.entries t i := he
      rw [hsame] at hpres ⊢
      obtain ⟨k, f, hk, hkm, hf⟩ := h.owned p t i hp (tableAt_of_cut ht.cut htab) hpres
      exact ⟨k, f, hk, hkm.trans_le hpmm, hf⟩
    · exact absurd hpres (Bool.eq_false_iff.mp he)
  · intro k f hk hkN hf
    obtain ⟨hout, hbare⟩ := h.spare k f (hpmm.trans hk) hkN hf
    exact ⟨fun hr => hout (hr.of_cut ht.cut), fun i => ht.absent (hbare i)⟩

/-! Stores that a call of `vmm_map_page` makes. -/

/-- The next frame is linked in under an absent entry of a table above level 1. -/
theorem Tree.link (h : Tree la57 supply root N m) (hd : Distinct supply N) (hpos : 0 < m.pmm)
    (hN : m.pmm < N) (hf : supply m.pmm = some f) (hptr : PointsTo la57 ptr t)
    (ht : tableAt tableOf m.mem.entries root p = some t) (hp : p.length + 1 < levels la57)
    (hfl : Holds flags f) (h0 : flags.getLsbD 0 = true) :
    let m' := Machine.store la57 ⟨m.mem, m.pmm + 1⟩ (ptr + 8#64 * i.setWidth 64)
      (frameAddr f ||| flags.signExtend 64)
    Tree la57 supply root N m' ∧
    tableAt tableOf m'.mem.entries root (p ++ [i]) = some f ∧
    ∀ j, Entry.present (m'.mem.entries f j) = false := by
  intro m'
  have hent : m'.mem.entries = write m.mem.entries t i _ :=
    entries_store (m := ⟨m.mem, m.pmm + 1⟩) hptr
  have htable : tableOf (frameAddr f ||| flags.signExtend 64) = some f := by
    rw [table_of_present ((present_link flags f).trans h0), frame_of_mask hfl]
  obtain ⟨hout, hbare⟩ := h.spare m.pmm f le_rfl hN hf
  have hbare' := fun j => table_of_absent (hbare j)
  have hft : f ≠ t := ne_of_not_reached hout ht (by omega)
  refine ⟨⟨?_, ?_, ?_⟩, ?_, ?_⟩
  · rw [hent]
    exact unshared_link h.unshared ht hp htable hout hbare'
  · intro q s j hq
    rw [hent]
    intro hs hpr
    by_cases hst : s = t ∧ j = i
    · obtain ⟨rfl, rfl⟩ := hst
      rw [write_self]
      exact ⟨m.pmm, f, hpos, Nat.lt_succ_self _, hf, hfl⟩
    · rw [write_of_ne hst] at hpr ⊢
      rcases tableAt_link h.unshared ht hp htable hout hbare' (by omega) hs with ⟨rfl, _⟩ | hs'
      · exact absurd hpr (Bool.eq_false_iff.mp (hbare j))
      · obtain ⟨k, g, hk, hkm, hg⟩ := h.owned q s j hq hs' hpr
        exact ⟨k, g, hk, hkm.trans (Nat.lt_succ_self _), hg⟩
  · intro k g hk hkN hg
    obtain ⟨houtk, hbarek⟩ := h.spare k g (Nat.le_of_succ_le hk) hkN hg
    have hfg : f ≠ g := hd m.pmm k f g hk hkN hf hg
    rw [hent]
    refine ⟨not_reached_link h.unshared ht hp htable hout hbare' hfg houtk, fun j => ?_⟩
    rw [write_other (ne_of_not_reached houtk ht (by omega))]
    exact hbarek j
  · rw [hent]
    exact tableAt_link_self h.unshared ht hp htable
  · intro j
    rw [hent, write_other hft]
    exact hbare j

/-- A frame whose entries lead nowhere, and which will not be handed out again: a level 1 table,
or a frame that was taken and not linked in. -/
structure Bottom (la57 : Bool) (supply : ℕ → Option Frame) (root : Frame) (N : ℕ) (m : Machine ℕ)
    (t : Frame) : Prop where
  last : ∀ p, p.length + 1 < levels la57 → tableAt tableOf m.mem.entries root p ≠ some t
  taken : ∀ k, m.pmm ≤ k → k < N → supply k ≠ some t

theorem Tree.store_bottom (h : Tree la57 supply root N m) (hptr : PointsTo la57 ptr t)
    (hb : Bottom la57 supply root N m t) (e : Word) :
    Tree la57 supply root N (m.store la57 (ptr + 8#64 * i.setWidth 64) e) := by
  have hent := entries_store (m := m) (i := i) (e := e) hptr
  have htab : ∀ q, q.length < levels la57 →
      tableAt tableOf (m.store la57 (ptr + 8#64 * i.setWidth 64) e).mem.entries root q =
        tableAt tableOf m.mem.entries root q := by
    intro q hq
    rw [hent]
    apply tableAt_write
    rintro p r rfl
    rw [List.length_append, List.length_cons] at hq
    exact hb.last p (by omega)
  refine ⟨?_, ?_, ?_⟩
  · intro p q u hp hq hpu hqu
    rw [htab p hp] at hpu
    rw [htab q hq] at hqu
    exact h.unshared p q u hp hq hpu hqu
  · intro q s j hq hs
    rw [htab q (by omega)] at hs
    have hst : s ≠ t := by
      rintro rfl
      exact hb.last q hq hs
    rw [hent, write_other hst]
    exact h.owned q s j hq hs
  · intro k f hk hkN hf
    obtain ⟨hout, hbare⟩ := h.spare k f hk hkN hf
    have hft : f ≠ t := by
      rintro rfl
      exact hb.taken k hk hkN hf
    refine ⟨?_, fun j => ?_⟩
    · rintro ⟨q, hq, hqf⟩
      rw [htab q hq] at hqf
      exact hout ⟨q, hq, hqf⟩
    · rw [hent, write_other hft]
      exact hbare j

/-- A table of the last level is at the bottom. -/
theorem Tree.bottom (h : Tree la57 supply root N m)
    (ht : tableAt tableOf m.mem.entries root p = some t) (hp : p.length + 1 = levels la57) :
    Bottom la57 supply root N m t := by
  refine ⟨fun q hq hqt => ?_, fun k hk hkN hf => (h.spare k t hk hkN hf).1 ⟨p, by omega, ht⟩⟩
  have := congrArg List.length (h.unshared q p t (by omega) (by omega) hqt ht)
  omega

/-- The next frame is taken for an entry that is not present, and stays outside. -/
theorem Tree.absent_link (h : Tree la57 supply root N m) (hd : Distinct supply N) (hN : m.pmm < N)
    (hf : supply m.pmm = some f) (h0 : flags.getLsbD 0 = false) (ptr : Word) :
    let m' := Machine.store la57 ⟨m.mem, m.pmm + 1⟩ ptr (frameAddr f ||| flags.signExtend 64)
    Tree la57 supply root N m' ∧ ¬ Reached tableOf m'.mem.entries root (levels la57) f ∧
      (∀ j, Entry.present (m'.mem.entries f j) = false) ∧
      ∀ k, m.pmm + 1 ≤ k → k < N → supply k ≠ some f := by
  intro m'
  have hthin := thinner_store la57 ⟨m.mem, m.pmm + 1⟩ ptr ((present_link flags f).trans h0)
  obtain ⟨hout, hbare⟩ := h.spare m.pmm f le_rfl hN hf
  refine ⟨h.thin hthin (Nat.le_succ _), fun hr => hout (hr.of_cut hthin.cut),
    fun j => hthin.absent (hbare j), ?_⟩
  intro k hk hkN hkf
  exact hd m.pmm k f f hk hkN hf hkf rfl

/-- Descending from a frame outside the tree, in which nothing is present, stays outside. -/
theorem tree_descend_outside (h : Tree la57 supply root N m) (hd : Distinct supply N)
    (h0 : flags.getLsbD 0 = false) (hptr : PointsTo la57 ptr t)
    (hout : ¬ Reached tableOf m.mem.entries root (levels la57) t)
    (hbare : ∀ j, Entry.present (m.mem.entries t j) = false)
    (htaken : ∀ k, m.pmm ≤ k → k < N → supply k ≠ some t)
    (hsome : ∀ k, m.pmm ≤ k → k < m.pmm + is.length → ∃ f, supply k = some f ∧ Holds flags f)
    (hN : (descend la57 (orNull la57 supply) m ptr flags is).2.pmm ≤ N) :
    let r := descend la57 (orNull la57 supply) m ptr flags is
    Tree la57 supply root N r.2 ∧ ∃ u, PointsTo la57 r.1 u ∧ Bottom la57 supply root N r.2 u := by
  induction is generalizing m ptr t with
  | nil =>
    exact ⟨h, t, hptr, fun p hp hpt => hout ⟨p, by omega, hpt⟩, htaken⟩
  | cons i is ih =>
    simp only [List.length_cons] at hsome
    obtain ⟨f, hf, hfl⟩ := hsome m.pmm le_rfl (by omega)
    have hload : Entry.present (m.load la57 (ptr + 8#64 * i.setWidth 64)) = false := by
      rw [load_slot hptr]
      exact hbare i
    simp only [descend, getPageMapLevel_of_absent _ flags hload, orNull, hf, answer,
      higherHalfDataToPhys_physToHigherHalfData] at hN ⊢
    have hlt : m.pmm < N := (pmm_descend_orNull la57 supply _ _ flags is).1.trans hN
    obtain ⟨htree, houtf, hbaref, htaken'⟩ :=
      h.absent_link hd hlt hf h0 (ptr + 8#64 * i.setWidth 64)
    rw [show _ &&& _ = _ from hfl] at hN ⊢
    refine ih htree (pointsTo_frameAddr la57 f) houtf hbaref htaken' ?_ hN
    intro k hk hkl
    exact hsome k (Nat.le_of_succ_le hk) (by simp only [Machine.store] at hkl; omega)

/-- Descending to the level 1 table, as long as the frames are there for the tables missing. -/
theorem tree_descend (h : Tree la57 supply root N m) (hd : Distinct supply N) (hpos : 0 < m.pmm)
    (hptr : PointsTo la57 ptr t) (ht : tableAt tableOf m.mem.entries root p = some t)
    (hlen : p.length + is.length + 1 = levels la57)
    (hsome : ∀ k, m.pmm ≤ k → k < m.pmm + missing tableOf m.mem.entries t is →
      ∃ f, supply k = some f ∧ Holds flags f)
    (hN : (descend la57 (orNull la57 supply) m ptr flags is).2.pmm ≤ N) :
    let r := descend la57 (orNull la57 supply) m ptr flags is
    Tree la57 supply root N r.2 ∧ ∃ u, PointsTo la57 r.1 u ∧ Bottom la57 supply root N r.2 u := by
  induction is generalizing m ptr t p with
  | nil =>
    simp only [List.length_nil, Nat.add_zero] at hlen
    exact ⟨h, t, hptr, h.bottom ht hlen⟩
  | cons i is ih =>
    simp only [List.length_cons] at hlen
    cases hpres : Entry.present (m.mem.entries t i) with
    | true =>
      obtain ⟨k, f, _, _, _, hmask⟩ := h.owned p t i (by omega) ht hpres
      have hframe := frame_of_mask hmask
      have htable := table_of_present hpres
      have hu : tableAt tableOf m.mem.entries root (p ++ [i]) = some f := by
        rw [tableAt_append ht]
        simp [tableAt, htable, hframe]
      have hload : Entry.present (m.load la57 (ptr + 8#64 * i.setWidth 64)) = true := by
        rwa [load_slot hptr]
      simp only [missing, htable, hframe] at hsome
      simp only [descend, getPageMapLevel_of_present _ flags hload, load_slot hptr, hmask] at hN ⊢
      exact ih h hpos (pointsTo_frameAddr la57 f) hu (by simp; omega) hsome hN
    | false =>
      have hload : Entry.present (m.load la57 (ptr + 8#64 * i.setWidth 64)) = false := by
        rwa [load_slot hptr]
      simp only [missing, table_of_absent hpres] at hsome
      obtain ⟨f, hf, hfl⟩ := hsome m.pmm le_rfl (by omega)
      simp only [descend, getPageMapLevel_of_absent _ flags hload, orNull, hf, answer,
        higherHalfDataToPhys_physToHigherHalfData] at hN ⊢
      have hlt : m.pmm < N := (pmm_descend_orNull la57 supply _ _ flags is).1.trans hN
      rw [show _ &&& _ = _ from hfl] at hN ⊢
      have hnext : ∀ k, m.pmm + 1 ≤ k → k < m.pmm + 1 + is.length →
          ∃ f, supply k = some f ∧ Holds flags f :=
        fun k hk hkl => hsome k (Nat.le_of_succ_le hk) (by omega)
      cases h0 : flags.getLsbD 0 with
      | true =>
        obtain ⟨htree, hu, hbare⟩ := h.link (i := i) hd hpos hlt hf hptr ht (by omega) hfl h0
        have hmiss := missing_childless (q := is) fun j => table_of_absent (hbare j)
        refine ih htree (Nat.succ_pos _) (pointsTo_frameAddr la57 f) hu (by simp; omega) ?_ hN
        rw [hmiss]
        exact hnext
      | false =>
        obtain ⟨htree, houtf, hbaref, htaken⟩ :=
          h.absent_link hd hlt hf h0 (ptr + 8#64 * i.setWidth 64)
        exact tree_descend_outside htree hd h0 (pointsTo_frameAddr la57 f) houtf hbaref htaken hnext hN

/-! Runs of calls. -/

/-- A call with any arguments. -/
def AnyStep (la57 : Bool) (supply : ℕ → Option Frame) (dir : Word) (m : Machine ℕ) (a : Call)
    (m' : Machine ℕ) : Prop :=
  m' = a.applyWith la57 (orNull la57 supply) dir m

/-- A call of `vmm_map_page` makes nothing present, or among the frames `next` to come there is
one for each table it needs, and the flags leave its address alone. -/
def Supplied (la57 : Bool) (next : ℕ → Option Frame) (root : Frame) (mem : Memory) : Call → Prop
  | .map pa va flags =>
    (pa.getLsbD 0 = false ∧ flags.getLsbD 0 = false) ∨
      ∀ k < missing tableOf mem.entries root (upperIndices la57 va),
        ∃ f, next k = some f ∧ Holds flags f
  | .unmap _ => True

def SuppliedStep (la57 : Bool) (supply : ℕ → Option Frame) (root : Frame) (dir : Word)
    (m : Machine ℕ) (a : Call) (m' : Machine ℕ) : Prop :=
  AnyStep la57 supply dir m a m' ∧ Supplied la57 (fun k => supply (m.pmm + k)) root m.mem a

/-- Entry `i` of `t`, the root or an intermediate table, is present. -/
def Linked (la57 : Bool) (root : Frame) (m : Machine ℕ) (t : Frame) (i : Index) : Prop :=
  (∃ p, p.length + 1 < levels la57 ∧ tableAt tableOf m.mem.entries root p = some t) ∧
    Entry.present (m.mem.entries t i) = true

/-- The tables form a tree of frames that `pmm_alloc` returned. -/
structure Owned (la57 : Bool) (supply : ℕ → Option Frame) (root : Frame) (m : Machine ℕ) :
    Prop where
  returned : ∀ t i, Linked la57 root m t i → ∃ k f, k < m.pmm ∧ supply k = some f ∧
    m.mem.entries t i &&& ~~~511#64 = frameAddr f ∧ f ≠ root
  once : ∀ t i s j, Linked la57 root m t i → Linked la57 root m s j →
    m.mem.entries t i &&& ~~~511#64 = m.mem.entries s j &&& ~~~511#64 → t = s ∧ i = j

/-- A new directory, by an allocator that may return `NULL`. -/
def createdOrNull (la57 : Bool) (supply : ℕ → Option Frame) (mem : Memory) : Word × Machine ℕ :=
  vmmCreatePageDirectory la57 (orNull la57 supply) ⟨mem, 0⟩

/-- What is assumed of the frames that the first `n` calls of `pmm_alloc` return. -/
structure FreshSupply (supply : ℕ → Option Frame) (mem : Memory) (n : ℕ) : Prop where
  low : ∀ k f, k < n → supply k = some f → f.toNat < 2 ^ 35
  distinct : Distinct supply n
  zero : ∀ k f, k < n → supply k = some f → ∀ i, mem.entries f i = 0#64

theorem pmm_anyStep {dir : Word} {a : Call} (h : AnyStep la57 supply dir m a m') :
    m.pmm ≤ m'.pmm := by
  cases h
  exact (pmm_applyWith la57 (fun _ _ => rfl) dir m a).1

theorem pmm_suppliedRun {dir : Word} {calls : List Call}
    (h : Run (SuppliedStep la57 supply root dir) m calls m') : m.pmm ≤ m'.pmm :=
  h.invariant (P := fun s => m.pmm ≤ s.pmm) le_rfl fun _ _ _ hs hst => hs.trans (pmm_anyStep hst.1)

/-- A call that makes nothing present clears entries at most. -/
theorem thinner_call (dir : Word) (is : List Index) (h0 : flags.getLsbD 0 = false)
    (he : Entry.present e = false) (m : Machine ℕ) :
    let r := descend la57 (orNull la57 supply) m dir flags is
    Thinner m.mem (r.2.store la57 (r.1 + 8#64 * i.setWidth 64) e).mem :=
  (thinner_descend la57 supply h0 m dir is).trans (thinner_store la57 _ _ he)

theorem tree_step {dir : Word} {a : Call} (h : Tree la57 supply root N m) (hd : Distinct supply N)
    (hpos : 0 < m.pmm) (hdir : PointsTo la57 dir root) (hs : SuppliedStep la57 supply root dir m a m')
    (hN : m'.pmm ≤ N) : Tree la57 supply root N m' := by
  obtain ⟨hstep, hguard⟩ := hs
  have hmono := pmm_anyStep hstep
  cases hstep
  cases a with
  | map pa va flags =>
    simp only [Call.applyWith, vmmMapPage_eq] at hN hmono ⊢
    rcases hguard with ⟨hpa, h0⟩ | hsome
    · have hleaf : Entry.present (pa ||| flags.signExtend 64) = false := by
        rw [Entry.present, BitVec.getLsbD_or, hpa, getLsbD_signExtend_flags 0 (by decide), h0]
        rfl
      exact h.thin (thinner_call dir _ h0 hleaf m) hmono
    · have hlen := length_upperIndices la57 va
      have hnext : ∀ k, m.pmm ≤ k →
          k < m.pmm + missing tableOf m.mem.entries root (upperIndices la57 va) →
          ∃ f, supply k = some f ∧ Holds flags f := by
        intro k hk hkl
        obtain ⟨f, hf, hfl⟩ := hsome (k - m.pmm) (by omega)
        exact ⟨f, by simpa only [Nat.add_sub_cancel' hk] using hf, hfl⟩
      obtain ⟨htree, u, hptr, hbottom⟩ :=
        tree_descend (p := []) h hd hpos hdir rfl (by simpa using hlen) hnext hN
      exact htree.store_bottom hptr hbottom _
  | unmap va =>
    simp only [Call.applyWith, vmmUnmapPage_eq] at hN hmono ⊢
    exact h.thin (thinner_call dir _ (by decide) (by decide) m) hmono

theorem tree_run {dir : Word} {calls : List Call}
    (h : Run (SuppliedStep la57 supply root dir) m calls m') (ht : Tree la57 supply root N m)
    (hd : Distinct supply N) (hpos : 0 < m.pmm) (hdir : PointsTo la57 dir root)
    (hN : m'.pmm ≤ N) : Tree la57 supply root N m' := by
  induction h with
  | refl => exact ht
  | stepL hst htail ih =>
    have ht' := tree_step ht hd hpos hdir hst ((pmm_suppliedRun htail).trans hN)
    exact ih ht' (hpos.trans_le (pmm_anyStep hst.1)) hN

/-- The tree of a new directory is its root. -/
theorem tree_created (la57 : Bool) (h0 : supply 0 = some root) (h : FreshSupply supply mem N)
    (hN : 0 < N) : Tree la57 supply root N (createdOrNull la57 supply mem).2 := by
  have hzero : ∀ k f, k < N → supply k = some f → ∀ i,
      Entry.present ((createdOrNull la57 supply mem).2.mem.entries f i) = false := by
    intro k f hk hf i
    have hz := h.zero k f hk hf i
    simp only [createdOrNull, vmmCreatePageDirectory, Machine.clear, Memory.entries] at hz ⊢
    split
    · decide
    · rw [hz]
      decide
  have hroot := fun i => table_of_absent (hzero 0 root hN h0 i)
  refine ⟨?_, ?_, ?_⟩
  · intro p q t _ _ hp hq
    obtain ⟨rfl, _⟩ := tableAt_childless hroot hp
    obtain ⟨rfl, _⟩ := tableAt_childless hroot hq
    rfl
  · intro p t i _ hp hpres
    obtain ⟨_, rfl⟩ := tableAt_childless hroot hp
    exact absurd hpres (Bool.eq_false_iff.mp (hzero 0 _ hN h0 i))
  · intro k f hk hkN hf
    refine ⟨?_, hzero k f hkN hf⟩
    rintro ⟨p, _, hp⟩
    obtain ⟨_, rfl⟩ := tableAt_childless hroot hp
    exact h.distinct 0 k _ _ hk hkN h0 hf rfl

theorem Tree.linked (h : Tree la57 supply root N m) (hl : Linked la57 root m t i) :
    ∃ p f, p.length + 1 < levels la57 ∧ tableAt tableOf m.mem.entries root p = some t ∧
      tableAt tableOf m.mem.entries root (p ++ [i]) = some f ∧
      m.mem.entries t i &&& ~~~511#64 = frameAddr f ∧ ∃ k, k < m.pmm ∧ supply k = some f := by
  obtain ⟨⟨p, hp, ht⟩, hpres⟩ := hl
  obtain ⟨k, f, _, hk, hf, hmask⟩ := h.owned p t i hp ht hpres
  refine ⟨p, f, hp, ht, ?_, hmask, k, hk, hf⟩
  rw [tableAt_append ht]
  simp [tableAt, table_of_present hpres, frame_of_mask hmask]

theorem Tree.to_owned (h : Tree la57 supply root N m) : Owned la57 supply root m := by
  refine ⟨?_, ?_⟩
  · intro t i hl
    obtain ⟨p, f, hp, _, hf, hmask, k, hk, hkf⟩ := h.linked hl
    refine ⟨k, f, hk, hkf, hmask, ?_⟩
    rintro rfl
    -- the root is the table of the empty path
    have hpath := h.unshared (p ++ [i]) [] f (by simp; omega) (by simp; omega) hf rfl
    simp at hpath
  · intro t i s j hl hl' heq
    obtain ⟨p, f, hp, ht, hf, hmask, _⟩ := h.linked hl
    obtain ⟨q, g, hq, hs, hg, hmask', _⟩ := h.linked hl'
    rw [hmask, hmask'] at heq
    cases frameAddr_injective heq
    have hpath := h.unshared (p ++ [i]) (q ++ [j]) f (by simp; omega) (by simp; omega) hf hg
    obtain ⟨rfl, hij⟩ := List.append_inj' hpath rfl
    exact ⟨Option.some.inj (ht.symm.trans hs), List.head_eq_of_cons_eq hij⟩

/-- In every state of a run whose calls find their frames, the tables form a tree of frames that
`pmm_alloc` returned. -/
theorem owned_of_supplied (la57 : Bool) (supply : ℕ → Option Frame) (mem : Memory) (root : Frame)
    (calls : List Call) (m : Machine ℕ) (h0 : supply 0 = some root)
    (h : Run (SuppliedStep la57 supply root (createdOrNull la57 supply mem).1)
      (createdOrNull la57 supply mem).2 calls m)
    (hfresh : FreshSupply supply mem m.pmm) : Owned la57 supply root m := by
  have hpos : 0 < m.pmm := lt_of_lt_of_le Nat.zero_lt_one (pmm_suppliedRun h)
  have hdir : PointsTo la57 (createdOrNull la57 supply mem).1 root := by
    have hlow := hfresh.low 0 root hpos h0
    simpa only [createdOrNull, vmmCreatePageDirectory, orNull, h0, answer] using
      pointsTo_higherHalf la57 hlow
  have htree := tree_created la57 h0 hfresh hpos
  exact (tree_run h htree hfresh.distinct Nat.zero_lt_one hdir le_rfl).to_owned

def lowSupply (k : ℕ) : Option Frame := some (lowFrames k)

theorem lowSupply_fresh (hn : N < 2 ^ 30) : FreshSupply lowSupply (fun _ => 0#64) N := by
  obtain ⟨hlow, hdistinct, _⟩ := lowFrames_fresh hn
  refine ⟨?_, ?_, fun _ _ _ _ _ => rfl⟩
  · intro k f hk hf
    cases hf
    exact hlow k hk
  · intro j k f g hjk hk hf hg
    cases hf
    cases hg
    exact hdistinct j k hjk hk

/-- It never runs out. -/
theorem lowSupply_supplied (m : Machine ℕ) (pa va : Word) (hflags : flags.toNat < 512) :
    Supplied false (fun k => lowSupply (m.pmm + k)) 1#40 m.mem (.map pa va flags) :=
  .inr fun _ _ => ⟨_, rfl, (link_fields flags hflags _).2.1⟩

theorem owned_of_supplied_lowFrames :
    let r := createdOrNull false lowSupply fun _ => 0#64
    Owned false lowSupply 1#40
      (lowCalls.foldl (Call.applyWith false (orNull false lowSupply) r.1) r.2) :=
  owned_of_supplied false lowSupply (fun _ => 0#64) 1#40 lowCalls _ rfl
    (.stepL ⟨rfl, lowSupply_supplied _ _ _ (by decide)⟩
      (.stepL ⟨rfl, lowSupply_supplied _ _ _ (by decide)⟩ (.stepL ⟨rfl, trivial⟩ (.refl _))))
    (lowSupply_fresh (by decide +kernel))

/-- A memory with one frame left, which becomes the root. -/
def oneFrame (k : ℕ) : Option Frame := if k = 0 then some 1#40 else none

theorem oneFrame_eq {k : ℕ} (h : oneFrame k = some f) : k = 0 ∧ f = 1#40 := by
  cases k with
  | zero => exact ⟨rfl, (Option.some.inj h).symm⟩
  | succ k => cases h

theorem oneFrame_fresh (n : ℕ) : FreshSupply oneFrame (fun _ => 0#64) n := by
  refine ⟨?_, ?_, fun _ _ _ _ _ => rfl⟩
  · intro k f _ hf
    obtain ⟨_, rfl⟩ := oneFrame_eq hf
    decide
  · intro j k f g hjk _ _ hg
    obtain ⟨rfl, _⟩ := oneFrame_eq hg
    cases hjk

/-- When memory has run out, the entry for a missing table is made from `NULL`. -/
theorem owned_fails :
    ¬ ∀ (la57 : Bool) (supply : ℕ → Option Frame) (mem : Memory) (root : Frame) (calls : List Call)
      (m : Machine ℕ), supply 0 = some root →
      Run (AnyStep la57 supply (createdOrNull la57 supply mem).1)
        (createdOrNull la57 supply mem).2 calls m →
      FreshSupply supply mem m.pmm → Owned la57 supply root m := by
  intro h
  have howned := h false oneFrame (fun _ => 0#64) 1#40 [.map 0x5000#64 0x200000#64 3#32] _ rfl
    (.stepL rfl (.refl _)) (oneFrame_fresh _)
  obtain ⟨k, f, _, hf, hmask, _⟩ := howned.returned 1#40 0#9 ⟨⟨[], by decide, rfl⟩, by decide⟩
  obtain ⟨_, rfl⟩ := oneFrame_eq hf
  exact absurd hmask (by decide)

end KnutOS.Vmm
