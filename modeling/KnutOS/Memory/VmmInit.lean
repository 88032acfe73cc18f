import KnutOS.Memory.VmmRights

/-! The directory that `vmm_init` builds: three windows, mapped page by page. -/
namespace KnutOS.Vmm

open Foundation RadixTree

variable {la57 : Bool} {frames : ℕ → Frame} {root t f : Frame} {N n : ℕ} {m m' : Machine ℕ}
  {mem : Memory} {ptr pa va v base e : Word} {flags : BitVec 32} {fl : BitVec 9}
  {p is : List Index} {calls : List Call}

/-! Entries above level 1, in a tree that is only ever mapped into. -/

/-- What is present above level 1 satisfies `Q`. -/
def Upper (la57 : Bool) (Q : Word → Prop) (root : Frame) (m : Machine ℕ) : Prop :=
  ∀ p t i, p.length + 1 < levels la57 → tableAt Entry.child m.mem.entries root p = some t →
    Entry.present (m.mem.entries t i) = true → Q (m.mem.entries t i)

variable {Q : Word → Prop}

theorem upper_link (h : Sound la57 frames root N m) (hu : Upper la57 Q root m) (hN : m.pmm < N)
    (hptr : PointsTo la57 ptr t) (ht : tableAt Entry.child m.mem.entries root p = some t)
    (hp : p.length + 1 < levels la57) (hfl : Linkable flags) {i : Index}
    (hQ : ∀ f, Q (frameAddr f ||| flags.signExtend 64)) :
    Upper la57 Q root (Machine.store la57 ⟨m.mem, m.pmm + 1⟩ (ptr + 8#64 * i.setWidth 64)
      (frameAddr (frames m.pmm) ||| flags.signExtend 64)) := by
  obtain ⟨hout, hbare⟩ := h.spare m.pmm le_rfl hN
  intro q s j hq
  rw [entries_store (m := ⟨m.mem, m.pmm + 1⟩) hptr]
  intro hs hpres
  by_cases hst : s = t ∧ j = i
  · obtain ⟨rfl, rfl⟩ := hst
    rw [write_self]
    exact hQ _
  · rw [write_of_ne hst] at hpres ⊢
    rcases tableAt_link h.directory.unshared ht hp (hfl.entry _).1 hout
      (fun j => child_of_absent (hbare j)) (by omega) hs with ⟨rfl, _⟩ | hs'
    · rw [hbare j] at hpres
      cases hpres
    · exact hu q s j hq hs' hpres

theorem upper_descend (h : Sound la57 frames root N m) (hu : Upper la57 Q root m)
    (hptr : PointsTo la57 ptr t) (ht : tableAt Entry.child m.mem.entries root p = some t)
    (hlen : p.length + is.length + 1 = levels la57)
    (hN : (descend la57 (handOut la57 frames) m ptr flags is).2.pmm ≤ N) (hfl : Linkable flags)
    (hQ : ∀ f, Q (frameAddr f ||| flags.signExtend 64)) :
    Upper la57 Q root (descend la57 (handOut la57 frames) m ptr flags is).2 := by
  induction is generalizing m ptr t p with
  | nil => exact hu
  | cons i is ih =>
    simp only [List.length_cons] at hlen
    cases hpres : Entry.present (m.mem.entries t i) with
    | true =>
      obtain ⟨u, _, hut, hptr'⟩ := child_step h.directory ht (by omega) hpres
      simp only [descend, vmmGetPageMapLevel_of_present hptr hpres] at hN ⊢
      exact ih h hu hptr' hut (by simp; omega) hN
    | false =>
      simp only [descend, vmmGetPageMapLevel_of_absent hptr hpres] at hN ⊢
      have hlt := (pmm_descend la57 frames _ _ flags is).1.trans hN
      obtain ⟨hs, hut, _⟩ := h.store_link hlt hptr ht (by omega) hpres hfl
      have hu' := upper_link (i := i) h hu hlt hptr ht (by omega) hfl hQ
      rw [(hfl.entry _).2.1] at hN ⊢
      exact ih hs hu' (pointsTo_frameAddr la57 _) hut (by simp; omega) hN

theorem upper_store_leaf (h : Sound la57 frames root N m) (hu : Upper la57 Q root m)
    (hptr : PointsTo la57 ptr t)
    (ht : tableAt Entry.child m.mem.entries root (upperIndices la57 va) = some t) (e : Word) :
    Upper la57 Q root (m.store la57 (ptr + 8#64 * (leafIndex va).setWidth 64) e) := by
  have hlen := length_upperIndices la57 va
  intro q s j hq
  rw [entries_store hptr, tableAt_write_leaf h.directory.unshared ht hlen (by omega)]
  intro hs
  rw [write_other (ne_leaf_table h.directory.unshared ht hq hs)]
  exact hu q s j hq hs

/-- Calls of `vmm_map_page` with the same flags permit each other. -/
theorem permitted_of_upper (hu : Upper la57 (Permits (flags.setWidth 9)) root m) (pa va : Word) :
    Permitted la57 root m (.map pa va flags) := by
  intro e he hpres
  obtain ⟨q, i, r, t, hq, ht, rfl⟩ := mem_trail he
  have hlen := length_upperIndices la57 va
  rw [hq, List.length_append, List.length_cons] at hlen
  exact hu q t i (by omega) ht hpres

/-! The three loops as one list of calls. -/

/-- The calls of one loop. -/
def windowCalls (limit : Word) (virtualAddress : Word → Word) (flags : BitVec 32) : List Call :=
  (List.range ((limit.toNat + 4095) / 4096)).map fun k =>
    .map (BitVec.ofNat 64 (k * 4096)) (virtualAddress (BitVec.ofNat 64 (k * 4096))) flags

def initCalls (la57 : Bool) : List Call :=
  windowCalls (4#64 * gb) (fun i => i) (ptePresent ||| pteReadWrite) ++
    windowCalls (4#64 * gb) (physToHigherHalfData la57) (ptePresent ||| pteReadWrite) ++
    windowCalls 0x80000000#64 physToHigherHalfCode ptePresent

/-- The calls made one after the other. -/
def applyAll {σ : Type*} (la57 : Bool) (pmmAlloc : σ → ℕ → Word × σ) (dir : Word)
    (calls : List Call) (m : Machine σ) : Machine σ :=
  calls.foldl (Call.applyWith la57 pmmAlloc dir) m

theorem applyAll_append {σ : Type*} (la57 : Bool) (A : σ → ℕ → Word × σ) (dir : Word)
    (w₁ w₂ : List Call) (m : Machine σ) :
    applyAll la57 A dir (w₁ ++ w₂) m = applyAll la57 A dir w₂ (applyAll la57 A dir w₁ m) :=
  List.foldl_append

theorem vmmMapWindow_eq {σ : Type*} (la57 : Bool) (A : σ → ℕ → Word × σ) (m : Machine σ)
    (dir limit : Word) (virtualAddress : Word → Word) (flags : BitVec 32) :
    vmmMapWindow la57 A m dir limit virtualAddress flags =
      applyAll la57 A dir (windowCalls limit virtualAddress flags) m := by
  rw [vmmMapWindow, applyAll, windowCalls, List.foldl_map]
  rfl

theorem vmmInit_eq {σ : Type*} (la57 : Bool) (A : σ → ℕ → Word × σ) (m : Machine σ) :
    vmmInit la57 A m =
      let (dir, m) := vmmCreatePageDirectory la57 A m
      (vmmActivatePageDirectory la57 dir, applyAll la57 A dir (initCalls la57) m) := by
  simp only [vmmInit, vmmMapWindow_eq, initCalls, applyAll, List.foldl_append]

theorem vmmInit_created (la57 : Bool) (frames : ℕ → Frame) (mem : Memory) :
    vmmInit la57 (handOut la57 frames) ⟨mem, 0⟩ =
      (vmmActivatePageDirectory la57 (created la57 frames mem).1,
        applyAll la57 (handOut la57 frames) (created la57 frames mem).1 (initCalls la57)
          (created la57 frames mem).2) :=
  vmmInit_eq la57 (handOut la57 frames) ⟨mem, 0⟩

theorem pmm_applyAll (la57 : Bool) (A : ℕ → ℕ → Word × ℕ) (hA : ∀ k n, (A k n).2 = k + 1)
    (dir : Word) (calls : List Call) (m : Machine ℕ) :
    m.pmm ≤ (applyAll la57 A dir calls m).pmm ∧
      (applyAll la57 A dir calls m).pmm ≤ m.pmm + 4 * calls.length := by
  induction calls generalizing m with
  | nil => exact ⟨le_rfl, le_rfl⟩
  | cons a calls ih =>
    obtain ⟨h1, h2⟩ := pmm_applyWith la57 hA dir m a
    obtain ⟨h3, h4⟩ := ih (a.applyWith la57 A dir m)
    rw [List.length_cons]
    exact ⟨h1.trans h3, h4.trans (by omega)⟩

/-- Valid calls with the same flags, PAT clear: each permits the next. -/
theorem uniform_run {dir : Word} (hm : ∀ a ∈ calls, a.Valid la57 ∧ ∃ pa va, a = .map pa va flags)
    (h7 : flags.getLsbD 7 = false) (h : Sound la57 frames (frames 0) N m)
    (hdir : PointsTo la57 dir (frames 0)) (hu : Upper la57 (Permits (flags.setWidth 9)) (frames 0) m)
    (hN : (applyAll la57 (handOut la57 frames) dir calls m).pmm ≤ N) :
    Run (PermittedStep la57 frames dir) m calls (applyAll la57 (handOut la57 frames) dir calls m) ∧
      Sound la57 frames (frames 0) N (applyAll la57 (handOut la57 frames) dir calls m) ∧
      Upper la57 (Permits (flags.setWidth 9)) (frames 0)
        (applyAll la57 (handOut la57 frames) dir calls m) := by
  induction calls generalizing m with
  | nil => exact ⟨.refl _, h, hu⟩
  | cons a calls ih =>
    obtain ⟨hvalid, pa, va, rfl⟩ := hm a (by simp)
    have hva : IsPage la57 va := hvalid.2.2.1
    have hlink : Linkable flags := ⟨hvalid.2.2.2.1, hvalid.2.2.2.2, h7⟩
    have hlen := length_upperIndices la57 va
    have hN' := (pmm_applyAll la57 (handOut la57 frames) (fun _ _ => rfl) dir calls
      ((Call.map pa va flags).apply la57 frames dir m)).1.trans hN
    have hsound := (sound_map h hdir hN' hva (.inl hlink)).1
    have hupper : Upper la57 (Permits (flags.setWidth 9)) (frames 0)
        ((Call.map pa va flags).apply la57 frames dir m) := by
      simp only [Call.apply, vmmMapPage_eq] at hN' ⊢
      obtain ⟨hs, ⟨u, hut, hptr⟩, _⟩ :=
        sound_descend (p := []) h hdir rfl (by simpa using hlen) hN' (.inl hlink)
      exact upper_store_leaf hs (upper_descend (p := []) h hu hdir rfl (by simpa using hlen) hN'
        hlink (permits_link hlink.low)) hptr hut _
    obtain ⟨hrun, hs', hu'⟩ := ih (fun b hb => hm b (by simp [hb])) hsound hupper hN
    exact ⟨.stepL ⟨⟨⟨hvalid, rfl⟩, .inl h7⟩, permitted_of_upper hu pa va⟩ hrun, hs', hu'⟩

/-! What the three windows map. -/

/-- The calls of a window at `base`. -/
theorem mem_windowCalls {limit : Word} {virtualAddress : Word → Word} {a : Call}
    (h : a ∈ windowCalls limit virtualAddress flags) :
    ∃ k, k * 4096 < limit.toNat ∧
      a = .map (BitVec.ofNat 64 (k * 4096)) (virtualAddress (BitVec.ofNat 64 (k * 4096))) flags := by
  obtain ⟨k, hk, rfl⟩ := List.mem_map.mp h
  rw [List.mem_range] at hk
  exact ⟨k, by omega, rfl⟩

theorem valid_windowCalls {limit : Word} {virtualAddress : Word → Word} (hlimit : limit.toNat ≤ 2 ^ 32)
    (hpage : ∀ i : Word, i.toNat % 4096 = 0 → i < limit → IsPage la57 (virtualAddress i))
    (hlow : flags.toNat < 512) (h0 : flags.getLsbD 0 = true) :
    ∀ a ∈ windowCalls limit virtualAddress flags,
      a.Valid la57 ∧ ∃ pa va, a = .map pa va flags := by
  intro a ha
  obtain ⟨k, hk, rfl⟩ := mem_windowCalls ha
  have hn : (BitVec.ofNat 64 (k * 4096)).toNat = k * 4096 := by
    rw [BitVec.toNat_ofNat]
    omega
  refine ⟨⟨by omega, by omega, hpage _ (by omega) ?_, hlow, h0⟩, _, _, rfl⟩
  rw [BitVec.lt_def, hn]
  exact hk

theorem update_window {virtualAddress : Word → Word} (hvirt : ∀ i, virtualAddress i = base + i)
    (hbase : base.toNat % 4096 = 0) (hv : v.toNat % 4096 = 0) (f : PageMap) (hn : n ≤ 2 ^ 20) :
    ((List.range n).map fun k => Call.map (BitVec.ofNat 64 (k * 4096))
      (virtualAddress (BitVec.ofNat 64 (k * 4096))) flags).foldl Call.update f v =
      if (v - base).toNat < n * 4096 then some (v - base, flags.setWidth 9) else f v := by
  induction n with
  | zero => simp
  | succ n ih =>
    have hoff : (BitVec.ofNat 64 (n * 4096)).toNat = n * 4096 := by
      rw [BitVec.toNat_ofNat]
      omega
    have hdist : (v - base).toNat % 4096 = 0 := by
      rw [BitVec.toNat_sub]
      have := base.isLt
      omega
    simp only [List.range_succ, List.map_append, List.map_cons, List.map_nil, List.foldl_append,
      List.foldl_cons, List.foldl_nil, Call.update, hvirt]
    by_cases he : v = base + BitVec.ofNat 64 (n * 4096)
    · have hsub : v - base = BitVec.ofNat 64 (n * 4096) := by
        rw [he]
        bv_omega
      rw [he, Function.update_self, ← he, hsub, if_pos (by omega)]
    · have hne : (v - base).toNat ≠ n * 4096 := by
        intro hd
        apply he
        rw [← hoff] at hd
        rw [← BitVec.eq_of_toNat_eq hd]
        bv_omega
      rw [Function.update_of_ne he]
      simp only [hvirt] at ih
      rw [ih (by omega)]
      have hiff : (v - base).toNat < (n + 1) * 4096 ↔ (v - base).toNat < n * 4096 := by omega
      simp only [hiff]

theorem update_windowCalls (limit base : Word) (virtualAddress : Word → Word)
    (hvirt : ∀ i, virtualAddress i = base + i) (hbase : base.toNat % 4096 = 0)
    (hlimit : limit.toNat % 4096 = 0 ∧ limit.toNat ≤ 2 ^ 32) (hv : v.toNat % 4096 = 0)
    (f : PageMap) :
    (windowCalls limit virtualAddress flags).foldl Call.update f v =
      if (v - base).toNat < limit.toNat then some (v - base, flags.setWidth 9) else f v := by
  have hrounds : (limit.toNat + 4095) / 4096 * 4096 = limit.toNat := by omega
  rw [windowCalls, update_window hvirt hbase hv f (by omega), hrounds]

/-- The flat map of the three windows. -/
def initMap (la57 : Bool) : PageMap := fun v =>
  if (v - higherHalfCode).toNat < 2 ^ 31 then some (v - higherHalfCode, 1#9)
  else if (v - higherHalfData la57).toNat < 2 ^ 32 then some (v - higherHalfData la57, 3#9)
  else if v.toNat < 2 ^ 32 then some (v, 3#9)
  else none

/-! The windows do not overlap. -/

theorem initMap_code (la57 : Bool) (h : higherHalfCode.toNat ≤ v.toNat) :
    initMap la57 v = some (v - higherHalfCode, 1#9) := by
  have hlt := v.isLt
  have hc : (v - higherHalfCode).toNat < 2 ^ 31 := by
    simp only [higherHalfCode] at h ⊢
    bv_omega
  exact if_pos hc

theorem not_code (h : ¬ higherHalfCode.toNat ≤ v.toNat) :
    ¬ (v - higherHalfCode).toNat < 2 ^ 31 := by
  have hlt := v.isLt
  simp only [higherHalfCode] at h ⊢
  bv_omega

theorem data_iff (la57 : Bool) (h : ¬ higherHalfCode.toNat ≤ v.toNat) :
    (v - higherHalfData la57).toNat < 2 ^ 32 ↔
      (higherHalfData la57).toNat ≤ v.toNat ∧ v.toNat < (higherHalfData la57).toNat + 2 ^ 32 := by
  have hlt := v.isLt
  cases la57 <;>
    simp only [higherHalfCode, higherHalfData, Bool.false_eq_true, if_false, if_true] at h ⊢ <;>
    rw [BitVec.toNat_sub] <;> simp only [BitVec.toNat_ofNat] at h ⊢ <;> omega

theorem initMap_data (la57 : Bool) (h : (higherHalfData la57).toNat ≤ v.toNat ∧
    v.toNat < (higherHalfData la57).toNat + 2 ^ 32) :
    initMap la57 v = some (v - higherHalfData la57, 3#9) := by
  have hcode : ¬ higherHalfCode.toNat ≤ v.toNat := by
    intro hc
    have hlt := v.isLt
    cases la57 <;>
      simp only [higherHalfCode, higherHalfData, Bool.false_eq_true, if_false, if_true,
        BitVec.toNat_ofNat] at h hc <;> omega
  rw [initMap, if_neg (not_code hcode), if_pos ((data_iff la57 hcode).mpr h)]

theorem initMap_identity (la57 : Bool) (h : v.toNat < 2 ^ 32) :
    initMap la57 v = some (v, 3#9) := by
  have hcode : ¬ higherHalfCode.toNat ≤ v.toNat := by
    simp only [higherHalfCode, BitVec.toNat_ofNat]
    omega
  have hdata : ¬ (v - higherHalfData la57).toNat < 2 ^ 32 := by
    rw [data_iff la57 hcode]
    cases la57 <;>
      simp only [higherHalfData, Bool.false_eq_true, if_false, if_true, BitVec.toNat_ofNat] <;> omega
  rw [initMap, if_neg (not_code hcode), if_neg hdata, if_pos h]

theorem initMap_elsewhere (la57 : Bool) (h1 : ¬ v.toNat < 2 ^ 32)
    (h2 : ¬ ((higherHalfData la57).toNat ≤ v.toNat ∧
      v.toNat < (higherHalfData la57).toNat + 2 ^ 32))
    (h3 : ¬ higherHalfCode.toNat ≤ v.toNat) : initMap la57 v = none := by
  rw [initMap, if_neg (not_code h3), if_neg (by rwa [data_iff la57 h3]), if_neg h1]

theorem mappings_initCalls (la57 : Bool) (hv : v.toNat % 4096 = 0) :
    mappings (initCalls la57) v = initMap la57 v := by
  have hdata : (higherHalfData la57).toNat % 4096 = 0 := by cases la57 <;> decide
  simp only [mappings, initCalls, List.foldl_append]
  rw [update_windowCalls _ higherHalfCode physToHigherHalfCode (fun _ => rfl) (by decide)
      (by decide) hv,
    update_windowCalls _ (higherHalfData la57) (physToHigherHalfData la57) (fun _ => rfl) hdata
      (by decide) hv,
    update_windowCalls _ 0#64 (fun i => i) (fun i => (BitVec.zero_add i).symm) (by decide)
      (by decide) hv,
    BitVec.sub_zero]
  rfl

/-! The directory after `vmm_init`. -/

theorem valid_initCalls (la57 : Bool) :
    (∀ a ∈ windowCalls (4#64 * gb) (fun i => i) (ptePresent ||| pteReadWrite),
      a.Valid la57 ∧ ∃ pa va, a = .map pa va 3#32) ∧
    (∀ a ∈ windowCalls (4#64 * gb) (physToHigherHalfData la57) (ptePresent ||| pteReadWrite),
      a.Valid la57 ∧ ∃ pa va, a = .map pa va 3#32) ∧
    (∀ a ∈ windowCalls 0x80000000#64 physToHigherHalfCode ptePresent,
      a.Valid la57 ∧ ∃ pa va, a = .map pa va 1#32) := by
  refine ⟨valid_windowCalls (by decide) (fun i ha hi => ?_) (by decide) (by decide),
    valid_windowCalls (by decide) (fun i ha hi => ?_) (by decide) (by decide),
    valid_windowCalls (by decide) (fun i ha hi => ?_) (by decide) (by decide)⟩
  · have hlt : i.toNat < 2 ^ 32 := hi
    exact isPage_of_half ha (.inl (by omega))
  · have hlt : i.toNat < 2 ^ 32 := hi
    cases la57 with
    | false =>
      have hn : (physToHigherHalfData false i).toNat = 2 ^ 64 - 2 ^ 47 + i.toNat := by
        simp only [physToHigherHalfData, higherHalfData, Bool.false_eq_true, if_false]
        bv_omega
      exact isPage_of_half (by omega) (.inr (by simp only [Bool.false_eq_true, if_false]; omega))
    | true =>
      have hn : (physToHigherHalfData true i).toNat = 2 ^ 64 - 2 ^ 56 + i.toNat := by
        simp only [physToHigherHalfData, higherHalfData, if_true]
        bv_omega
      exact isPage_of_half (by omega) (.inr (by simp only [if_true]; omega))
  · have hlt : i.toNat < 2 ^ 31 := hi
    have hn : (physToHigherHalfCode i).toNat = 2 ^ 64 - 2 ^ 31 + i.toNat := by
      simp only [physToHigherHalfCode, higherHalfCode]
      bv_omega
    exact isPage_of_half (by omega) (.inr (by split <;> omega))

theorem upper_trivial : Upper la57 (Permits 1#9) root m := by
  intro p t i _ _ _
  exact ⟨fun h => absurd h (by decide), fun h => absurd h (by decide)⟩

theorem upper_created (la57 : Bool) {mem : Memory} (h : FreshFrames frames mem N) (hN : 0 < N) :
    Upper la57 Q (frames 0) (created la57 frames mem).2 := by
  have habs : ∀ i, Entry.present ((created la57 frames mem).2.mem.entries (frames 0) i) = false := by
    intro i
    rw [entries_created h hN]
    decide
  intro p t i _ hp hpres
  obtain ⟨_, rfl⟩ := tableAt_childless (fun i => child_of_absent (habs i)) hp
  rw [habs i] at hpres
  cases hpres

/-- Calls with the same flags, on a new directory, and then calls that ask for no right. -/
theorem uniform_runs (la57 : Bool) {mem : Memory} {w₁ w₂ : List Call}
    (h₁ : ∀ a ∈ w₁, a.Valid la57 ∧ ∃ pa va, a = .map pa va 3#32)
    (h₂ : ∀ a ∈ w₂, a.Valid la57 ∧ ∃ pa va, a = .map pa va 1#32)
    (hfresh : FreshFrames frames mem (applyAll la57 (handOut la57 frames)
      (created la57 frames mem).1 (w₁ ++ w₂) (created la57 frames mem).2).pmm) :
    Run (PermittedStep la57 frames (created la57 frames mem).1) (created la57 frames mem).2
      (w₁ ++ w₂) (applyAll la57 (handOut la57 frames) (created la57 frames mem).1 (w₁ ++ w₂)
        (created la57 frames mem).2) := by
  rw [applyAll_append] at hfresh ⊢
  have hle₁ := (pmm_applyAll la57 (handOut la57 frames) (fun _ _ => rfl)
    (created la57 frames mem).1 w₁ (created la57 frames mem).2).1
  have hle₂ := (pmm_applyAll la57 (handOut la57 frames) (fun _ _ => rfl)
    (created la57 frames mem).1 w₂ (applyAll la57 (handOut la57 frames)
      (created la57 frames mem).1 w₁ (created la57 frames mem).2)).1
  have hpos := Nat.zero_lt_one.trans_le (hle₁.trans hle₂)
  have hdir := pointsTo_higherHalf la57 (hfresh.low 0 hpos)
  obtain ⟨hr₁, hs₁, _⟩ := uniform_run h₁ (by decide) (sound_created la57 hfresh hpos).1 hdir
    (upper_created la57 hfresh hpos) hle₂
  exact hr₁.append (uniform_run h₂ (by decide) hs₁ hdir upper_trivial le_rfl).1

/-- The three loops are a run of calls that permit each other: the first two pass the same flags,
and the third asks for no right. -/
theorem init_run (la57 : Bool) {mem : Memory}
    (hfresh : FreshFrames frames mem (vmmInit la57 (handOut la57 frames) ⟨mem, 0⟩).2.pmm) :
    Run (PermittedStep la57 frames (created la57 frames mem).1) (created la57 frames mem).2
      (initCalls la57) (vmmInit la57 (handOut la57 frames) ⟨mem, 0⟩).2 := by
  obtain ⟨hv₁, hv₂, hv₃⟩ := valid_initCalls la57
  simp only [vmmInit_created, initCalls] at hfresh ⊢
  refine uniform_runs la57 (fun a ha => ?_) hv₃ hfresh
  rcases List.mem_append.mp ha with ha | ha
  · exact hv₁ a ha
  · exact hv₂ a ha

/-- After `vmm_init` the walk of every page finds what the flat map of the windows says, with the
rights of the flags there. -/
theorem init_walk (la57 : Bool) {mem : Memory}
    (hfresh : FreshFrames frames mem (vmmInit la57 (handOut la57 frames) ⟨mem, 0⟩).2.pmm)
    (hv : IsPage la57 v) :
    pageWalk la57 (vmmInit la57 (handOut la57 frames) ⟨mem, 0⟩).2.mem
        (vmmInit la57 (handOut la57 frames) ⟨mem, 0⟩).1 v = Walk.ofMapping (initMap la57 v) ∧
      ∀ pa fl, initMap la57 v = some (pa, fl) →
        rights la57 (vmmInit la57 (handOut la57 frames) ⟨mem, 0⟩).2.mem
          (vmmInit la57 (handOut la57 frames) ⟨mem, 0⟩).1 v =
            some ⟨fl.getLsbD 1, fl.getLsbD 2⟩ := by
  have hrun := init_run la57 hfresh
  have hpos : 0 < (vmmInit la57 (handOut la57 frames) ⟨mem, 0⟩).2.pmm :=
    lt_of_lt_of_le Nat.zero_lt_one (pmm_run (hrun.mono fun _ _ _ h => h.1))
  obtain ⟨hs, hr⟩ := sound_created la57 hfresh hpos
  have hdir := pointsTo_higherHalf la57 (hfresh.low 0 hpos)
  obtain ⟨hr', he'⟩ := permitted_run hrun hs hdir hr (fun _ _ _ _ hf => nomatch hf) le_rfl
  have hcr3 : (vmmInit la57 (handOut la57 frames) ⟨mem, 0⟩).1 = frameAddr (frames 0) :=
    higherHalfDataToPhys_physToHigherHalfData la57 _
  have hmap := mappings_initCalls la57 hv.aligned
  have hw := hr' v hv
  rw [show (initCalls la57).foldl Call.update (fun _ => none) v = _ from hmap] at hw
  rw [hcr3]
  refine ⟨hw, fun pa fl hf => ?_⟩
  rw [hf] at hw
  exact rights_eq (he' v hv pa fl (hmap.trans hf)) hw

/-! How many frames it takes. -/

/-- Whatever frames it gets, these are less than 40 GiB. -/
theorem pmm_vmmInit_le (la57 : Bool) (frames : ℕ → Frame) (mem : Memory) :
    (vmmInit la57 (handOut la57 frames) ⟨mem, 0⟩).2.pmm ≤ 10485761 := by
  have hlen : (initCalls la57).length = 2621440 := by
    simp only [initCalls, windowCalls, List.length_append, List.length_map, List.length_range]
    decide
  have hle := (pmm_applyAll la57 (handOut la57 frames) (fun _ _ => rfl)
    (created la57 frames mem).1 (initCalls la57) (created la57 frames mem).2).2
  have hone : (created la57 frames mem).2.pmm = 1 := rfl
  rw [hlen, hone] at hle
  rw [vmmInit_created]
  exact hle

/-- Pages in the same 2 MiB have their level 1 table in common. -/
theorem upperIndices_congr (la57 : Bool) (h : v.toNat / 2 ^ 21 = va.toNat / 2 ^ 21) :
    upperIndices la57 v = upperIndices la57 va := by
  have hfield : ∀ shift, 21 ≤ shift → v.extractLsb' shift 9 = va.extractLsb' shift 9 := by
    intro shift hshift
    obtain ⟨k, rfl⟩ := Nat.exists_eq_add_of_le hshift
    apply BitVec.eq_of_toNat_eq
    rw [BitVec.extractLsb'_toNat, BitVec.extractLsb'_toNat, Nat.shiftRight_add, Nat.shiftRight_add,
      Nat.shiftRight_eq_div_pow _ 21, Nat.shiftRight_eq_div_pow _ 21, h]
  cases la57 <;>
    simp only [upperIndices, Bool.false_eq_true, if_false, if_true, List.map_cons, List.map_nil,
      hfield 21 (by decide), hfield 30 (by decide), hfield 39 (by decide), hfield 48 (by decide)]

/-- How many of the calls go to other 2 MiB than the call before them. -/
def newRegions : Option ℕ → List Call → ℕ
  | _, [] => 0
  | region, .map _ va _ :: calls =>
    (if region = some (va.toNat / 2 ^ 21) then 0 else 1) +
      newRegions (some (va.toNat / 2 ^ 21)) calls
  | _, .unmap _ :: calls => 1 + newRegions none calls

/-- The pages of the region have their tables. -/
def InPlace (la57 : Bool) (root : Frame) (m : Machine ℕ) (region : Option ℕ) : Prop :=
  ∀ v, region = some (v.toNat / 2 ^ 21) →
    ∃ t, tableAt Entry.child m.mem.entries root (upperIndices la57 v) = some t

theorem inPlace_none : InPlace la57 root m none := fun _ hv => nomatch hv

theorem pmm_map_inPlace (h : Directory la57 m.mem root) (hptr : PointsTo la57 ptr root)
    (hin : InPlace la57 root m (some (va.toNat / 2 ^ 21))) :
    (vmmMapPage la57 (handOut la57 frames) m ptr pa va flags).pmm ≤ m.pmm := by
  have hlen := length_upperIndices la57 va
  have hle : (descend la57 (handOut la57 frames) m ptr flags (upperIndices la57 va)).2.pmm ≤
      m.pmm + missing Entry.child m.mem.entries root (upperIndices la57 va) :=
    pmm_descend_missing (p := []) h hptr rfl (by simpa using hlen)
  rw [missing_eq_zero_iff.mpr (hin va rfl)] at hle
  rw [vmmMapPage_eq]
  exact hle

/-- A page that is mapped has its tables. -/
theorem inPlace_of_walk (h : Directory la57 m.mem root) (hw : walk la57 m.mem root va ≠ .notPresent) :
    InPlace la57 root m (some (va.toNat / 2 ^ 21)) := by
  intro v hv
  rw [upperIndices_congr la57 (Option.some.inj hv).symm]
  cases ht : tableAt Entry.child m.mem.entries root (upperIndices la57 va) with
  | some t => exact ⟨t, rfl⟩
  | none => exact absurd (walk_of_missing h ht) hw

/-- One call takes at most four frames, and it takes none in the region of the call before it. -/
theorem pmm_run_le {f : PageMap} {dir : Word} {region : Option ℕ}
    (h : Run (GuardedStep la57 frames dir) m calls m') (hs : Sound la57 frames (frames 0) N m)
    (hdir : PointsTo la57 dir (frames 0)) (hr : Refines la57 (frames 0) m f)
    (hin : InPlace la57 (frames 0) m region) (hN : m'.pmm ≤ N) :
    m'.pmm ≤ m.pmm + 4 * newRegions region calls := by
  induction h generalizing f region with
  | refl => exact Nat.le_add_right _ _
  | @stepL m m₁ m' a calls hst htail ih =>
    obtain ⟨hs₁, hr₁⟩ := refines_step hs hdir hr hst.1 hst.2 ((pmm_run htail).trans hN)
    obtain ⟨⟨hvalid, rfl⟩, _⟩ := hst
    have hfour := (pmm_applyWith la57 (A := handOut la57 frames) (fun _ _ => rfl) dir m a).2
    rw [← Call.apply_eq] at hfour
    cases a with
    | map pa va flags =>
      have hwalk := hr₁ va hvalid.2.2.1
      rw [Call.update, Function.update_self] at hwalk
      have hmapped : walk la57 ((Call.map pa va flags).apply la57 frames dir m).mem (frames 0) va ≠
          .notPresent := by
        rw [hwalk]
        exact Walk.noConfusion
      have hnext := ih hs₁ hr₁ (inPlace_of_walk hs₁.directory hmapped) hN
      rw [newRegions]
      split
      · rename_i hregion
        have hnone : ((Call.map pa va flags).apply la57 frames dir m).pmm ≤ m.pmm :=
          pmm_map_inPlace hs.directory hdir (hregion ▸ hin)
        omega
      · omega
    | unmap va =>
      have hnext := ih hs₁ hr₁ inPlace_none hN
      rw [newRegions]
      omega

theorem newRegions_le_none (region : Option ℕ) (calls : List Call) :
    newRegions region calls ≤ newRegions none calls := by
  cases calls with
  | nil => exact le_rfl
  | cons a calls =>
    cases a with
    | map pa va flags =>
      simp only [newRegions, reduceCtorEq, if_false]
      split <;> omega
    | unmap va => exact le_rfl

theorem newRegions_append (region : Option ℕ) (calls calls' : List Call) :
    newRegions region (calls ++ calls') ≤ newRegions region calls + newRegions none calls' := by
  induction calls generalizing region with
  | nil => simpa [newRegions] using newRegions_le_none region calls'
  | cons a calls ih =>
    cases a with
    | map pa va flags =>
      have hrest := ih (some (va.toNat / 2 ^ 21))
      simp only [List.cons_append, newRegions]
      omega
    | unmap va =>
      have hrest := ih none
      simp only [List.cons_append, newRegions]
      omega

/-- A new region begins every 512 pages. -/
theorem newRegions_range' (p g : ℕ → Word) (flags : BitVec 32) {b : ℕ} (k n : ℕ)
    (hg : ∀ j < k + 1 + n, (g j).toNat / 2 ^ 21 = b + j / 512) :
    newRegions (some (b + k / 512)) ((List.range' (k + 1) n).map fun j => .map (p j) (g j) flags) ≤
      (k + n) / 512 - k / 512 := by
  induction n generalizing k with
  | zero => exact Nat.zero_le _
  | succ n ih =>
    have hfirst := hg (k + 1) (by omega)
    have hrest := ih (k + 1) fun j hj => hg j (by omega)
    rw [List.range'_succ, List.map_cons, newRegions, hfirst]
    split
    · omega
    · rename_i hne
      have hnew : k / 512 ≠ (k + 1) / 512 := fun heq => hne (by rw [heq])
      omega

theorem newRegions_windowCalls (base : Word) {limit : Word} {virtualAddress : Word → Word} {n : ℕ}
    (hvirt : ∀ i, virtualAddress i = base + i) (hbase : base.toNat % 2 ^ 21 = 0)
    (hlimit : limit.toNat = n * 2 ^ 21) (hfit : base.toNat + n * 2 ^ 21 ≤ 2 ^ 64) :
    newRegions none (windowCalls limit virtualAddress flags) ≤ n := by
  have hrounds : (limit.toNat + 4095) / 4096 = n * 512 := by omega
  rw [windowCalls, hrounds]
  cases n with
  | zero => exact le_rfl
  | succ n =>
    have hregion : ∀ j < (n + 1) * 512,
        (virtualAddress (BitVec.ofNat 64 (j * 4096))).toNat / 2 ^ 21 =
          base.toNat / 2 ^ 21 + j / 512 := by
      intro j hj
      rw [hvirt, BitVec.toNat_add, BitVec.toNat_ofNat]
      omega
    have hrest := newRegions_range' (fun j => BitVec.ofNat 64 (j * 4096))
      (fun j => virtualAddress (BitVec.ofNat 64 (j * 4096))) flags 0 ((n + 1) * 512 - 1)
      fun j hj => hregion j (by omega)
    have hfirst := hregion 0 (by omega)
    rw [List.range_eq_range', show (n + 1) * 512 = (n + 1) * 512 - 1 + 1 by omega, List.range'_succ,
      List.map_cons, newRegions, hfirst]
    simp only [reduceCtorEq, if_false]
    omega

/-- With fresh frames, it takes at most 20481 of them. -/
theorem pmm_vmmInit_le_of_fresh (la57 : Bool) {mem : Memory}
    (hfresh : FreshFrames frames mem (vmmInit la57 (handOut la57 frames) ⟨mem, 0⟩).2.pmm) :
    (vmmInit la57 (handOut la57 frames) ⟨mem, 0⟩).2.pmm ≤ 20481 := by
  have hrun := (init_run la57 hfresh).mono fun _ _ _ h => h.1
  have hpos := lt_of_lt_of_le Nat.zero_lt_one (pmm_run hrun)
  obtain ⟨hs, hr⟩ := sound_created la57 hfresh hpos
  have hle := pmm_run_le hrun hs (pointsTo_higherHalf la57 (hfresh.low 0 hpos)) hr inPlace_none le_rfl
  have hidentity : newRegions none (windowCalls (4#64 * gb) (fun i => i)
      (ptePresent ||| pteReadWrite)) ≤ 2048 :=
    newRegions_windowCalls 0#64 (fun i => (BitVec.zero_add i).symm) (by decide) (by decide)
      (by decide)
  have hdata : newRegions none (windowCalls (4#64 * gb) (physToHigherHalfData la57)
      (ptePresent ||| pteReadWrite)) ≤ 2048 :=
    newRegions_windowCalls (higherHalfData la57) (fun _ => rfl) (by cases la57 <;> decide)
      (by decide) (by cases la57 <;> decide)
  have hcode : newRegions none (windowCalls 0x80000000#64 physToHigherHalfCode ptePresent) ≤ 1024 :=
    newRegions_windowCalls higherHalfCode (fun _ => rfl) (by decide) (by decide) (by decide)
  have hfirst : newRegions none (initCalls la57) ≤ 2048 + 2048 + 1024 :=
    (newRegions_append _ _ _).trans
      (Nat.add_le_add ((newRegions_append _ _ _).trans (Nat.add_le_add hidentity hdata)) hcode)
  have hone : (created la57 frames mem).2.pmm = 1 := rfl
  omega

/-- With a fresh frame for every call of `pmm_alloc(1)`, `vmm_init` maps exactly three windows. -/
theorem vmmInit_windows (la57 : Bool) (frames : ℕ → Frame) (mem : Memory)
    (hfresh : FreshFrames frames mem (vmmInit la57 (handOut la57 frames) ⟨mem, 0⟩).2.pmm)
    (v : Word) (hv : IsPage la57 v) :
    let r := vmmInit la57 (handOut la57 frames) ⟨mem, 0⟩
    let data := (higherHalfData la57).toNat
    let code := higherHalfCode.toNat
    (v.toNat < 2 ^ 32 →
      pageWalk la57 r.2.mem r.1 v = .page v 3#9 ∧ rights la57 r.2.mem r.1 v = some ⟨true, false⟩) ∧
    (data ≤ v.toNat ∧ v.toNat < data + 2 ^ 32 →
      pageWalk la57 r.2.mem r.1 v = .page (v - higherHalfData la57) 3#9 ∧
        rights la57 r.2.mem r.1 v = some ⟨true, false⟩) ∧
    (code ≤ v.toNat →
      pageWalk la57 r.2.mem r.1 v = .page (v - higherHalfCode) 1#9 ∧
        rights la57 r.2.mem r.1 v = some ⟨false, false⟩) ∧
    (¬ v.toNat < 2 ^ 32 → ¬ (data ≤ v.toNat ∧ v.toNat < data + 2 ^ 32) → ¬ code ≤ v.toNat →
      pageWalk la57 r.2.mem r.1 v = .notPresent) := by
  intro r data code
  obtain ⟨hwalk, hrights⟩ := init_walk la57 hfresh hv
  refine ⟨fun h => ?_, fun h => ?_, fun h => ?_, fun h1 h2 h3 => ?_⟩
  · have hm := initMap_identity la57 h
    exact ⟨hwalk.trans (congrArg Walk.ofMapping hm), hrights _ _ hm⟩
  · have hm := initMap_data la57 h
    exact ⟨hwalk.trans (congrArg Walk.ofMapping hm), hrights _ _ hm⟩
  · have hm := initMap_code la57 h
    exact ⟨hwalk.trans (congrArg Walk.ofMapping hm), hrights _ _ hm⟩
  · have hm := initMap_elsewhere la57 h1 h2 h3
    exact hwalk.trans (congrArg Walk.ofMapping hm)

theorem vmmInit_windows_lowFrames :
    pageWalk false (vmmInit false (handOut false lowFrames) ⟨fun _ => 0#64, 0⟩).2.mem
      (vmmInit false (handOut false lowFrames) ⟨fun _ => 0#64, 0⟩).1 0xFFFFFFFF80001000#64 =
        .page 0x1000#64 1#9 :=
  ((vmmInit_windows false lowFrames (fun _ => 0#64)
    (lowFrames_fresh ((pmm_vmmInit_le false lowFrames _).trans_lt (by decide)))
    0xFFFFFFFF80001000#64 ⟨by decide, by decide⟩).2.2.1 (by decide)).1

end KnutOS.Vmm
