import KnutOS.Memory.VmmRefinement

/-! What an access to a page needs is a right in every entry of its walk, and a table keeps the
flags of the call that made it. -/
namespace KnutOS.Vmm

open Foundation RadixTree

variable {la57 : Bool} {frames : ℕ → Frame} {root t : Frame} {N : ℕ} {m m' : Machine ℕ}
  {mem : Memory} {ptr pa va v w e : Word} {flags : BitVec 32} {fl : BitVec 9} {p is : List Index}

/-- The entry does not withhold a right that the flags ask for. -/
def Permits (fl : BitVec 9) (e : Word) : Prop :=
  (fl.getLsbD 1 = true → Entry.writable e = true) ∧ (fl.getLsbD 2 = true → Entry.user e = true)

/-- The tables that a call of `vmm_map_page` finds on its way do not withhold what it asks for. -/
def Permitted (la57 : Bool) (root : Frame) (m : Machine ℕ) : Call → Prop
  | .map _ va flags => ∀ e ∈ trail Entry.child m.mem.entries root (upperIndices la57 va),
      Entry.present e = true → Permits (flags.setWidth 9) e
  | .unmap _ => True

def PermittedStep (la57 : Bool) (frames : ℕ → Frame) (dir : Word) (m : Machine ℕ) (a : Call)
    (m' : Machine ℕ) : Prop :=
  GuardedStep la57 frames dir m a m' ∧ Permitted la57 (frames 0) m a

/-- The tables above level 1 are in place, and each permits what the flags ask for. -/
def PathPermits (la57 : Bool) (mem : Memory) (root : Frame) (v : Word) (fl : BitVec 9) : Prop :=
  (∃ t, tableAt Entry.child mem.entries root (upperIndices la57 v) = some t) ∧
    ∀ e ∈ trail Entry.child mem.entries root (upperIndices la57 v), Permits fl e

/-- So it is for all pages of the flat map. -/
def Enabled (la57 : Bool) (root : Frame) (m : Machine ℕ) (f : PageMap) : Prop :=
  ∀ v, IsPage la57 v → ∀ pa fl, f v = some (pa, fl) → PathPermits la57 m.mem root v fl

/-! Descending writes only where nothing is present. -/

theorem descend_keeps {σ : Type*} (la57 : Bool) (A : σ → ℕ → Word × σ) (flags : BitVec 32)
    (is : List Index) (m : Machine σ) (ptr : Word) {a : Word} (ha : Entry.present (m.mem a) = true) :
    (descend la57 A m ptr flags is).2.mem a = m.mem a := by
  induction is generalizing m ptr with
  | nil => rfl
  | cons i is ih =>
    cases hp : Entry.present (m.load la57 (ptr + 8#64 * i.setWidth 64)) with
    | true =>
      simp only [descend, getPageMapLevel_of_present A flags hp]
      exact ih m _ ha
    | false =>
      have hne : a ≠ dereference la57 (ptr + 8#64 * i.setWidth 64) := by
        rintro rfl
        rw [Machine.load, ha] at hp
        cases hp
      simp only [descend, getPageMapLevel_of_absent A flags hp]
      have hsame : ∀ e, (Machine.store la57 ⟨m.mem, (A m.pmm 1).2⟩
          (ptr + 8#64 * i.setWidth 64) e).mem a = m.mem a :=
        fun _ => Function.update_of_ne hne _ _
      rw [ih _ _ (by rwa [hsame]), hsame]

theorem descend_keeps_entry {σ : Type*} (la57 : Bool) (A : σ → ℕ → Word × σ)
    (flags : BitVec 32) (is : List Index) (m : Machine σ) (ptr : Word) {s : Frame} {i : Index}
    (h : Entry.present (m.mem.entries s i) = true) :
    (descend la57 A m ptr flags is).2.mem.entries s i = m.mem.entries s i :=
  descend_keeps la57 A flags is m ptr h

theorem present_of_child {f : Frame} (h : Entry.child e = some f) : Entry.present e = true := by
  cases hp : Entry.present e with
  | false => simp [Entry.child, hp] at h
  | true => rfl

/-- Stores over absent entries leave the path of a page in place. -/
theorem pathPermits_of_kept {mem' : Memory} (h : PathPermits la57 mem root v fl)
    (hk : ∀ a, Entry.present (mem a) = true → mem' a = mem a) : PathPermits la57 mem' root v fl := by
  obtain ⟨⟨t, ht⟩, hpermits⟩ := h
  have hkeep : ∀ s i u, Entry.child (mem.entries s i) = some u →
      mem'.entries s i = mem.entries s i := fun s i u hu => hk _ (present_of_child hu)
  obtain ⟨htab, htrail⟩ := trail_of_kept hkeep ht
  exact ⟨⟨t, htab⟩, by rwa [htrail]⟩

/-- And so does a store to a level 1 table. -/
theorem pathPermits_store_leaf (h : Sound la57 frames root N m) (hptr : PointsTo la57 ptr t)
    (ht : tableAt Entry.child m.mem.entries root (upperIndices la57 va) = some t) (e : Word)
    (hv : PathPermits la57 m.mem root v fl) :
    PathPermits la57 (m.store la57 (ptr + 8#64 * (leafIndex va).setWidth 64) e).mem root v fl := by
  obtain ⟨⟨u, hu⟩, hpermits⟩ := hv
  have hlen := length_upperIndices la57 va
  have hlen' := length_upperIndices la57 v
  refine ⟨⟨u, ?_⟩, ?_⟩
  · rw [entries_store hptr, tableAt_write_leaf h.directory.unshared ht hlen (by omega)]
    exact hu
  · rw [entries_store hptr, trail_write]
    · exact hpermits
    · intro q r hq hqt
      have hqlen := congrArg List.length hq
      rw [List.length_append, List.length_cons] at hqlen
      have hpath := h.directory.unshared q (upperIndices la57 va) t (by omega) (by omega) hqt ht
      rw [hpath] at hqlen
      omega

/-- The entry that links in a new table permits what the flags ask for. -/
theorem permits_link (hfl : flags.toNat < 512) (f : Frame) :
    Permits (flags.setWidth 9) (frameAddr f ||| flags.signExtend 64) := by
  have hf := f.isLt
  have hn := toNat_signExtend_flags hfl
  have ha := toNat_frameAddr f
  obtain ⟨_, _, hflags, _, _⟩ := entry_fields (flags.signExtend 64) (a := frameAddr f) (by omega)
    (by omega) (by omega)
  have hbit : ∀ k < 9, (frameAddr f ||| flags.signExtend 64).getLsbD k =
      (flags.setWidth 9).getLsbD k := by
    intro k hk
    have h := congrArg (fun x => x.getLsbD k) hflags
    simp only [Entry.flags, BitVec.getLsbD_setWidth, hk, decide_true, Bool.true_and] at h ⊢
    rw [h, getLsbD_signExtend_flags k (by omega)]
  exact ⟨fun h => (hbit 1 (by decide)).trans h, fun h => (hbit 2 (by decide)).trans h⟩

/-- Descending with flags that the tables on the way permit. -/
theorem permits_descend (h : Sound la57 frames root N m) (hptr : PointsTo la57 ptr t)
    (ht : tableAt Entry.child m.mem.entries root p = some t)
    (hlen : p.length + is.length + 1 = levels la57)
    (hN : (descend la57 (handOut la57 frames) m ptr flags is).2.pmm ≤ N)
    (hfl : Linkable flags ∨ ∃ u, tableAt Entry.child m.mem.entries root (p ++ is) = some u)
    (hopen : ∀ e ∈ trail Entry.child m.mem.entries t is, Entry.present e = true →
      Permits (flags.setWidth 9) e) :
    ∀ e ∈ trail Entry.child
        (descend la57 (handOut la57 frames) m ptr flags is).2.mem.entries t is,
      Permits (flags.setWidth 9) e := by
  induction is generalizing m ptr t p with
  | nil => simp [trail]
  | cons i is ih =>
    simp only [List.length_cons] at hlen
    have happ : p ++ i :: is = (p ++ [i]) ++ is := by simp
    rw [happ] at hfl
    cases hpres : Entry.present (m.mem.entries t i) with
    | true =>
      obtain ⟨u, hc, hu, hptr'⟩ := child_step h.directory ht (by omega) hpres
      simp only [descend, vmmGetPageMapLevel_of_present hptr hpres] at hN ⊢
      simp only [trail, hc, List.mem_cons] at hopen
      have hkept := descend_keeps_entry la57 (handOut la57 frames) flags is m
        (m.mem.entries t i &&& ~~~511#64) hpres
      intro e he
      simp only [trail, hkept, hc, List.mem_cons] at he
      rcases he with rfl | he
      · exact hopen _ (.inl rfl) hpres
      · exact ih h hptr' hu (by simp; omega) hN hfl (fun e he => hopen e (.inr he)) e he
    | false =>
      have hlink := linkable_of_absent ht hpres hfl
      obtain ⟨hc, hmask, _⟩ := hlink.entry (frames m.pmm)
      simp only [descend, vmmGetPageMapLevel_of_absent hptr hpres, hmask] at hN ⊢
      have hlt := (pmm_descend la57 frames _ _ flags is).1.trans hN
      obtain ⟨hs, hu, _⟩ := h.store_link hlt hptr ht (by omega) hpres hlink
      have hbare := h.bare_link (i := i) (e := frameAddr (frames m.pmm) ||| flags.signExtend 64) hlt
        hptr ht (by omega)
      have hentry : (Machine.store la57 ⟨m.mem, m.pmm + 1⟩ (ptr + 8#64 * i.setWidth 64)
          (frameAddr (frames m.pmm) ||| flags.signExtend 64)).mem.entries t i =
            frameAddr (frames m.pmm) ||| flags.signExtend 64 := by
        rw [entries_store (m := ⟨m.mem, m.pmm + 1⟩) hptr, write_self]
      have hkept := descend_keeps_entry la57 (handOut la57 frames) flags is _
        (frameAddr (frames m.pmm)) (hentry ▸ present_of_child hc)
      rw [hentry] at hkept
      intro e he
      simp only [trail, hkept, hc, List.mem_cons] at he
      rcases he with rfl | he
      · exact permits_link hlink.low _
      · refine ih hs (pointsTo_frameAddr la57 _) hu (by simp; omega) hN (.inl hlink) ?_ e he
        intro e' he' hpres'
        obtain ⟨j, rfl⟩ := mem_trail_childless (fun j => child_of_absent (hbare j)) he'
        rw [hbare j] at hpres'
        cases hpres'

/-- The simulation step: every page of the flat map keeps its path, and the page that is mapped
gets one. -/
theorem enabled_step {f : PageMap} {dir : Word} {a : Call} (h : Sound la57 frames (frames 0) N m)
    (hdir : PointsTo la57 dir (frames 0)) (he : Enabled la57 (frames 0) m f)
    (hs : PermittedStep la57 frames dir m a m') (hN : m'.pmm ≤ N) :
    Enabled la57 (frames 0) m' (a.update f) := by
  obtain ⟨⟨⟨hvalid, rfl⟩, hpat⟩, hpermitted⟩ := hs
  cases a with
  | map pa va flags =>
    have hlen := length_upperIndices la57 va
    have hfl := linkable_or_inPlace hvalid hpat
    simp only [Call.apply, vmmMapPage_eq] at hN ⊢
    obtain ⟨hs, ⟨u, hu, hptr⟩, _⟩ :=
      sound_descend (p := []) h hdir rfl (by simpa using hlen) hN hfl
    have hpermits := permits_descend (p := []) h hdir rfl (by simpa using hlen) hN hfl hpermitted
    intro v hv pa' fl hf
    apply pathPermits_store_leaf hs hptr hu
    by_cases hvva : v = va
    · subst hvva
      simp only [Call.update, Function.update_self, Option.some.injEq, Prod.mk.injEq] at hf
      obtain ⟨_, rfl⟩ := hf
      exact ⟨⟨u, hu⟩, hpermits⟩
    · simp only [Call.update, Function.update_of_ne hvva] at hf
      exact pathPermits_of_kept (he v hv pa' fl hf) fun a => descend_keeps la57 _ flags _ m dir
  | unmap va =>
    have hlen := length_upperIndices la57 va
    simp only [Call.apply, vmmUnmapPage_eq] at hN ⊢
    obtain ⟨hs, ⟨u, hptr, hu⟩, _⟩ :=
      sound_descend_unmap (p := []) h hdir rfl (by simpa using hlen) hN
    intro v hv pa' fl hf
    have hvva : v ≠ va := by
      rintro rfl
      simp only [Call.update, Function.update_self] at hf
      cases hf
    simp only [Call.update, Function.update_of_ne hvva] at hf
    have hkept := pathPermits_of_kept (he v hv pa' fl hf)
      fun a => descend_keeps la57 (handOut la57 frames) 0#32 (upperIndices la57 va) m dir
    rcases hu with hu | ⟨_, hbare⟩
    · exact pathPermits_store_leaf hs hptr hu _ hkept
    · refine pathPermits_of_kept hkept fun a ha => ?_
      have hne : a ≠ entryAddr u (leafIndex va) := by
        rintro rfl
        exact absurd ha (Bool.eq_false_iff.mp (hbare (leafIndex va)))
      rw [Machine.store, hptr]
      exact Function.update_of_ne hne _ _

theorem permitted_run {f : PageMap} {dir : Word} {calls : List Call}
    (h : Run (PermittedStep la57 frames dir) m calls m') (hs : Sound la57 frames (frames 0) N m)
    (hdir : PointsTo la57 dir (frames 0)) (hr : Refines la57 (frames 0) m f)
    (he : Enabled la57 (frames 0) m f) (hN : m'.pmm ≤ N) :
    Refines la57 (frames 0) m' (calls.foldl Call.update f) ∧
      Enabled la57 (frames 0) m' (calls.foldl Call.update f) := by
  induction h generalizing f with
  | refl => exact ⟨hr, he⟩
  | stepL hst htail ih =>
    have hN' := (pmm_run (htail.mono fun _ _ _ h => h.1)).trans hN
    obtain ⟨hs', hr'⟩ := refines_step hs hdir hr hst.1.1 hst.1.2 hN'
    exact ih hs' hr' (enabled_step hs hdir he hst hN') hN

theorem all_eq_of_permits {l : List Word} {g : Word → Bool} {b : Bool} (hl : ∀ x ∈ l, b = true → g x = true)
    (he : g e = b) : (l ++ [e]).all g = b := by
  rw [List.all_append, List.all_cons, List.all_nil, he, Bool.and_true]
  cases b with
  | false => exact Bool.and_false _
  | true => simpa using hl

/-- A page whose tables permit what its flags ask for has the rights of its flags. -/
theorem rights_eq (h : PathPermits la57 mem root v fl) (hw : walk la57 mem root v = .page pa fl) :
    rights la57 mem (frameAddr root) v = some ⟨fl.getLsbD 1, fl.getLsbD 2⟩ := by
  obtain ⟨⟨t, ht⟩, hpermits⟩ := h
  have hl : lookup Entry.child mem.entries root (indices la57 v) =
      some (0, mem.entries t (leafIndex v)) := by
    rw [indices, lookup_append ht (by simp)]
    rfl
  have htrail : trail Entry.child mem.entries root (indices la57 v) =
      trail Entry.child mem.entries root (upperIndices la57 v) ++ [mem.entries t (leafIndex v)] := by
    rw [indices, trail_append ht]
    simp only [trail]
    split <;> rfl
  have hflags : Entry.flags (mem.entries t (leafIndex v)) = fl := by
    rw [walk_of_lookup hl, finish] at hw
    split at hw
    · cases hw
    · rw [if_pos rfl] at hw
      exact (Walk.page.inj hw).2
  have hbit : ∀ k < 9, (mem.entries t (leafIndex v)).getLsbD k = fl.getLsbD k := by
    intro k hk
    rw [← hflags, Entry.flags, BitVec.getLsbD_setWidth]
    simp [hk]
  simp only [rights, show pageWalk la57 mem (frameAddr root) v = .page pa fl from hw,
    frame_frameAddr, htrail]
  rw [all_eq_of_permits (fun x hx => (hpermits x hx).1) (hbit 1 (by decide)),
    all_eq_of_permits (fun x hx => (hpermits x hx).2) (hbit 2 (by decide))]

/-- A call for a page beside one with its rights in place is permitted, if it asks for no more. -/
theorem permitted_beside (h : PathPermits la57 m.mem root w fl)
    (hsame : upperIndices la57 va = upperIndices la57 w)
    (hwrite : (flags.setWidth 9).getLsbD 1 = true → fl.getLsbD 1 = true)
    (huser : (flags.setWidth 9).getLsbD 2 = true → fl.getLsbD 2 = true) :
    Permitted la57 root m (.map pa va flags) := by
  intro e he _
  rw [hsame] at he
  obtain ⟨hw, hu⟩ := h.2 e he
  exact ⟨fun hbit => hw (hwrite hbit), fun hbit => hu (huser hbit)⟩

/-- On a new directory. -/
theorem enabled_created {calls : List Call}
    (h : Run (PermittedStep la57 frames (created la57 frames mem).1) (created la57 frames mem).2
      calls m)
    (hfresh : FreshFrames frames mem m.pmm) :
    Refines la57 (frames 0) m (mappings calls) ∧ Enabled la57 (frames 0) m (mappings calls) := by
  have hpos : 0 < m.pmm := lt_of_lt_of_le Nat.zero_lt_one (pmm_run (h.mono fun _ _ _ h => h.1))
  obtain ⟨hs, hr⟩ := sound_created la57 hfresh hpos
  have hdir := pointsTo_higherHalf la57 (hfresh.low 0 hpos)
  exact permitted_run h hs hdir hr (fun _ _ _ _ hf => nomatch hf) le_rfl

/-- After every run whose calls find tables that permit what they ask for, every mapped page has
the rights of the flags it was last mapped with. -/
theorem rights_requested (la57 : Bool) (frames : ℕ → Frame) (mem : Memory) (calls : List Call)
    (m : Machine ℕ)
    (h : Run (PermittedStep la57 frames (created la57 frames mem).1) (created la57 frames mem).2
      calls m)
    (hfresh : FreshFrames frames mem m.pmm) (v : Word) (hv : IsPage la57 v) (pa : Word)
    (fl : BitVec 9) (hf : mappings calls v = some (pa, fl)) :
    rights la57 m.mem (vmmActivatePageDirectory la57 (created la57 frames mem).1) v =
      some ⟨fl.getLsbD 1, fl.getLsbD 2⟩ := by
  have hroot : vmmActivatePageDirectory la57 (created la57 frames mem).1 = frameAddr (frames 0) :=
    higherHalfDataToPhys_physToHigherHalfData la57 _
  obtain ⟨hr, he⟩ := enabled_created h hfresh
  have hw := hr v hv
  rw [hf] at hw
  rw [hroot]
  exact rights_eq (he v hv pa fl hf) hw

/-- The first call finds nothing present, and the second one the tables of a writable page. -/
theorem lowCalls_permitted :
    Run (PermittedStep false lowFrames (created false lowFrames fun _ => 0#64).1)
      (created false lowFrames fun _ => 0#64).2 lowCalls (lowState 3) := by
  have hbare : ∀ i, (created false lowFrames fun _ => 0#64).2.mem.entries (lowFrames 0) i = 0#64 :=
    fun i => entries_created (lowFrames_fresh (N := 1) (by decide)) Nat.zero_lt_one
  have hpermitted : Permitted false (lowFrames 0) (created false lowFrames fun _ => 0#64).2
      (.map 0x5000#64 0x200000#64 3#32) := by
    intro e he hpres
    obtain ⟨i, rfl⟩ := mem_trail_childless (fun i => by rw [hbare]; decide) he
    rw [hbare] at hpres
    exact absurd hpres (by decide)
  obtain ⟨hfirst, hsecond, hthird⟩ := lowCalls_steps
  have henabled := (enabled_created (.stepL ⟨hfirst, hpermitted⟩ (.refl _))
    (lowFrames_fresh (by decide))).2 0x200000#64 ⟨by decide, by decide⟩ 0x5000#64 3#9 (by decide)
  exact .stepL ⟨hfirst, hpermitted⟩
    (.stepL ⟨hsecond, permitted_beside henabled (by decide) (by decide) (by decide)⟩
      (.stepL ⟨hthird, trivial⟩ (.refl _)))

theorem rights_requested_lowFrames :
    rights false (lowState 3).mem 0x1000#64 0x201000#64 = some ⟨true, false⟩ :=
  rights_requested false lowFrames (fun _ => 0#64) lowCalls (lowState 3) lowCalls_permitted
    (lowFrames_fresh (by decide +kernel)) 0x201000#64 ⟨by decide, by decide⟩ 0x6000#64 0x83#9
    (by decide)

/-- The tables of a region keep the flags of the page that came first: a writable page beside a
read-only one cannot be written. -/
theorem rights_requested_fails :
    ¬ ∀ (la57 : Bool) (frames : ℕ → Frame) (mem : Memory) (calls : List Call) (m : Machine ℕ),
      Run (Step la57 frames (created la57 frames mem).1) (created la57 frames mem).2 calls m →
      FreshFrames frames mem m.pmm → ∀ v, IsPage la57 v → ∀ pa fl,
      mappings calls v = some (pa, fl) →
      rights la57 m.mem (vmmActivatePageDirectory la57 (created la57 frames mem).1) v =
        some ⟨fl.getLsbD 1, fl.getLsbD 2⟩ := by
  intro h
  have hfirst : (Call.map 0x5000#64 0x200000#64 1#32).Valid false :=
    ⟨by decide, by decide, ⟨by decide, by decide⟩, by decide, by decide⟩
  have hsecond : (Call.map 0x6000#64 0x201000#64 3#32).Valid false :=
    ⟨by decide, by decide, ⟨by decide, by decide⟩, by decide, by decide⟩
  have hrights := h false lowFrames (fun _ => 0#64)
    [.map 0x5000#64 0x200000#64 1#32, .map 0x6000#64 0x201000#64 3#32] _
    (.stepL ⟨hfirst, rfl⟩ (.stepL ⟨hsecond, rfl⟩ (.refl _))) (lowFrames_fresh (by decide))
    0x201000#64 ⟨by decide, by decide⟩ 0x6000#64 3#9 (by decide)
  exact absurd hrights (by decide)

end KnutOS.Vmm
