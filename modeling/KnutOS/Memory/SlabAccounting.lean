import KnutOS.Memory.SlabSafety

/-! Where the objects of a slab are: held by a caller, listed, or lost by `slab_free`. -/
namespace KnutOS.Slab

open Foundation

variable {supply : ℕ → Word} {slabs : Slabs} {i j k : ℕ} {p : Word} {c c' : Config} {a : Call}
  {calls : List Call} {o : Object}

/-- The entries of slab `i` that are not `NULL`. -/
def entries (slabs : Slabs) (i : ℕ) : Finset ℕ :=
  (Finset.range maxObjectsPerSlab).filter fun j => (slabs i).objects j ≠ 0#64

/-- The number of live objects of the size of slab `i`. -/
def Config.held (c : Config) (i : ℕ) : ℕ :=
  c.live.countP fun o => o.size = BitVec.ofNat 64 (objectSize i)

/-- The objects of slab `i` that are held or listed. -/
def Config.known (c : Config) (i : ℕ) : ℕ := c.held i + (entries c.slabs i).card

/-- Some slab's tests let the object pass. -/
def Kept (supply : ℕ → Word) (o : Object) : Prop := ∃ i < 11, Recognized supply i o.ptr

instance (supply : ℕ → Word) (i : ℕ) (p : Word) : Decidable (Recognized supply i p) := by
  unfold Recognized
  infer_instance

instance (supply : ℕ → Word) (o : Object) : Decidable (Kept supply o) := by
  unfold Kept
  infer_instance

/-- The call frees an object of the size of slab `i` that no slab takes back. -/
def Loses (supply : ℕ → Word) (i : ℕ) : Call → Bool
  | .alloc _ => false
  | .free o => o.size = BitVec.ofNat 64 (objectSize i) ∧ ¬ Kept supply o

/-- The objects of slab `i` that the calls lose. -/
def lost (supply : ℕ → Word) (i : ℕ) (calls : List Call) : ℕ := calls.countP (Loses supply i)

theorem mem_entries : j ∈ entries slabs i ↔ j < maxObjectsPerSlab ∧ (slabs i).objects j ≠ 0#64 := by
  rw [entries, Finset.mem_filter, Finset.mem_range]

theorem objectCount_le (i : ℕ) : objectCount i ≤ maxObjectsPerSlab :=
  Nat.pow_le_pow_right (by decide) (show 10 - i ≤ 10 by omega)

theorem entries_other (h : k ≠ i) : entries (setObject slabs i j p) k = entries slabs k := by
  simp only [entries, setObject_other j p slabs h]

theorem entries_setFull (slabs : Slabs) (i k : ℕ) : entries (setFull slabs i) k = entries slabs k := by
  simp only [entries, (setFull_frame slabs i k).2.2.2]

/-- Clearing an entry takes it out of the count. -/
theorem card_entries_take (hj : j < objectCount i) (hne : (slabs i).objects j ≠ 0#64) :
    (entries (setObject slabs i j 0#64) i).card + 1 = (entries slabs i).card := by
  have hmem : j ∈ entries slabs i := mem_entries.mpr ⟨hj.trans_le (objectCount_le i), hne⟩
  have herase : entries (setObject slabs i j 0#64) i = (entries slabs i).erase j := by
    ext l
    rw [mem_entries, setObject_same, Finset.mem_erase, mem_entries]
    by_cases hl : l = j <;> simp [hl]
  rw [herase, Finset.card_erase_add_one hmem]

/-- Storing an object in a `NULL` entry adds it. -/
theorem card_entries_give (hj : j < objectCount i) (hnull : (slabs i).objects j = 0#64)
    (hp : p ≠ 0#64) :
    (entries (setObject slabs i j p) i).card = (entries slabs i).card + 1 := by
  have hmem : j ∉ entries slabs i := fun h => (mem_entries.mp h).2 hnull
  have hlt := hj.trans_le (objectCount_le i)
  have hinsert : entries (setObject slabs i j p) i = insert j (entries slabs i) := by
    ext l
    rw [mem_entries, setObject_same, Finset.mem_insert, mem_entries]
    by_cases hl : l = j <;> simp [hl, hp, hlt]
  rw [hinsert, Finset.card_insert_of_notMem hmem]

theorem card_entries_full (h : ∀ j < objectCount i, (slabs i).objects j ≠ 0#64) :
    objectCount i ≤ (entries slabs i).card := by
  rw [← Finset.card_range (objectCount i)]
  apply Finset.card_le_card
  intro j hj
  have hj := Finset.mem_range.mp hj
  exact mem_entries.mpr ⟨hj.trans_le (objectCount_le i), h j hj⟩

/-- Freeing an object takes it from its holder. -/
theorem held_erase (i : ℕ) (slabs' : Slabs) (ho : o ∈ c.live) :
    c.held i = Config.held ⟨slabs', c.live.erase o⟩ i +
      if o.size = BitVec.ofNat 64 (objectSize i) then 1 else 0 := by
  simp only [Config.held, (List.perm_cons_erase ho).countP_eq, List.countP_cons,
    decide_eq_true_eq]

theorem held_pos (ho : o ∈ c.live) (hsize : o.size = BitVec.ofNat 64 (objectSize i)) :
    0 < c.held i :=
  List.countP_pos_iff.mpr ⟨o, ho, decide_eq_true hsize⟩

/-- A live object that a slab recognizes has the size of that slab. -/
theorem Sorted.size_of_recognized (hp : Pages supply) (h : Sorted supply c) (ho : o ∈ c.live)
    (hi : i < 11) (hr : Recognized supply i o.ptr) : o.size = BitVec.ofNat 64 (objectSize i) := by
  obtain ⟨k, hk, hsize, hobj⟩ := h.live o ho
  rw [hsize, slab_unique hp hk hi hobj hr.isObject]

/-- As long as no object is counted twice, a live object finds an entry to go back to. -/
theorem exists_null (hp : Pages supply) (h : Sorted supply c) (hb : c.known i ≤ objectCount i)
    (ho : o ∈ c.live) (hi : i < 11) (hr : Recognized supply i o.ptr) :
    ¬ ∀ j < objectCount i, (c.slabs i).objects j ≠ 0#64 := by
  intro hall
  have hfull := card_entries_full hall
  have hpos := held_pos ho (h.size_of_recognized hp ho hi hr)
  rw [Config.known] at hb
  omega

/-- A call moves objects of a slab between the holders and the list, or loses one. -/
theorem known_step (hp : Pages supply) (h : Sorted supply c)
    (hb : ∀ i < 11, c.known i ≤ objectCount i) (hs : Step c a c') (hi : i < 11) :
    c.known i = c'.known i + if Loses supply i a then 1 else 0 := by
  rcases step_cases hp h hs with ⟨_, rfl, rfl | ⟨k, _, _, rfl⟩⟩ | ⟨k, hk, rfl, _, j, hj, hne, rfl⟩ |
    ⟨o, ho, rfl, rfl, hlost⟩ | ⟨o, ho, rfl, k, hk, hr, j, hj, hnull, rfl⟩
  · simp [Loses]
  · simp [Loses, Config.known, entries_setFull, Config.held]
  · by_cases hik : i = k
    · subst hik
      have hcard := card_entries_take hj hne
      simp [Loses, Config.known, Config.held]
      omega
    · have hsize : BitVec.ofNat 64 (objectSize k) ≠ BitVec.ofNat 64 (objectSize i) :=
        fun he => hik (objectSize_injective hk hi he).symm
      simp [Loses, Config.known, Config.held, entries_other hik, hsize]
  · have hkept : ¬ Kept supply o := by
      rintro ⟨k, hk, hr⟩
      exact exists_null hp h (hb k hk) ho hk hr (hlost k hk hr)
    rw [Config.known, held_erase i c.slabs ho, Config.known]
    by_cases hsize : o.size = BitVec.ofNat 64 (objectSize i)
    · simp [Loses, hkept, hsize, Nat.add_right_comm]
    · simp [Loses, hsize]
  · have hkept : Kept supply o := ⟨k, hk, hr⟩
    have hsize := h.size_of_recognized hp ho hk hr
    rw [Config.known, held_erase i (setObject c.slabs k j o.ptr) ho, Config.known]
    by_cases hik : i = k
    · subst hik
      have hcard := card_entries_give hj hnull (isObject_nonnull hp hi hr.isObject)
      simp [Loses, hkept, hsize, hcard]
      omega
    · have hne : BitVec.ofNat 64 (objectSize k) ≠ BitVec.ofNat 64 (objectSize i) :=
        fun he => hik (objectSize_injective hk hi he).symm
      simp [Loses, hkept, hsize, hne, entries_other hik]

theorem known_run (hp : Pages supply) (h : Run Step c calls c') (hs : Sorted supply c)
    (hx : c.pool.Exclusive) (hb : ∀ i < 11, c.known i ≤ objectCount i) (hi : i < 11) :
    c.known i = c'.known i + lost supply i calls := by
  induction h with
  | refl => rw [lost, List.countP_nil, Nat.add_zero]
  | @stepL s u t a xs hst htail ih =>
    obtain ⟨x, hpool⟩ := pool_step hp hs hst
    have hstep (i : ℕ) (hi : i < 11) := known_step hp hs hb hst hi
    have hb' : ∀ i < 11, u.known i ≤ objectCount i := by
      intro i hi
      have := hstep i hi
      have := hb i hi
      omega
    have hrest := ih (sorted_step hp hs hx hst) (Pool.exclusive_step hpool hx) hb'
    have hfirst := hstep i hi
    rw [lost, List.countP_cons, ← lost]
    omega

theorem held_nil (slabs : Slabs) (i : ℕ) : Config.held ⟨slabs, []⟩ i = 0 := rfl

theorem card_entries_initial (hp : Pages supply) (hi : i < 11) :
    (entries (initial supply).slabs i).card = objectCount i := by
  have hlaid : Laid supply i ((initial supply).slabs i) := slabInit_laid hp hi
  have hentries : entries (initial supply).slabs i = Finset.range (objectCount i) := by
    ext j
    rw [mem_entries, Finset.mem_range]
    constructor
    · rintro ⟨_, hne⟩
      by_contra hge
      exact hne (hlaid.beyond j (by omega))
    · intro hj
      refine ⟨hj.trans_le (objectCount_le i), ?_⟩
      rw [hlaid.objects j hj]
      exact isObject_nonnull hp hi ⟨j, hj, rfl⟩
  rw [hentries, Finset.card_range]

theorem known_initial (hp : Pages supply) (hi : i < 11) :
    (initial supply).known i = objectCount i := by
  rw [Config.known, card_entries_initial hp hi]
  exact Nat.zero_add _

/-- The ledger of a slab: its objects are live, listed, or lost by some call of the run. -/
theorem ledger (hp : Pages supply) (h : Run Step (initial supply) calls c) (hi : i < 11) :
    c.known i + lost supply i calls = objectCount i := by
  obtain ⟨hs, hx⟩ := sorted_run hp (.refl (initial supply))
  rw [← known_initial hp hi]
  exact (known_run hp h hs hx (fun k hk => (known_initial hp hk).le) hi).symm

/-- No object is missing: the live and the listed objects of every size are all there are. -/
def Conserved (c : Config) : Prop :=
  ∀ i < 11, c.held i + (entries c.slabs i).card = 2048 / objectSize i

/-- `slab_free` makes the object a free entry of the slab of its size. -/
def Returns (slabs : Slabs) (o : Object) : Prop :=
  ∃ i < 11, o.size = BitVec.ofNat 64 (objectSize i) ∧
    ∃ j < objectCount i, (slabFree slabs o.ptr i).objects j = o.ptr

theorem objectCount_eq (hi : i < 11) : 2048 / objectSize i = objectCount i :=
  Nat.div_eq_of_eq_mul_left (Nat.two_pow_pos _) (count_mul_size hi).symm

theorem lost_eq_zero (h : ∀ o, .free o ∈ calls → Kept supply o) : lost supply i calls = 0 := by
  rw [lost, List.countP_eq_zero]
  intro a ha
  cases a with
  | alloc => simp [Loses]
  | free o => simp [Loses, h o ha]

/-- Every free of a run names an object of one of the sizes. -/
theorem size_of_free (hp : Pages supply) (h : Run Step c calls c') (hs : Sorted supply c)
    (hx : c.pool.Exclusive) (ho : .free o ∈ calls) :
    ∃ i < 11, o.size = BitVec.ofNat 64 (objectSize i) := by
  induction h with
  | refl => cases ho
  | @stepL s u t a xs hst htail ih =>
    obtain ⟨x, hpool⟩ := pool_step hp hs hst
    rcases List.mem_cons.mp ho with rfl | ho
    · cases hst with
      | free hmem =>
        obtain ⟨i, hi, hsize, _⟩ := hs.live o hmem
        exact ⟨i, hi, hsize⟩
    · exact ih (sorted_step hp hs hx hst) (Pool.exclusive_step hpool hx) ho

/-- Objects are conserved in a run exactly if every free names an object that ends within the
first 1024 bytes of its slab; and those are the live objects that a free returns. -/
theorem objects_conserved (supply : ℕ → Word) (hp : Pages supply) (calls : List Call) (c : Config)
    (h : Run Step (initial supply) calls c) :
    (Conserved c ↔ ∀ o, .free o ∈ calls → Kept supply o) ∧
    ∀ o ∈ c.live, Returns c.slabs o ↔ Kept supply o := by
  obtain ⟨hs, hx⟩ := sorted_run hp h
  have hledger (i : ℕ) (hi : i < 11) := ledger hp h hi
  refine ⟨⟨fun hc o ho => ?_, fun hk i hi => ?_⟩, fun o ho => ⟨?_, ?_⟩⟩
  · obtain ⟨hs₀, hx₀⟩ := sorted_run hp (.refl (initial supply))
    obtain ⟨i, hi, hsize⟩ := size_of_free hp h hs₀ hx₀ ho
    have hi' := hc i hi
    rw [objectCount_eq hi, ← hledger i hi, Config.known] at hi'
    by_contra hno
    have hpos : 0 < lost supply i calls :=
      List.countP_pos_iff.mpr ⟨.free o, ho, by simp [Loses, hsize, hno]⟩
    omega
  · have hi' := hledger i hi
    rw [lost_eq_zero hk, Nat.add_zero, Config.known] at hi'
    rw [objectCount_eq hi]
    exact hi'
  · rintro ⟨i, hi, hsize, j, hj, hentry⟩
    by_contra hno
    rw [slabFree_of_unrecognized hp hs.layout fun k hk hr => hno ⟨k, hk, hr⟩] at hentry
    obtain ⟨k, hk, _, hobj⟩ := hs.live o ho
    have hfree := hx.live_free {o.ptr} (List.mem_map_of_mem ho)
    exact Set.disjoint_left.mp hfree rfl ⟨i, hi, j, hentry, isObject_nonnull hp hk hobj⟩
  · rintro ⟨i, hi, hr⟩
    have hb : c.known i ≤ objectCount i := by
      have := hledger i hi
      omega
    refine ⟨i, hi, hs.size_of_recognized hp ho hi hr, ?_⟩
    rcases slabFree_of_recognized hp hs.layout hi hr with ⟨hall, _⟩ | ⟨j, hj, _, he⟩
    · exact (exists_null hp hs hb ho hi hr hall).elim
    · exact ⟨j, hj, by rw [he, setObject_same, if_pos rfl]⟩

/-- An 8-byte object at the start of its slab comes back. -/
theorem objects_conserved_lowPages :
    Conserved ⟨slabFree (slabAlloc (initial lowPages).slabs 8#64).2 0x2000#64, []⟩ := by
  have hi : 2 < 11 := by decide
  have halloc : Step (initial lowPages) (.alloc 8#64) ⟨_, [⟨0x2000#64, 8#64⟩]⟩ :=
    step_alloc_first lowPages_pages hi rfl (by decide)
  have hfree := step_free_only (slabAlloc (initial lowPages).slabs 8#64).2 ⟨0x2000#64, 8#64⟩
  refine (objects_conserved lowPages lowPages_pages _ _
    (.stepL halloc (.stepL hfree (.refl _)))).1.mpr fun o ho => ?_
  have ho' : o = ⟨0x2000#64, 8#64⟩ := by
    cases ho with
    | tail _ ho =>
      cases ho with
      | head => rfl
      | tail _ ho => cases ho
  subst ho'
  exact ⟨2, hi, 0, by decide, by decide, by decide⟩

theorem not_conserved_of_first (hp : Pages supply) (hi : i < 11)
    (hno : ¬ Recognized supply i (objectAddr supply i 0)) :
    ¬ Conserved ⟨slabFree (slabAlloc (initial supply).slabs (BitVec.ofNat 64 (objectSize i))).2
      (objectAddr supply i 0), []⟩ := by
  intro hc
  have hpos : 0 < objectCount i := Nat.two_pow_pos _
  have hobj : IsObject supply i (objectAddr supply i 0) := ⟨0, hpos, rfl⟩
  have hlost : ∀ k < 11, ¬ Recognized supply k (objectAddr supply i 0) := by
    intro k hk hr
    exact hno (slab_unique hp hk hi hr.isObject hobj ▸ hr)
  have hcount := hc i hi
  rw [held_nil, slabFree_of_unrecognized hp ((layout_initial hp).slabAlloc _) hlost,
    slabAlloc_initial hp hi, objectCount_eq hi] at hcount
  have htake := card_entries_take hpos (initial_nonnull hp hi hpos)
  have hall := card_entries_initial hp hi
  rw [← htake] at hall
  dsimp only at hcount
  omega

/-- The one object of 2048 bytes is lost by its first free. -/
theorem objects_conserved_fails :
    Run Step (initial lowPages) [.alloc 2048#64, .free ⟨0x6000#64, 2048#64⟩]
      ⟨slabFree (slabAlloc (initial lowPages).slabs 2048#64).2 0x6000#64, []⟩ ∧
    ¬ Conserved ⟨slabFree (slabAlloc (initial lowPages).slabs 2048#64).2 0x6000#64, []⟩ := by
  have hi : 10 < 11 := by decide
  have hptr : 0x6000#64 = objectAddr lowPages 10 0 := by decide
  have halloc : Step (initial lowPages) (.alloc 2048#64) ⟨_, [⟨0x6000#64, 2048#64⟩]⟩ :=
    step_alloc_first lowPages_pages hi rfl hptr
  have hfree := step_free_only (slabAlloc (initial lowPages).slabs 2048#64).2 ⟨0x6000#64, 2048#64⟩
  refine ⟨.stepL halloc (.stepL hfree (.refl _)), ?_⟩
  rw [hptr]
  apply not_conserved_of_first lowPages_pages hi
  rintro ⟨j, _, _, hend⟩
  have hsize : objectSize 10 = 2048 := rfl
  omega

end KnutOS.Slab
