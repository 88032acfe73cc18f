import KnutOS.Foundation.Ownership
import KnutOS.Memory.SlabCalls

/-! Runs of `slab_alloc` and `slab_free` after `slab_init`: no object is handed out twice. -/
namespace KnutOS.Slab

open Foundation

variable {supply : ℕ → Word} {slabs : Slabs} {i j k : ℕ} {size ptr p : Word} {is : List ℕ}

/-! Runs. -/

/-- What a caller keeps of an allocation. -/
structure Object where
  ptr : Word
  size : Word
deriving DecidableEq

inductive Call
  | alloc (size : Word)
  | free (o : Object)

/-- The allocator and the objects its callers hold. -/
structure Config where
  slabs : Slabs
  live : List Object

/-- Every free names a live object; nothing else restricts the calls. -/
inductive Step : Config → Call → Config → Prop
  | alloc {c : Config} {size : Word} (hp : (slabAlloc c.slabs size).1 ≠ 0#64) :
      Step c (.alloc size)
        ⟨(slabAlloc c.slabs size).2, ⟨(slabAlloc c.slabs size).1, size⟩ :: c.live⟩
  | allocNull {c : Config} {size : Word} (hp : (slabAlloc c.slabs size).1 = 0#64) :
      Step c (.alloc size) ⟨(slabAlloc c.slabs size).2, c.live⟩
  | free {c : Config} {o : Object} (ho : o ∈ c.live) :
      Step c (.free o) ⟨slabFree c.slabs o.ptr, c.live.erase o⟩

/-- The state right after `slab_init`. -/
def initial (supply : ℕ → Word) : Config := ⟨(slabInit (handOut supply) (SlabInit.zero 0)).slabs, []⟩

theorem layout_initial (hp : Pages supply) : Layout supply (initial supply).slabs :=
  ⟨fun _ hi => (slabInit_laid hp hi).size, fun _ hi => (slabInit_laid hp hi).start,
    fun _ hi => (slabInit_laid hp hi).stop⟩

/-- Some slab lists object `p` as free. -/
def Listed (slabs : Slabs) (p : Word) : Prop :=
  ∃ i < 11, ∃ j, (slabs i).objects j = p ∧ p ≠ 0#64

/-- The allocator as a pool of objects. -/
def Config.pool (c : Config) : Pool Word := ⟨{p | Listed c.slabs p}, c.live.map fun o => {o.ptr}⟩

/-- What the calls keep: the layout of `slab_init`, entries that are objects of their slab, no
object listed twice, and live objects of the slab of their size. -/
structure Sorted (supply : ℕ → Word) (c : Config) : Prop where
  size : ∀ i < 11, (c.slabs i).size = BitVec.ofNat 64 (objectSize i)
  start : ∀ i < 11, (c.slabs i).start = slabBase supply i
  stop : ∀ i < 11, (c.slabs i).stop = slabBase supply i + 1024#64 - BitVec.ofNat 64 (objectSize i)
  listed : ∀ i < 11, ∀ j, (c.slabs i).objects j ≠ 0#64 → IsObject supply i ((c.slabs i).objects j)
  once : ∀ i < 11, ∀ j k, (c.slabs i).objects j ≠ 0#64 →
    (c.slabs i).objects j = (c.slabs i).objects k → j = k
  live : ∀ o ∈ c.live, ∃ i < 11, o.size = BitVec.ofNat 64 (objectSize i) ∧ IsObject supply i o.ptr

variable {c c' : Config} {a : Call} {calls : List Call}

theorem Sorted.layout (h : Sorted supply c) : Layout supply c.slabs := ⟨h.size, h.start, h.stop⟩

/-- One object is listed in one place only. -/
theorem Sorted.listed_once (hp : Pages supply) (h : Sorted supply c) (hi : i < 11) (hk : k < 11)
    {l : ℕ} (hne : (c.slabs i).objects j ≠ 0#64)
    (he : (c.slabs i).objects j = (c.slabs k).objects l) : i = k ∧ j = l := by
  have hik : i = k := by
    have ho := h.listed k hk l (he ▸ hne)
    rw [← he] at ho
    exact slab_unique hp hi hk (h.listed i hi j hne) ho
  subst hik
  exact ⟨rfl, h.once i hi j l hne he⟩

theorem Sorted.of_live (h : Sorted supply c) {live : List Object} (hl : live ⊆ c.live) :
    Sorted supply ⟨c.slabs, live⟩ :=
  ⟨h.size, h.start, h.stop, h.listed, h.once, fun o ho => h.live o (hl ho)⟩

theorem Sorted.setFull (h : Sorted supply c) (i : ℕ) :
    Sorted supply ⟨setFull c.slabs i, c.live⟩ := by
  have hobj := fun k => (setFull_frame c.slabs i k).2.2.2
  have hl := h.layout.setFull (i := i)
  refine ⟨hl.size, hl.start, hl.stop, fun k hk => ?_, fun k hk => ?_, h.live⟩
  · simpa only [hobj] using h.listed k hk
  · simpa only [hobj] using h.once k hk

/-- An entry is cleared, or gets an object of its slab that is not listed yet. -/
theorem Sorted.setObject (h : Sorted supply c) {live : List Object}
    (hp : p ≠ 0#64 → IsObject supply i p ∧ ∀ l, (c.slabs i).objects l ≠ p)
    (hl : ∀ o ∈ live, ∃ i < 11, o.size = BitVec.ofNat 64 (objectSize i) ∧
      IsObject supply i o.ptr) :
    Sorted supply ⟨setObject c.slabs i j p, live⟩ := by
  have hlay := h.layout.setObject (i := i) (j := j) (p := p)
  refine ⟨hlay.size, hlay.start, hlay.stop, fun k hk l => ?_, fun k hk l l' => ?_, hl⟩
  · by_cases hki : k = i
    · subst hki
      simp only [setObject_same]
      by_cases hlj : l = j
      · rw [if_pos hlj]
        exact fun hne => (hp hne).1
      · rw [if_neg hlj]
        exact h.listed k hk l
    · simp only [setObject_other _ _ _ hki]
      exact h.listed k hk l
  · by_cases hki : k = i
    · subst hki
      simp only [setObject_same]
      by_cases hlj : l = j
      · subst hlj
        rw [if_pos rfl]
        intro hne he
        by_contra hll
        rw [if_neg (Ne.symm hll)] at he
        exact (hp hne).2 l' he.symm
      · rw [if_neg hlj]
        intro hne he
        by_cases hlj' : l' = j
        · rw [if_pos hlj'] at he
          exact ((hp (he ▸ hne)).2 l he).elim
        · rw [if_neg hlj'] at he
          exact h.once k hk l l' hne he
    · simp only [setObject_other _ _ _ hki]
      exact h.once k hk l l'

/-- Everything a call can do: fail, hand out a listed object, lose an object or list it again. -/
theorem step_cases (hp : Pages supply) (h : Sorted supply c) (hs : Step c a c') :
    (∃ size, a = .alloc size ∧ (c' = c ∨ ∃ i < 11, (∀ j < objectCount i,
      (c.slabs i).objects j = 0#64) ∧ c' = ⟨setFull c.slabs i, c.live⟩)) ∨
    (∃ i < 11, a = .alloc (BitVec.ofNat 64 (objectSize i)) ∧ (c.slabs i).isFull = false ∧
      ∃ j < objectCount i, (c.slabs i).objects j ≠ 0#64 ∧ c' = ⟨setObject c.slabs i j 0#64,
        ⟨(c.slabs i).objects j, BitVec.ofNat 64 (objectSize i)⟩ :: c.live⟩) ∨
    (∃ o ∈ c.live, a = .free o ∧ c' = ⟨c.slabs, c.live.erase o⟩ ∧
      ∀ i < 11, Recognized supply i o.ptr → ∀ j < objectCount i, (c.slabs i).objects j ≠ 0#64) ∨
    (∃ o ∈ c.live, a = .free o ∧ ∃ i < 11, Recognized supply i o.ptr ∧ ∃ j < objectCount i,
      (c.slabs i).objects j = 0#64 ∧ c' = ⟨setObject c.slabs i j o.ptr, c.live.erase o⟩) := by
  cases hs with
  | @alloc size hne =>
    by_cases hsize : ∃ i < 11, size = BitVec.ofNat 64 (objectSize i)
    · obtain ⟨i, hi, rfl⟩ := hsize
      rcases slabAlloc_cases h.layout hi with ⟨_, he⟩ | ⟨_, _, he⟩ | ⟨hfull, j, hj, hobj, he⟩
      · simp [he] at hne
      · simp [he] at hne
      · exact .inr (.inl ⟨i, hi, rfl, hfull, j, hj, hobj, by rw [he]⟩)
    · rw [slabAlloc_of_other h.layout fun i hi he => hsize ⟨i, hi, he⟩] at hne
      exact (hne rfl).elim
  | @allocNull size h0 =>
    refine .inl ⟨size, rfl, ?_⟩
    by_cases hsize : ∃ i < 11, size = BitVec.ofNat 64 (objectSize i)
    · obtain ⟨i, hi, rfl⟩ := hsize
      rcases slabAlloc_cases h.layout hi with ⟨_, he⟩ | ⟨_, hall, he⟩ | ⟨_, j, _, hobj, he⟩
      · exact .inl (by rw [he])
      · exact .inr ⟨i, hi, hall, by rw [he]⟩
      · rw [he] at h0
        exact (hobj h0).elim
    · exact .inl (by rw [slabAlloc_of_other h.layout fun i hi he => hsize ⟨i, hi, he⟩])
  | @free o ho =>
    by_cases hr : ∃ i < 11, Recognized supply i o.ptr
    · obtain ⟨i, hi, hr⟩ := hr
      rcases slabFree_of_recognized hp h.layout hi hr with ⟨hall, hs⟩ | ⟨j, hj, hnull, hs⟩
      · refine .inr (.inr (.inl ⟨o, ho, rfl, by rw [hs], fun k hk hrk => ?_⟩))
        rwa [recognized_unique hp hk hi hrk hr]
      · exact .inr (.inr (.inr ⟨o, ho, rfl, i, hi, hr, j, hj, hnull, by rw [hs]⟩))
    · have hno : ∀ i < 11, ¬ Recognized supply i o.ptr := fun i hi hri => hr ⟨i, hi, hri⟩
      refine .inr (.inr (.inl ⟨o, ho, rfl, ?_, fun i hi hri => (hno i hi hri).elim⟩))
      rw [slabFree_of_unrecognized hp h.layout hno]

theorem listed_setFull (slabs : Slabs) (i : ℕ) (p : Word) :
    Listed (setFull slabs i) p ↔ Listed slabs p := by
  simp only [Listed, (setFull_frame slabs i _).2.2.2]

/-- A taken object is listed no more, and the others are. -/
theorem listed_take (hp : Pages supply) (h : Sorted supply c) (hi : i < 11)
    (hj : (c.slabs i).objects j ≠ 0#64) (q : Word) :
    Listed (setObject c.slabs i j 0#64) q ↔ Listed c.slabs q ∧ q ≠ (c.slabs i).objects j := by
  constructor
  · rintro ⟨k, hk, l, hl, hq⟩
    by_cases hki : k = i
    · subst hki
      rw [setObject_same] at hl
      by_cases hlj : l = j
      · rw [if_pos hlj] at hl
        exact (hq hl.symm).elim
      · rw [if_neg hlj] at hl
        refine ⟨⟨k, hk, l, hl, hq⟩, ?_⟩
        rintro rfl
        exact hlj (h.once k hk j l hj hl.symm).symm
    · rw [setObject_other _ _ _ hki] at hl
      refine ⟨⟨k, hk, l, hl, hq⟩, ?_⟩
      rintro rfl
      exact hki (h.listed_once hp hi hk hj hl.symm).1.symm
  · rintro ⟨⟨k, hk, l, hl, hq⟩, hne⟩
    refine ⟨k, hk, l, ?_, hq⟩
    by_cases hki : k = i
    · subst hki
      rw [setObject_same, if_neg]
      · exact hl
      · rintro rfl
        exact hne hl.symm
    · rwa [setObject_other _ _ _ hki]

/-- A freed object is listed again. -/
theorem listed_give (hi : i < 11) (hj : (slabs i).objects j = 0#64) (hne : p ≠ 0#64) (q : Word) :
    Listed (setObject slabs i j p) q ↔ Listed slabs q ∨ q = p := by
  constructor
  · rintro ⟨k, hk, l, hl, hq⟩
    by_cases hki : k = i
    · subst hki
      rw [setObject_same] at hl
      by_cases hlj : l = j
      · rw [if_pos hlj] at hl
        exact .inr hl.symm
      · rw [if_neg hlj] at hl
        exact .inl ⟨k, hk, l, hl, hq⟩
    · rw [setObject_other _ _ _ hki] at hl
      exact .inl ⟨k, hk, l, hl, hq⟩
  · rintro (⟨k, hk, l, hl, hq⟩ | rfl)
    · refine ⟨k, hk, l, ?_, hq⟩
      by_cases hki : k = i
      · subst hki
        rw [setObject_same, if_neg]
        · exact hl
        · rintro rfl
          exact hq (hl.symm.trans hj)
      · rwa [setObject_other _ _ _ hki]
    · exact ⟨i, hi, j, by rw [setObject_same, if_pos rfl], hne⟩

/-- A call acquires an object, releases one, or loses one. -/
theorem pool_step (hp : Pages supply) (h : Sorted supply c) (hs : Step c a c') :
    ∃ x, Pool.Step c.pool x c'.pool := by
  rcases step_cases hp h hs with ⟨_, _, rfl | ⟨i, _, _, rfl⟩⟩ | ⟨i, hi, _, _, j, _, hj, rfl⟩ |
    ⟨o, ho, _, rfl, _⟩ | ⟨o, ho, _, i, hi, hr, j, _, hj, rfl⟩
  · exact ⟨.skip, .skip⟩
  · refine ⟨.skip, ?_⟩
    have hpool : Config.pool ⟨setFull c.slabs i, c.live⟩ = c.pool := by
      simp only [Config.pool, listed_setFull]
    rw [hpool]
    exact .skip
  · refine ⟨.acquire {(c.slabs i).objects j}, ?_⟩
    have hpool : Config.pool ⟨setObject c.slabs i j 0#64,
        ⟨(c.slabs i).objects j, BitVec.ofNat 64 (objectSize i)⟩ :: c.live⟩ =
        ⟨c.pool.free \ {(c.slabs i).objects j}, {(c.slabs i).objects j} :: c.pool.live⟩ := by
      simp only [Config.pool, List.map_cons, Pool.mk.injEq, and_true]
      ext q
      simp only [Set.mem_ofPred_eq, Set.mem_sdiff, Set.mem_singleton_iff, listed_take hp h hi hj]
    rw [hpool]
    refine .acquire ?_
    rintro q rfl
    exact ⟨i, hi, j, rfl, hj⟩
  · obtain ⟨l₁, l₂, _, hl, he⟩ := List.exists_erase_eq ho
    refine ⟨.discard {o.ptr}, ?_⟩
    rw [he]
    simp only [Config.pool, hl, List.map_append, List.map_cons]
    exact .discard
  · obtain ⟨l₁, l₂, _, hl, he⟩ := List.exists_erase_eq ho
    have hne := isObject_nonnull hp hi hr.isObject
    refine ⟨.release {o.ptr}, ?_⟩
    have hfree : {q | Listed (setObject c.slabs i j o.ptr) q} =
        {q | Listed c.slabs q} ∪ {o.ptr} := by
      ext q
      simp only [Set.mem_ofPred_eq, Set.mem_union, Set.mem_singleton_iff, listed_give hi hj hne]
    rw [he]
    simp only [Config.pool, hfree, hl, List.map_append, List.map_cons]
    exact .release

theorem sorted_step (hp : Pages supply) (h : Sorted supply c) (hx : c.pool.Exclusive)
    (hs : Step c a c') : Sorted supply c' := by
  rcases step_cases hp h hs with ⟨_, _, rfl | ⟨i, _, _, rfl⟩⟩ | ⟨i, hi, _, _, j, _, hj, rfl⟩ |
    ⟨o, ho, _, rfl, _⟩ | ⟨o, ho, _, i, hi, hr, j, _, _, rfl⟩
  · exact h
  · exact h.setFull i
  · refine h.setObject (fun h0 => (h0 rfl).elim) ?_
    intro o ho
    rcases List.mem_cons.mp ho with rfl | ho
    · exact ⟨i, hi, rfl, h.listed i hi j hj⟩
    · exact h.live o ho
  · exact h.of_live List.erase_subset
  · refine h.setObject (fun hne => ⟨hr.isObject, ?_⟩) fun o' ho' => h.live o' (List.mem_of_mem_erase ho')
    intro l hl
    have hfree := hx.live_free {o.ptr} (List.mem_map_of_mem ho)
    have hlisted : o.ptr ∈ c.pool.free := ⟨i, hi, l, hl, hne⟩
    exact Set.disjoint_left.mp hfree rfl hlisted

/-- The invariant of a run. -/
theorem sorted_run (hp : Pages supply) (h : Run Step (initial supply) calls c) :
    Sorted supply c ∧ c.pool.Exclusive := by
  apply h.invariant (P := fun d => Sorted supply d ∧ d.pool.Exclusive)
  · have hl : ∀ i < 11, Laid supply i ((initial supply).slabs i) := fun i hi => slabInit_laid hp hi
    have hobj : ∀ i < 11, ∀ j, ((initial supply).slabs i).objects j ≠ 0#64 →
        j < objectCount i ∧ ((initial supply).slabs i).objects j = objectAddr supply i j := by
      intro i hi j hne
      by_cases hj : j < objectCount i
      · exact ⟨hj, (hl i hi).objects j hj⟩
      · exact (hne ((hl i hi).beyond j (by omega))).elim
    have hlay := layout_initial hp
    refine ⟨⟨hlay.size, hlay.start, hlay.stop, ?_, ?_, fun _ ho => by cases ho⟩, Pool.exclusive_initial _⟩
    · intro i hi j hne
      obtain ⟨hj, he⟩ := hobj i hi j hne
      exact ⟨j, hj, he⟩
    · intro i hi j k hne he
      obtain ⟨hj, hje⟩ := hobj i hi j hne
      obtain ⟨hk, hke⟩ := hobj i hi k (he ▸ hne)
      have hn := congrArg BitVec.toNat ((hje.symm.trans he).trans hke)
      rw [toNat_objectAddr hp hi hj, toNat_objectAddr hp hi hk] at hn
      exact Nat.eq_of_mul_eq_mul_right (Nat.two_pow_pos (i + 1)) (Nat.add_left_cancel hn)
  · rintro d a d' ⟨hsorted, hx⟩ hs
    obtain ⟨x, hstep⟩ := pool_step hp hsorted hs
    exact ⟨sorted_step hp hsorted hx hs, Pool.exclusive_step hstep hx⟩

/-- What `slab_alloc(size)` hands out in a state of a run: an object of the slab of that size,
aligned to it and within one of the pages, which overlaps no live object and no listed one. -/
def HandsOutFresh (supply : ℕ → Word) (c : Config) (size : Word) : Prop :=
  (slabAlloc c.slabs size).1 ≠ 0#64 →
    (∃ i < 11, size.toNat = objectSize i ∧ IsObject supply i (slabAlloc c.slabs size).1) ∧
    size.toNat ∣ (slabAlloc c.slabs size).1.toNat ∧
    (∃ k < 6, (supply k).toNat ≤ (slabAlloc c.slabs size).1.toNat ∧
      (slabAlloc c.slabs size).1.toNat + size.toNat ≤ (supply k).toNat + 4096) ∧
    (∀ o ∈ c.live,
      Disjoint (bytes (slabAlloc c.slabs size).1 size.toNat) (bytes o.ptr o.size.toNat)) ∧
    ∀ i < 11, ∀ j, ((slabAlloc c.slabs size).2 i).objects j ≠ 0#64 →
      Disjoint (bytes (slabAlloc c.slabs size).1 size.toNat)
        (bytes (((slabAlloc c.slabs size).2 i).objects j) ((slabAlloc c.slabs size).2 i).size.toNat)

/-- No object is handed out twice: after every run, for every size. -/
theorem alloc_fresh (supply : ℕ → Word) (hp : Pages supply) (calls : List Call) (c : Config)
    (h : Run Step (initial supply) calls c) (size : Word) : HandsOutFresh supply c size := by
  obtain ⟨hsorted, hx⟩ := sorted_run hp h
  rw [HandsOutFresh]
  intro hne
  have hstep : Step c (.alloc size) _ := .alloc hne
  have hsorted' := sorted_step hp hsorted hx hstep
  obtain ⟨x, hpool⟩ := pool_step hp hsorted hstep
  have hx' := Pool.exclusive_step hpool hx
  obtain ⟨i, hi, hsize, hobj⟩ := hsorted'.live _ List.mem_cons_self
  have hsz : size.toNat = objectSize i := (congrArg BitVec.toNat hsize).trans (toNat_objectSize hi)
  obtain ⟨hdvd, hpage⟩ := isObject_page hp hi hobj
  have hlive := (List.pairwise_cons.mp hx'.live_live).1
  have hfree := hx'.live_free _ List.mem_cons_self
  rw [hsz]
  refine ⟨⟨i, hi, rfl, hobj⟩, hdvd, hpage, ?_, ?_⟩
  · intro o ho
    obtain ⟨k, hk, hosize, hoobj⟩ := hsorted.live o ho
    rw [hosize, toNat_objectSize hk]
    apply bytes_disjoint hp hi hk hobj hoobj
    intro he
    have hd := hlive {o.ptr} (List.mem_map_of_mem ho)
    exact Set.disjoint_left.mp hd rfl he
  · intro k hk j hj
    have hksize : ((slabAlloc c.slabs size).2 k).size = _ := hsorted'.size k hk
    rw [hksize, toNat_objectSize hk]
    apply bytes_disjoint hp hi hk hobj (hsorted'.listed k hk j hj)
    intro he
    exact Set.disjoint_left.mp hfree rfl ⟨k, hk, j, he.symm, fun h0 => hj (he.symm.trans h0)⟩

theorem initial_nonnull (hp : Pages supply) (hi : i < 11) (hj : j < objectCount i) :
    ((initial supply).slabs i).objects j ≠ 0#64 := by
  have hobj : ((initial supply).slabs i).objects j = _ := (slabInit_laid hp hi).objects j hj
  rw [hobj]
  exact isObject_nonnull hp hi ⟨j, hj, rfl⟩

/-- After `slab_init` the first object of every slab can be had. -/
theorem slabAlloc_initial (hp : Pages supply) (hi : i < 11) :
    slabAlloc (initial supply).slabs (BitVec.ofNat 64 (objectSize i)) =
      (objectAddr supply i 0, setObject (initial supply).slabs i 0 0#64) := by
  have hlaid : Laid supply i ((initial supply).slabs i) := slabInit_laid hp hi
  have hpos : 0 < objectCount i := Nat.two_pow_pos _
  have hobj := hlaid.objects 0 hpos
  have hne := isObject_nonnull hp hi ⟨0, hpos, rfl⟩
  have hfind : findFreeObject (initial supply).slabs i = some 0 := by
    rw [findFreeObject, objectsPerSlab_eq hi, ← Nat.succ_pred_eq_of_pos hpos,
      List.range_succ_eq_map, List.find?_cons_of_pos]
    rw [hobj]
    simpa using hne
  rw [slabAlloc_eq (layout_initial hp) hi, hlaid.isFull, hfind, ← hobj]
  rfl

theorem step_alloc_first (hp : Pages supply) (hi : i < 11)
    (hsize : size = BitVec.ofNat 64 (objectSize i)) (hptr : ptr = objectAddr supply i 0) :
    Step (initial supply) (.alloc size)
      ⟨(slabAlloc (initial supply).slabs size).2, [⟨ptr, size⟩]⟩ := by
  have hfst : (slabAlloc (initial supply).slabs size).1 = ptr := by
    rw [hsize, slabAlloc_initial hp hi, hptr]
  have hne : ptr ≠ 0#64 := hptr ▸ isObject_nonnull hp hi ⟨0, Nat.two_pow_pos _, rfl⟩
  have hs : Step (initial supply) (.alloc size) _ := .alloc (hfst ▸ hne)
  rwa [hfst] at hs

/-- Pages one after the other. -/
def lowPages (k : ℕ) : Word := BitVec.ofNat 64 ((k + 1) * 4096)

theorem lowPages_pages : Pages lowPages := by
  refine ⟨?_, ?_, ?_⟩
  · intro k hk
    rw [lowPages, BitVec.toNat_ofNat]
    omega
  · intro k hk he
    have hn := congrArg BitVec.toNat he
    rw [lowPages, BitVec.toNat_ofNat] at hn
    simp at hn
    omega
  · intro j k hjk hk he
    have hn := congrArg BitVec.toNat he
    rw [lowPages, lowPages, BitVec.toNat_ofNat, BitVec.toNat_ofNat] at hn
    omega

theorem step_free_only (slabs : Slabs) (o : Object) :
    Step ⟨slabs, [o]⟩ (.free o) ⟨slabFree slabs o.ptr, []⟩ := by
  have hs := @Step.free ⟨slabs, [o]⟩ o List.mem_cons_self
  rwa [List.erase_cons_head] at hs

/-- An 8-byte object is allocated, freed and allocated again. -/
theorem alloc_fresh_lowPages :
    HandsOutFresh lowPages
      ⟨slabFree (slabAlloc (initial lowPages).slabs 8#64).2 0x2000#64, []⟩ 8#64 := by
  have halloc : Step (initial lowPages) (.alloc 8#64) ⟨_, [⟨0x2000#64, 8#64⟩]⟩ :=
    step_alloc_first lowPages_pages (show 2 < 11 by decide) rfl (by decide)
  have hfree := step_free_only (slabAlloc (initial lowPages).slabs 8#64).2 ⟨0x2000#64, 8#64⟩
  exact alloc_fresh lowPages lowPages_pages _ _ (.stepL halloc (.stepL hfree (.refl _))) 8#64

end KnutOS.Slab
