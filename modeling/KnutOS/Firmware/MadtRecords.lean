import KnutOS.Firmware.MadtSearch

/-! `madt_init` on a well-formed table: the arrays hold the records of the table, in its order. -/
namespace KnutOS

open Foundation

namespace Madt

/-- From offset `o` on, the table is tiled up to `stop` by records of at least two bytes, which
begin at the offsets of the list. -/
inductive Tiling (table : Bytes) (madt : Word) (stop : ℕ) : ℕ → List ℕ → Prop
  | done : Tiling table madt stop stop []
  | record {o : ℕ} {l : List ℕ} : 2 ≤ recordLength table madt o →
      Tiling table madt stop (o + recordLength table madt o) l → Tiling table madt stop o (o :: l)

/-- The addresses of the records of type `t` among those at the offsets `l`. -/
def addresses (table : Bytes) (madt : Word) (l : List ℕ) (t : MadtEntryType) : List Word :=
  (l.filter fun o => recordType table madt o = some t).map fun o => madt + BitVec.ofNat 64 o

/-- The first `n` words of an array. -/
def pointers (m : Bytes) (array : Word) (n : ℕ) : List Word :=
  (List.range n).map fun i => load64 m (array + BitVec.ofNat 64 (8 * i))

/-- The 256 bytes of an array and the header in front of them. -/
def block (array : Word) : Set Word := {x | (x - (array - metadataSize)).toNat < 8 + 256}

/-- Four blocks apart from each other and from the table. -/
structure Apart (arrays : MadtArrays) (madt : Word) (length : ℕ) : Prop where
  disjoint : ∀ t u, t ≠ u → Disjoint (block (arrays t)) (block (arrays u))
  outside : ∀ t, ∀ x ∈ block (arrays t), length ≤ (x - madt).toNat

/-- The arrays hold `found`, and the counters are their numbers. -/
def Collected (arrays : MadtArrays) (bytes : Bytes) (index : MadtEntryType → Word)
    (found : MadtEntryType → List Word) : Prop :=
  ∀ t, index t = BitVec.ofNat 64 (found t).length ∧
    pointers bytes (arrays t) (found t).length = found t

variable {table table' m bytes : Bytes} {arrays : MadtArrays} {madt p q v x : Word} {i j n o : ℕ}
  {l : List ℕ} {s : MadtScan} {t u : MadtEntryType} {found : MadtEntryType → List Word}

theorem Tiling.le {stop : ℕ} (h : Tiling table madt stop o l) : o ≤ stop := by
  induction h with
  | done => exact le_rfl
  | record hlen _ ih => omega

theorem Tiling.mem_lt {stop : ℕ} (h : Tiling table madt stop o l) (hj : j ∈ l) : j < stop := by
  induction h with
  | done => cases hj
  | record hlen htail ih =>
    have hle := htail.le
    rcases List.mem_cons.mp hj with rfl | hj
    · omega
    · exact ih hj

/-- The tiling is made of the bytes of the table. -/
theorem Tiling.congr {stop : ℕ} (h : Tiling table madt stop o l)
    (hsame : ∀ j < stop, bytesAt table' madt j = bytesAt table madt j) :
    Tiling table' madt stop o l := by
  induction h with
  | done => exact .done
  | @record o l hlen htail ih =>
    have hle := htail.le
    have hlength : recordLength table' madt o = recordLength table madt o := by
      rw [recordLength, recordLength, hsame (o + 1) (by omega)]
    refine .record (by rwa [hlength]) ?_
    rwa [hlength]

theorem addresses_congr (hsame : ∀ j ∈ l, bytesAt table' madt j = bytesAt table madt j) :
    addresses table' madt l = addresses table madt l := by
  funext t
  rw [addresses, addresses]
  congr 1
  apply List.filter_congr
  intro o ho
  rw [recordType, recordType, hsame o ho]

theorem toNat_in_block (hj : j < 256) :
    (p + BitVec.ofNat 64 j - (p - metadataSize)).toNat = j + 8 := by
  have hd : p + BitVec.ofNat 64 j - (p - metadataSize) = BitVec.ofNat 64 (j + 8) := by
    rw [BitVec.ofNat_add, metadataSize]
    generalize BitVec.ofNat 64 j = y
    bv_omega
  rw [hd, BitVec.toNat_ofNat]
  omega

theorem mem_block_iff : x ∈ block p ↔ (x - (p - metadataSize)).toNat < 8 + 256 := Iff.rfl

theorem mem_block (hj : j < 256) : p + BitVec.ofNat 64 j ∈ block p := by
  rw [mem_block_iff, toNat_in_block hj]
  omega

/-- The bytes that a store into an array changes lie in its block. -/
theorem mem_block_of_near (hn : n < 32) (hx : (x - (p + BitVec.ofNat 64 (8 * n))).toNat < 8) :
    x ∈ block p := by
  have hj := mem_block (p := p) (show 8 * n + (x - (p + BitVec.ofNat 64 (8 * n))).toNat < 256 by omega)
  rwa [← add_ofNat_add_ofNat, BitVec.ofNat_toNat, BitVec.setWidth_eq, BitVec.add_comm,
    BitVec.sub_add_cancel] at hj

/-- A store behind the first `n` words of an array appends to them. -/
theorem pointers_store_same (hn : n < 32) :
    pointers (store64 m (p + BitVec.ofNat 64 (8 * n)) v) p (n + 1) = pointers m p n ++ [v] := by
  have hsame : ∀ i ∈ List.range n, load64 (store64 m (p + BitVec.ofNat 64 (8 * n)) v)
      (p + BitVec.ofNat 64 (8 * i)) = load64 m (p + BitVec.ofNat 64 (8 * i)) := by
    intro i hi
    have hi := List.mem_range.mp hi
    apply load64_store64_of_apart
    intro k hk
    have hd : p + BitVec.ofNat 64 (8 * i) + BitVec.ofNat 64 k - (p + BitVec.ofNat 64 (8 * n)) =
        BitVec.ofNat 64 (8 * i + k) - BitVec.ofNat 64 (8 * n) := by
      rw [add_ofNat_add_ofNat]
      generalize BitVec.ofNat 64 (8 * i + k) = y
      generalize BitVec.ofNat 64 (8 * n) = z
      bv_omega
    rw [hd, BitVec.toNat_sub, BitVec.toNat_ofNat, BitVec.toNat_ofNat]
    omega
  rw [pointers, List.range_succ, List.map_append, List.map_singleton, load64_store64,
    List.map_congr_left hsame, pointers]

/-- A store into one array leaves the others alone. -/
theorem pointers_store_other (hd : Disjoint (block p) (block q)) (hn : n < 32) (hi : i ≤ 32) :
    pointers (store64 m (q + BitVec.ofNat 64 (8 * n)) v) p i = pointers m p i := by
  apply List.map_congr_left
  intro j hj
  have hj := List.mem_range.mp hj
  apply load64_store64_of_apart
  intro k hk
  rw [add_ofNat_add_ofNat]
  by_contra hnear
  have hq := mem_block_of_near hn (Nat.lt_of_not_le hnear)
  exact Set.disjoint_left.mp hd (mem_block (by omega)) hq

theorem addresses_cons (o : ℕ) (l : List ℕ) :
    addresses table madt (o :: l) t = addresses table madt [o] t ++ addresses table madt l t := by
  rw [addresses, addresses, addresses, ← List.map_append, ← List.filter_append]
  rfl

theorem addresses_singleton (o : ℕ) : addresses table madt [o] t =
    if recordType table madt o = some t then [madt + BitVec.ofNat 64 o] else [] := by
  rw [addresses]
  split <;> simp [*]

theorem madtBody_bytes (hu : madtEntryType (table s.tablePtr) = some u)
    (hindex : s.index u = BitVec.ofNat 64 n) : (madtBody table arrays s).bytes =
      store64 s.bytes (arrays u + BitVec.ofNat 64 (8 * n)) s.tablePtr := by
  simp only [madtBody, hu, Option.elim_some, MadtScan.collect, hindex]
  rw [BitVec.ofNat_mul]

theorem tableType_eq (hptr : s.tablePtr = madt + BitVec.ofNat 64 o) :
    madtEntryType (table s.tablePtr) = recordType table madt o := by
  rw [hptr]
  rfl

/-- One record more. -/
theorem madtBody_collected (ha : Apart arrays madt n) (hc : Collected arrays s.bytes s.index found)
    (hptr : s.tablePtr = madt + BitVec.ofNat 64 o)
    (hroom : ∀ t, (found t).length + (addresses table madt [o] t).length ≤ 32) :
    Collected arrays (madtBody table arrays s).bytes (madtBody table arrays s).index
      fun t => found t ++ addresses table madt [o] t := by
  have htype : madtEntryType (table s.tablePtr) = recordType table madt o := tableType_eq hptr
  intro t
  obtain ⟨hindex, hpointers⟩ := hc t
  have hroomt := hroom t
  simp only [addresses_singleton] at hroomt ⊢
  rw [madtBody_index, htype]
  cases hu : recordType table madt o with
  | none => simp [madtBody, htype, hu, hindex, hpointers]
  | some u =>
    have hstore : (madtBody table arrays s).bytes = _ := madtBody_bytes (htype.trans hu) (hc u).1
    have hroomu := hroom u
    rw [addresses_singleton, if_pos hu, List.length_singleton] at hroomu
    rw [hstore, hptr]
    by_cases htu : u = t
    · subst htu
      simp only [if_true, List.length_append, List.length_singleton]
      refine ⟨by rw [hindex, BitVec.ofNat_add], ?_⟩
      rw [pointers_store_same (by omega), hpointers]
    · have hne : ¬ (some u = some t) := fun h => htu (Option.some.inj h)
      rw [hu] at hroomt
      simp only [if_neg hne, List.append_nil, List.length_nil, BitVec.add_zero] at hroomt ⊢
      refine ⟨hindex, ?_⟩
      rw [pointers_store_other (ha.disjoint t u (Ne.symm htu)) (by omega) (by omega), hpointers]

/-- Only the blocks of the arrays change. -/
theorem madtBody_frame (hc : Collected arrays s.bytes s.index found)
    (hroom : ∀ t, (found t).length + (addresses table madt [o] t).length ≤ 32)
    (hptr : s.tablePtr = madt + BitVec.ofNat 64 o) (hx : ∀ t, x ∉ block (arrays t)) :
    (madtBody table arrays s).bytes x = s.bytes x := by
  have htype : madtEntryType (table s.tablePtr) = recordType table madt o := tableType_eq hptr
  cases hu : recordType table madt o with
  | none => simp [madtBody, htype, hu]
  | some u =>
    have hroomu := hroom u
    rw [addresses_singleton, if_pos hu, List.length_singleton] at hroomu
    rw [madtBody_bytes (htype.trans hu) (hc u).1]
    apply store64_of_out
    by_contra hnear
    exact hx u (mem_block_of_near (by omega) (Nat.lt_of_not_le hnear))

/-- From a record on, the loop collects the rest of the tiling. -/
theorem scan_tiling (h : madt.toNat + 2 ^ 33 ≤ 2 ^ 64) (ha : Apart arrays madt (length table madt))
    (ht : Tiling table madt (length table madt) o l) (hptr : s.tablePtr = madt + BitVec.ofNat 64 o)
    (hc : Collected arrays s.bytes s.index found)
    (hroom : ∀ t, (found t).length + (addresses table madt l t).length ≤ 32) :
    ∃ r, Returns (madtRound table arrays (madtTableLength table madt)) s r ∧
      (Collected arrays r.bytes r.index fun t => found t ++ addresses table madt l t) ∧
      ∀ x, (∀ t, x ∉ block (arrays t)) → r.bytes x = s.bytes x := by
  have hlen := length_lt table madt
  induction ht generalizing s found with
  | done =>
    have hend : ¬ s.tablePtr < madtTableLength table madt := by
      rw [hptr, tablePtr_lt_iff h (by omega)]
      exact Nat.lt_irrefl _
    refine ⟨s, returns_of_leave (if_neg hend), ?_, fun x _ => rfl⟩
    simpa [addresses] using hc
  | @record o l hrec htail ih =>
    have hle := htail.le
    have htest : s.tablePtr < madtTableLength table madt := by
      rw [hptr, tablePtr_lt_iff h (by omega)]
      omega
    have hroom₁ : ∀ t, (found t).length + (addresses table madt [o] t).length ≤ 32 := by
      intro t
      have hroomt := hroom t
      rw [addresses_cons, List.length_append] at hroomt
      omega
    have hnext : (madtBody table arrays s).tablePtr =
        madt + BitVec.ofNat 64 (o + recordLength table madt o) := by
      rw [madtBody_tablePtr, hptr, ofNat_recordLength, add_ofNat_add_ofNat]
    obtain ⟨r, hr, hcr, hframe⟩ := ih hnext (madtBody_collected ha hc hptr hroom₁) (by
      intro t
      have hroomt := hroom t
      rw [addresses_cons] at hroomt
      simp only [List.length_append] at hroomt ⊢
      omega)
    refine ⟨r, returns_of_goOn (if_pos htest) hr, ?_, fun x hx => ?_⟩
    · simpa only [addresses_cons o l, List.append_assoc] using hcr
    · rw [hframe x hx, madtBody_frame hc hroom₁ hptr hx]

/-! The calls in front of the loop. -/

section

variable {σ : Type} {A : Allocators σ} {h h' : Heap σ}

/-- `kmalloc(256)` takes an object of 512 bytes. -/
theorem kmalloc_256 (A : Allocators σ) (h : Heap σ) : kmalloc A h 256#64 =
    some ((A.slabAlloc h.alloc (BitVec.ofNat 64 (2 ^ 9))).1 + metadataSize,
      ⟨store64 h.bytes (A.slabAlloc h.alloc (BitVec.ofNat 64 (2 ^ 9))).1 (BitVec.ofNat 64 (2 ^ 9)),
        (A.slabAlloc h.alloc (BitVec.ofNat 64 (2 ^ 9))).2⟩) := by
  have heq : nextPowOfTwo 256#64 = some (BitVec.ofNat 64 (2 ^ 8)) := by decide
  have heq' : nextPowOfTwo (256#64 + metadataSize) = some (BitVec.ofNat 64 (2 ^ 9)) := by decide
  exact Kmalloc.kmalloc_object A h heq (by decide) heq'

/-- The header is all that `kmalloc(256)` writes. -/
theorem kmalloc_array (hp : kmalloc A h 256#64 = some (p, h')) :
    h'.bytes = store64 h.bytes (p - metadataSize) (BitVec.ofNat 64 (2 ^ 9)) := by
  rw [kmalloc_256] at hp
  cases Option.some.inj hp
  rw [metadataSize, BitVec.add_sub_cancel]

theorem kmalloc_frame (hp : kmalloc A h 256#64 = some (p, h')) (hx : x ∉ block p) :
    h'.bytes x = h.bytes x := by
  rw [kmalloc_array hp]
  apply store64_of_out
  rw [mem_block_iff] at hx
  omega

/-- Outside the blocks, memory is as it was. -/
theorem madtAllocate_frame (ha : madtAllocate A h = some (arrays, h'))
    (hx : ∀ t, x ∉ block (arrays t)) : h'.bytes x = h.bytes x := by
  simp only [madtAllocate, Option.bind_eq_bind, Option.bind_eq_some_iff] at ha
  obtain ⟨⟨lapics, h₁⟩, h1, ⟨ioApics, h₂⟩, h2, ⟨isos, h₃⟩, h3, ⟨lapicNmis, h₄⟩, h4, heq⟩ := ha
  cases heq
  rw [kmalloc_frame h4 (hx .lapicNmi), kmalloc_frame h3 (hx .interruptSourceOverride),
    kmalloc_frame h2 (hx .ioApic), kmalloc_frame h1 (hx .processorLocalApic)]

/-- A table apart from the blocks is as it was. -/
theorem sameTable (hframe : ∀ x, (∀ t, x ∉ block (arrays t)) → m x = table x) (ha : Apart arrays madt n)
    (hn : n ≤ 2 ^ 33) (hj : j < n) : bytesAt m madt j = bytesAt table madt j := by
  apply hframe
  intro t hmem
  have hout := ha.outside t _ hmem
  rw [toNat_offset (Nat.lt_of_lt_of_le hj (hn.trans (by decide)))] at hout
  omega

/-- `madt_init` ends, its arrays hold the addresses of the records of their type in the order of the
table, and the table is as it was. -/
def Collects (A : Allocators σ) (la57 : Bool) (acpi : Acpi) (h : Heap σ) (madt : Word) (l : List ℕ) :
    Prop :=
  ∃ fuel g, madtInit A la57 acpi h fuel = some g ∧
    (∀ t, g.index t = BitVec.ofNat 64 (addresses h.bytes madt l t).length ∧
      pointers g.heap.bytes (g.arrays t) (addresses h.bytes madt l t).length =
        addresses h.bytes madt l t) ∧
    ∀ j < length h.bytes madt, bytesAt g.heap.bytes madt j = bytesAt h.bytes madt j

/-- A loop that begins with such a table and the arrays collects its records. -/
theorem collects_of_found {la57 : Bool} {acpi : Acpi} {fuel₀ : ℕ}
    (hfound : ∀ fuel, fuel₀ ≤ fuel → madtFindTable A la57 acpi h fuel = some (madt, arrays, h'))
    (halloc : madtAllocate A h = some (arrays, h')) (hbound : madt.toNat + 2 ^ 33 ≤ 2 ^ 64)
    (hapart : Apart arrays madt (length h.bytes madt))
    (htiling : Tiling h.bytes madt (length h.bytes madt) 44 l)
    (hfew : ∀ t, (addresses h.bytes madt l t).length ≤ 32) : Collects A la57 acpi h madt l := by
  have hlen := length_lt h.bytes madt
  have hfixed := htiling.le
  have hsame : ∀ j < length h.bytes madt, bytesAt h'.bytes madt j = bytesAt h.bytes madt j :=
    fun j => sameTable (fun x hx => madtAllocate_frame halloc hx) hapart (by omega)
  have hlength : length h'.bytes madt = length h.bytes madt :=
    length_congr fun o ho => hsame o (by omega)
  have hrecords : addresses h'.bytes madt l = addresses h.bytes madt l :=
    addresses_congr fun j hj => hsame j (htiling.mem_lt hj)
  have htiling' := htiling.congr hsame
  rw [← hlength] at htiling' hapart
  have hempty : Collected arrays h'.bytes (fun _ => 0#64) fun _ => [] := fun t => ⟨rfl, rfl⟩
  obtain ⟨s, ⟨fuel₁, hfuel₁⟩, hcollected, hframe⟩ :=
    scan_tiling (s := madtScanStart h'.bytes madt) hbound hapart htiling' rfl hempty
      (by simpa [hrecords] using hfew)
  refine ⟨max fuel₀ fuel₁, ⟨madt, arrays, s.index, ⟨s.bytes, h'.alloc⟩⟩, ?_, ?_, ?_⟩
  · rw [madtInit, hfound _ (Nat.le_max_left _ _)]
    simp only [Option.bind_eq_bind, Option.bind_some, iterate_mono hfuel₁ (Nat.le_max_right _ _)]
  · simp only [hrecords, List.nil_append] at hcollected
    exact hcollected
  · rw [hlength] at hapart
    intro j hj
    refine sameTable (fun x hx => ?_) hapart (by omega) hj
    exact (hframe x hx).trans (madtAllocate_frame halloc hx)

/-- On a MADT that is tiled by records, with room for those of each type, `madt_init` collects them
if and only if the search gets to the MADT. -/
theorem madtInit_collects_iff (A : Allocators σ) (la57 : Bool) (acpi : Acpi) (h h' : Heap σ)
    (arrays : MadtArrays) (n i : ℕ) (l : List ℕ) (hmadt : IsMadt la57 h.bytes acpi n i)
    (halloc : madtAllocate A h = some (arrays, h')) :
    let madt := physToHigherHalfData la57 (acpi.table h.bytes i)
    Apart arrays madt (length h.bytes madt) →
    Tiling h.bytes madt (length h.bytes madt) 44 l →
    (∀ t, (addresses h.bytes madt l t).length ≤ 32) →
    (Collects A la57 acpi h madt l ↔ Findable h.bytes acpi n i) := by
  intro madt hapart htiling hfew
  constructor
  · rintro ⟨fuel, g, hg, _⟩
    obtain ⟨found, hfound, _⟩ := Option.bind_eq_some_iff.mp hg
    exact (findable_of_madtFindTable hmadt halloc hfound).1
  · intro hf
    exact collects_of_found (fun fuel => madtFindTable_eq hmadt hf halloc) halloc
      (toNat_higherHalf la57 _) hapart htiling hfew

end

/-- Objects one behind the other, as on a fresh slab. -/
def freshSlab : Allocators Word where
  pmmAlloc s _ := (0#64, s)
  pmmFree s _ _ := s
  slabAlloc s size := (s, s + size)
  slabFree s _ := s

/-- The arrays that it gives `madt_init`. -/
def freshArrays : MadtArrays
  | .processorLocalApic => 0xFFFF800000200008#64
  | .ioApic => 0xFFFF800000200208#64
  | .interruptSourceOverride => 0xFFFF800000200408#64
  | .lapicNmi => 0xFFFF800000200608#64

theorem madtAllocate_freshSlab (m : Bytes) :
    ∃ h', madtAllocate freshSlab ⟨m, 0xFFFF800000200000#64⟩ = some (freshArrays, h') := by
  simp only [madtAllocate, kmalloc_256, Option.bind_eq_bind, Option.bind_some]
  refine ⟨_, congrArg (fun arrays => some (arrays, _)) ?_⟩
  funext t
  cases t <;> rfl

/-- An RSDP at 0xFE0, an RSDT with one entry at 0x1000, and a MADT at 0x1028. The direct map shows the
same bytes. -/
def madtMemory (madt : List (BitVec 8)) : Bytes := fun a =>
  bytesOf 0xFE0#64
    (List.replicate 8 0#8 ++ [0xF0#8] ++ List.replicate 7 0#8 ++ [0#8, 0x10#8, 0#8, 0#8] ++
      List.replicate 12 0#8 ++ [0x52#8, 0x53#8, 0x44#8, 0x54#8, 40#8, 0#8, 0#8, 0#8, 0#8, 0x63#8] ++
      List.replicate 26 0#8 ++ [0x28#8, 0x10#8, 0#8, 0#8] ++ madt)
    (a &&& 0xFFFFFF#64)

/-- What `acpi_init` makes of it. -/
def madtMemoryAcpi : Acpi := ⟨0xFE0#64, false, physToHigherHalfData false 0x1000#64⟩

theorem directMap_madtMemory (madt : List (BitVec 8)) (phys : Word) (o : ℕ) :
    bytesAt (madtMemory madt) (physToHigherHalfData false phys) o =
      bytesAt (madtMemory madt) phys o := by
  have hmask : ∀ a : Word, (physToHigherHalfData false phys + a) &&& 0xFFFFFF#64 =
      (phys + a) &&& 0xFFFFFF#64 := by
    intro a
    have hmod : ∀ x : Word, (x &&& 0xFFFFFF#64).toNat = x.toNat % 2 ^ 24 := fun x => by
      rw [BitVec.toNat_and, ← Nat.and_two_pow_sub_one_eq_mod]
      rfl
    apply BitVec.eq_of_toNat_eq
    rw [hmod, hmod, physToHigherHalfData, higherHalfData, if_neg (by decide)]
    simp only [BitVec.toNat_add, BitVec.toNat_ofNat]
    omega
  rw [bytesAt, bytesAt, madtMemory, madtMemory, hmask]

/-- A local APIC, a record of a type that is not collected, and a non-maskable interrupt. -/
def smallMadt : Bytes := madtMemory
  ([0x41#8, 0x50#8, 0x49#8, 0x43#8, 70#8, 0#8, 0#8, 0#8, 0#8, 0x79#8] ++ List.replicate 34 0#8 ++
    [0#8, 8#8, 0#8, 0#8, 1#8, 0#8, 0#8, 0#8] ++ [5#8, 12#8] ++ List.replicate 10 0#8 ++
    [4#8, 6#8, 0xFF#8, 0#8, 0#8, 1#8])

example : acpiInit false (acpiVerifySdtHeaderChecksum smallMadt 41) smallMadt ⟨0#64, false, 0#64⟩
    0xFE0#64 = some madtMemoryAcpi := by rfl

theorem disjoint_block (hlo : 264 ≤ (q - p).toNat) (hhi : (q - p).toNat ≤ 2 ^ 64 - 264) :
    Disjoint (block p) (block q) := by
  apply Set.disjoint_left.mpr
  intro x hp hq
  rw [mem_block_iff, metadataSize] at hp hq
  bv_omega

theorem outside_block (hlo : n ≤ (p - metadataSize - v).toNat)
    (hhi : (p - metadataSize - v).toNat ≤ 2 ^ 64 - 264) (hx : x ∈ block p) : n ≤ (x - v).toNat := by
  rw [mem_block_iff] at hx
  rw [metadataSize] at hlo hhi hx
  bv_omega

theorem tiling_smallMadt : Tiling smallMadt (physToHigherHalfData false 0x1028#64) 70 44 [44, 52, 64] := by
  have h₁ : recordLength smallMadt (physToHigherHalfData false 0x1028#64) 44 = 8 := by decide
  have h₂ : recordLength smallMadt (physToHigherHalfData false 0x1028#64) 52 = 12 := by decide
  have h₃ : recordLength smallMadt (physToHigherHalfData false 0x1028#64) 64 = 6 := by decide
  refine .record (by decide) ?_
  rw [h₁]
  refine .record (by decide) ?_
  rw [h₂]
  refine .record (by decide) ?_
  rw [h₃]
  exact .done

/-- The arrays lie behind each other, and far from a table of up to 4096 bytes at 0x1028. -/
theorem apart_freshArrays {n : ℕ} (hn : n ≤ 4096) :
    Apart freshArrays (physToHigherHalfData false 0x1028#64) n := by
  constructor
  · intro t u htu
    cases t <;> cases u <;>
      first
      | exact (htu rfl).elim
      | exact disjoint_block (by decide) (by decide)
  · intro t x
    cases t <;> exact outside_block (hn.trans (by decide)) (by decide)

/-- A table with the right signature and checksum at 0x1028 is the MADT of `madtMemory`. -/
theorem isMadt_madtMemory {madt : List (BitVec 8)}
    (hinit : madtMemoryAcpi.Initialized (madtMemory madt))
    (hlen : (sdtLength (madtMemory madt) madtMemoryAcpi.rsdt).toNat = 40)
    (hq : Acpi.Qualifies (madtMemory madt) apic (madtMemoryAcpi.table (madtMemory madt) 0))
    (hfixed : 44 ≤ (sdtLength (madtMemory madt) (madtMemoryAcpi.table (madtMemory madt) 0)).toNat) :
    IsMadt false (madtMemory madt) madtMemoryAcpi 1 0 where
  initialized := hinit
  rsdtLength := hlen
  entry := Nat.one_pos
  qualifies := hq
  first j hj := absurd hj (Nat.not_lt_zero j)
  fixedPart := hfixed
  directMap o _ := directMap_madtMemory madt _ o

theorem table_madtMemory : madtMemoryAcpi.table smallMadt 0 = 0x1028#64 := by decide

theorem isMadt_smallMadt : IsMadt false smallMadt madtMemoryAcpi 1 0 :=
  isMadt_madtMemory (by unfold Acpi.Initialized; decide) (by decide) (by decide +kernel) (by decide)

theorem madtInit_collects_smallMadt :
    Collects freshSlab false madtMemoryAcpi ⟨smallMadt, 0xFFFF800000200000#64⟩
      (physToHigherHalfData false 0x1028#64) [44, 52, 64] := by
  obtain ⟨h', halloc⟩ := madtAllocate_freshSlab smallMadt
  have h := madtInit_collects_iff freshSlab false madtMemoryAcpi
    ⟨smallMadt, 0xFFFF800000200000#64⟩ h' freshArrays 1 0 [44, 52, 64] isMadt_smallMadt halloc
  rw [table_madtMemory] at h
  refine (h (apart_freshArrays (by decide)) tiling_smallMadt fun t => ?_).mpr ⟨.inl (by decide), ?_⟩
  · cases t <;> decide
  · rintro j hj -
    obtain rfl : j = 0 := by omega
    decide

/-- 27 local APICs, 8 bytes each: 260 bytes in all. -/
def longMadt : Bytes := madtMemory
  ([0x41#8, 0x50#8, 0x49#8, 0x43#8, 4#8, 1#8, 0#8, 0#8, 0#8, 0xEB#8] ++ List.replicate 34 0#8 ++
    (List.replicate 27 [0#8, 8#8, 0#8, 0#8, 1#8, 0#8, 0#8, 0#8]).flatten)

/-- Records of 8 bytes each, one behind the other. -/
theorem tiling_of_eights {n : ℕ}
    (h : ∀ j < n, recordLength table madt (o + 8 * j) = 8) :
    Tiling table madt (o + 8 * n) o ((List.range n).map fun j => o + 8 * j) := by
  induction n generalizing o with
  | zero => exact .done
  | succ n ih =>
    have hfirst : recordLength table madt o = 8 := h 0 (Nat.succ_pos n)
    have hrest := ih (o := o + 8) fun j hj => by
      rw [show o + 8 + 8 * j = o + 8 * (j + 1) by omega]
      exact h (j + 1) (by omega)
    have hmap : (List.range n).map ((fun j => o + 8 * j) ∘ Nat.succ) =
        (List.range n).map fun j => o + 8 + 8 * j := by
      apply List.map_congr_left
      intro j _
      simp only [Function.comp_apply]
      omega
    rw [List.range_succ_eq_map, List.map_cons, List.map_map, hmap,
      show o + 8 * (n + 1) = o + 8 + 8 * n by omega]
    refine .record (by omega) ?_
    rwa [hfirst]

theorem tiling_longMadt : Tiling longMadt (physToHigherHalfData false 0x1028#64) 260 44
    ((List.range 27).map fun j => 44 + 8 * j) := tiling_of_eights (n := 27) (by decide +kernel)

theorem isMadt_longMadt : IsMadt false longMadt madtMemoryAcpi 1 0 :=
  isMadt_madtMemory (by unfold Acpi.Initialized; decide) (by decide) (by decide +kernel) (by decide)

/-- `madt_init` never gets through the checksum of this table. -/
theorem madtInit_never_ends : ¬ ∀ (A : Allocators Word) (la57 : Bool) (acpi : Acpi) (h h' : Heap Word)
    (arrays : MadtArrays) (n i : ℕ) (l : List ℕ), IsMadt la57 h.bytes acpi n i →
      madtAllocate A h = some (arrays, h') →
      let madt := physToHigherHalfData la57 (acpi.table h.bytes i)
      Apart arrays madt (length h.bytes madt) →
      Tiling h.bytes madt (length h.bytes madt) 44 l →
      (∀ t, (addresses h.bytes madt l t).length ≤ 32) → Collects A la57 acpi h madt l := by
  intro hall
  obtain ⟨h', halloc⟩ := madtAllocate_freshSlab longMadt
  have h := hall freshSlab false madtMemoryAcpi ⟨longMadt, 0xFFFF800000200000#64⟩ h' freshArrays 1 0
    ((List.range 27).map fun j => 44 + 8 * j) isMadt_longMadt halloc
  have htable : madtMemoryAcpi.table longMadt 0 = 0x1028#64 := by decide
  rw [htable] at h
  obtain ⟨fuel, g, hg, _⟩ := h (apart_freshArrays (by decide)) tiling_longMadt fun t => by
    cases t <;> decide +kernel
  obtain ⟨found, hfound, _⟩ := Option.bind_eq_some_iff.mp hg
  have hshort := (findable_of_madtFindTable isMadt_longMadt halloc hfound).1.short 0 le_rfl
    isMadt_longMadt.qualifies.1
  exact absurd hshort (by decide)

end Madt

end KnutOS
