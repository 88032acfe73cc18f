import KnutOS.Firmware.MadtRecords
import Mathlib.Data.Set.Card

/-! How many records `madt_init` stores in its arrays, which have room for 32 each. -/
namespace KnutOS

open Foundation

namespace Madt

/-- The records of type `t` that begin in the table: the first one behind the 44 bytes, each of the
others behind the length of the one before it. -/
def recordsOf (table : Bytes) (madt : Word) (t : MadtEntryType) : Set ℕ :=
  {o | o < length table madt ∧ recordType table madt o = some t ∧ ∃ k, recordOffset table madt k = o}

variable {table table' bytes : Bytes} {arrays : MadtArrays} {madt : Word} {k n o : ℕ}
  {t : MadtEntryType}

/-- Every store into an array goes to one of its 32 words. -/
def IndicesBounded (table : Bytes) (arrays : MadtArrays) (bytes : Bytes) (madt : Word) : Prop :=
  ∀ s, Visits (madtRound table arrays (madtTableLength table madt)) (madtScanStart bytes madt) s →
    s.tablePtr < madtTableLength table madt →
    ∀ t, madtEntryType (table s.tablePtr) = some t → (s.index t).toNat < 32

theorem indicesBounded_iff_counts (h : madt.toNat + 2 ^ 33 ≤ 2 ^ 64) :
    IndicesBounded table arrays bytes madt ↔
      ∀ t n, (∀ k < n, recordOffset table madt k < length table madt) →
        recordCount table madt t n ≤ 32 := by
  have hlen := length_lt table madt
  constructor
  · intro hbounded t n hn
    induction n with
    | zero => simp [recordCount]
    | succ n ih =>
      have hcount := ih fun k hk => hn k (by omega)
      have hlast := hn n (Nat.lt_succ_self n)
      rw [recordCount, Nat.count_succ]
      split
      · rename_i ht
        have hvisit : Visits (madtRound table arrays (madtTableLength table madt))
            (madtScanStart bytes madt) (scanAt table arrays bytes madt n) :=
          (visits_iff h).mpr ⟨n, fun k hk => hn k (by omega), rfl⟩
        have htest : (scanAt table arrays bytes madt n).tablePtr < madtTableLength table madt := by
          rw [scanAt_tablePtr, tablePtr_lt_iff h (by omega)]
          exact hlast
        have hindex := hbounded _ hvisit htest t ((scanAt_type n).trans ht)
        rw [scanAt_index, BitVec.toNat_ofNat, Nat.mod_eq_of_lt (by omega)] at hindex
        exact hindex
      · exact hcount
  · intro hcounts s hs hlt t ht
    obtain ⟨k, hk, rfl⟩ := (visits_iff h).mp hs
    rw [scanAt_tablePtr, tablePtr_lt_iff h (recordOffset_lt hk)] at hlt
    rw [scanAt_type] at ht
    have hnext := hcounts t (k + 1) fun j hj => by
      rcases Nat.lt_succ_iff_lt_or_eq.mp hj with hj | rfl
      · exact hk j hj
      · exact hlt
    rw [recordCount, Nat.count_succ, if_pos ht] at hnext
    rw [scanAt_index, BitVec.toNat_ofNat, recordCount]
    omega

/-! The numbers of records, by the bytes of the table. -/

theorem finite_recordsOf (table : Bytes) (madt : Word) (t : MadtEntryType) :
    (recordsOf table madt t).Finite :=
  (Set.finite_Iio (length table madt)).subset fun _ ho => ho.1

/-- Records with a length of their own lie at offsets of their own. -/
theorem injOn_recordOffset (hin : ∀ k < n, recordOffset table madt k < length table madt)
    (hlen : ∀ o ∈ recordsOf table madt t, recordLength table madt o ≠ 0) :
    Set.InjOn (recordOffset table madt)
      {k | k < n ∧ recordType table madt (recordOffset table madt k) = some t} := by
  have hlt : ∀ {i j}, i < n → recordType table madt (recordOffset table madt i) = some t → i < j →
      recordOffset table madt i < recordOffset table madt j := by
    intro i j hi ht hij
    have hpos := hlen _ ⟨hin i hi, ht, i, rfl⟩
    have hmono := recordOffset_mono table madt (Nat.succ_le_of_lt hij)
    rw [recordOffset] at hmono
    omega
  rintro i ⟨hi, hit⟩ j ⟨hj, hjt⟩ heq
  rcases Nat.lt_trichotomy i j with hij | hij | hij
  · exact absurd heq (hlt hi hit hij).ne
  · exact hij
  · exact absurd heq (hlt hj hjt hij).ne'

theorem recordCount_eq_card (table : Bytes) (madt : Word) (t : MadtEntryType) (n : ℕ) :
    recordCount table madt t n = ((Finset.range n).filter fun k =>
      recordType table madt (recordOffset table madt k) = some t).card :=
  Nat.count_eq_card_filter_range _ _

theorem recordCount_le_ncard (hin : ∀ k < n, recordOffset table madt k < length table madt)
    (hlen : ∀ o ∈ recordsOf table madt t, recordLength table madt o ≠ 0) :
    recordCount table madt t n ≤ (recordsOf table madt t).ncard := by
  have hinj := injOn_recordOffset hin hlen
  rw [recordCount_eq_card, ← Finset.card_image_of_injOn (f := recordOffset table madt) (by
    simpa [Set.InjOn] using hinj), ← Set.ncard_coe_finset]
  apply Set.ncard_le_ncard _ (finite_recordsOf table madt t)
  intro o ho
  obtain ⟨k, hk, rfl⟩ := Finset.mem_image.mp (Finset.mem_coe.mp ho)
  obtain ⟨hk, ht⟩ := Finset.mem_filter.mp hk
  exact ⟨hin k (Finset.mem_range.mp hk), ht, k, rfl⟩

/-- The first record at an offset has no more records in front of it than bytes. -/
theorem exists_le_recordOffset (h : ∃ k, recordOffset table madt k = o) :
    ∃ k ≤ o, recordOffset table madt k = o := by
  classical
  have hleast := fun {i} => Nat.find_min h (m := i)
  have hk := Nat.find_spec h
  generalize Nat.find h = k at hleast hk
  refine ⟨k, ?_, hk⟩
  rw [← hk]
  apply le_recordOffset
  intro i hi hzero
  have hstuck := recordOffset_stuck hzero (k - i)
  rw [Nat.add_sub_cancel' hi.le, hk] at hstuck
  exact hleast hi hstuck.symm

/-- Some number of records is all that the table has room for. -/
theorem exists_last_record (table : Bytes) (madt : Word) :
    ∃ n, (∀ k < n, recordOffset table madt k < length table madt) ∧
      ∀ k < length table madt, recordOffset table madt k < length table madt → k < n := by
  rcases exists_least_lt (fun k => ¬ recordOffset table madt k < length table madt)
    (length table madt) with hnone | ⟨n, _, hn, hleast⟩
  · exact ⟨length table madt, fun k hk => not_not.mp (hnone k hk), fun k hk _ => hk⟩
  · refine ⟨n, fun k hk => not_not.mp (hleast k hk), fun k _ hk => ?_⟩
    by_contra hle
    exact hn (lt_of_le_of_lt (recordOffset_mono table madt (Nat.le_of_not_lt hle)) hk)

theorem ncard_le_of_counts
    (hcounts : ∀ n, (∀ k < n, recordOffset table madt k < length table madt) →
      recordCount table madt t n ≤ 32) : (recordsOf table madt t).ncard ≤ 32 := by
  obtain ⟨n, hin, hlast⟩ := exists_last_record table madt
  have hsub : recordsOf table madt t ⊆ ↑(((Finset.range n).filter fun k =>
      recordType table madt (recordOffset table madt k) = some t).image (recordOffset table madt)) := by
    rintro o ⟨ho, ht, hk⟩
    obtain ⟨k, hle, rfl⟩ := exists_le_recordOffset hk
    refine Finset.mem_coe.mpr (Finset.mem_image.mpr ⟨k, Finset.mem_filter.mpr ⟨?_, ht⟩, rfl⟩)
    exact Finset.mem_range.mpr (hlast k (by omega) ho)
  calc (recordsOf table madt t).ncard
      ≤ _ := Set.ncard_le_ncard hsub (Finset.finite_toSet _)
    _ = _ := Set.ncard_coe_finset _
    _ ≤ _ := Finset.card_image_le
    _ = recordCount table madt t n := (recordCount_eq_card table madt t n).symm
    _ ≤ 32 := hcounts n hin

/-- A record that leads to itself is stored again and again. -/
theorem recordLength_ne_zero_of_counts
    (hcounts : ∀ n, (∀ k < n, recordOffset table madt k < length table madt) →
      recordCount table madt t n ≤ 32) (ho : o ∈ recordsOf table madt t) :
    recordLength table madt o ≠ 0 := by
  obtain ⟨hlt, ht, k, rfl⟩ := ho
  intro hzero
  have hstuck := recordOffset_stuck hzero
  have hin : ∀ j < k + 33, recordOffset table madt j < length table madt := by
    intro j hj
    exact lt_of_le_of_lt ((recordOffset_mono table madt hj.le).trans (hstuck 33).le) hlt
  have hcount : ∀ j, recordCount table madt t (k + j) = recordCount table madt t k + j := by
    intro j
    induction j with
    | zero => rfl
    | succ j ih =>
      rw [← Nat.add_assoc, recordCount, Nat.count_succ, if_pos (by rw [hstuck j]; exact ht),
        ← recordCount, ih, Nat.add_assoc]
  have hmany := hcounts (k + 33) hin
  rw [hcount] at hmany
  omega

/-- The array of a type has room for the records that the loop stores in it. -/
def Fits (table : Bytes) (madt : Word) (t : MadtEntryType) : Prop :=
  (recordsOf table madt t).ncard ≤ 32 ∧ ∀ o ∈ recordsOf table madt t, recordLength table madt o ≠ 0

theorem counts_iff_fits : (∀ n, (∀ k < n, recordOffset table madt k < length table madt) →
    recordCount table madt t n ≤ 32) ↔ Fits table madt t := by
  constructor
  · intro hcounts
    exact ⟨ncard_le_of_counts hcounts, fun o => recordLength_ne_zero_of_counts hcounts⟩
  · rintro ⟨hcard, hlen⟩ n hin
    exact (recordCount_le_ncard hin hlen).trans hcard

/-! The table after the calls of `kmalloc` is the table before them. -/

theorem recordOffset_congr (hsame : ∀ j ≤ length table madt, bytesAt table' madt j = bytesAt table madt j)
    (hin : ∀ k < n, recordOffset table madt k < length table madt) :
    recordOffset table' madt n = recordOffset table madt n := by
  induction n with
  | zero => rfl
  | succ n ih =>
    have hlast := hin n (Nat.lt_succ_self n)
    rw [recordOffset, recordOffset, ih fun k hk => hin k (by omega), recordLength, recordLength,
      hsame _ (by omega)]

theorem recordsOf_subset (hlen : length table' madt = length table madt)
    (hsame : ∀ j ≤ length table madt, bytesAt table' madt j = bytesAt table madt j) :
    recordsOf table madt t ⊆ recordsOf table' madt t := by
  rintro o ⟨ho, ht, k, rfl⟩
  refine ⟨by rwa [hlen], ?_, k, recordOffset_congr hsame fun j hj => ?_⟩
  · rwa [recordType, hsame _ ho.le]
  · exact lt_of_le_of_lt (recordOffset_mono table madt hj.le) ho

theorem fits_congr (hlen : length table' madt = length table madt)
    (hsame : ∀ j ≤ length table madt, bytesAt table' madt j = bytesAt table madt j) :
    Fits table' madt t ↔ Fits table madt t := by
  have hrecords : recordsOf table' madt t = recordsOf table madt t := by
    apply Set.Subset.antisymm
    · exact recordsOf_subset hlen.symm fun j hj => (hsame j (by omega)).symm
    · exact recordsOf_subset hlen hsame
  have hlengths : ∀ o ∈ recordsOf table madt t,
      recordLength table' madt o = recordLength table madt o := by
    intro o ho
    have hlt := ho.1
    rw [recordLength, recordLength, hsame (o + 1) (by omega)]
  rw [Fits, Fits, hrecords]
  exact and_congr_right fun _ => forall₂_congr fun o ho => by rw [hlengths o ho]

section

variable {σ : Type} {A : Allocators σ} {la57 : Bool} {acpi : Acpi} {h h' : Heap σ} {i : ℕ}

/-- The calls of `kmalloc` do not touch the table. -/
theorem indicesBounded_iff_fits (hm : IsMadt la57 h.bytes acpi n i)
    (halloc : madtAllocate A h = some (arrays, h'))
    (hmadt : madt = physToHigherHalfData la57 (acpi.table h.bytes i))
    (hapart : Apart arrays madt (length h.bytes madt + 1)) :
    IndicesBounded h'.bytes arrays h'.bytes madt ↔ ∀ t, Fits h.bytes madt t := by
  have hbound : madt.toNat + 2 ^ 33 ≤ 2 ^ 64 := hmadt ▸ toNat_higherHalf la57 _
  have hlen := length_lt h.bytes madt
  have hfixed : 44 ≤ length h.bytes madt := by
    rw [hmadt, length_eq hm]
    exact hm.fixedPart
  have hsame : ∀ j ≤ length h.bytes madt, bytesAt h'.bytes madt j = bytesAt h.bytes madt j :=
    fun j hj => sameTable (fun x hx => madtAllocate_frame halloc hx) hapart (by omega) (by omega)
  have hlength : length h'.bytes madt = length h.bytes madt :=
    length_congr fun o ho => hsame o (by omega)
  rw [indicesBounded_iff_counts hbound]
  exact forall_congr' fun t => counts_iff_fits.trans (fits_congr hlength hsame)

/-- Every store of `madt_init` into one of its arrays goes to one of the 32 words of the array. -/
def ArraysBounded (A : Allocators σ) (la57 : Bool) (acpi : Acpi) (h : Heap σ) : Prop :=
  ∀ fuel madt arrays h', madtFindTable A la57 acpi h fuel = some (madt, arrays, h') →
    IndicesBounded h'.bytes arrays h'.bytes madt

/-- The arrays do not overflow if and only if the search never gets to the MADT, or the table has
at most 32 records of each type that is collected and none of these has a length of 0. -/
theorem arraysBounded_iff (A : Allocators σ) (la57 : Bool) (acpi : Acpi) (h h' : Heap σ)
    (arrays : MadtArrays) (n i : ℕ) (hm : IsMadt la57 h.bytes acpi n i)
    (halloc : madtAllocate A h = some (arrays, h')) :
    let madt := physToHigherHalfData la57 (acpi.table h.bytes i)
    Apart arrays madt (length h.bytes madt + 1) →
    (ArraysBounded A la57 acpi h ↔ ¬ Findable h.bytes acpi n i ∨ ∀ t, Fits h.bytes madt t) := by
  intro madt hapart
  have hloop := indicesBounded_iff_fits hm halloc rfl hapart
  constructor
  · intro hbounded
    rw [or_iff_not_imp_left, not_not]
    intro hf
    exact hloop.mp (hbounded _ _ _ _ (madtFindTable_eq hm hf halloc le_rfl))
  · rintro hcond fuel madt' arrays' h'' hfound
    obtain ⟨hf, heq⟩ := findable_of_madtFindTable hm halloc hfound
    cases heq
    exact hloop.mpr (hcond.resolve_left (not_not.mpr hf))

end

/-- Three records have room in any case. -/
theorem fits_smallMadt (t : MadtEntryType) :
    Fits smallMadt (physToHigherHalfData false 0x1028#64) t := by
  apply counts_iff_fits.mp
  intro n hin
  have hn : n ≤ 3 := by
    by_contra hlt
    exact absurd (hin 3 (by omega)) (by decide)
  exact (Nat.count_le _).trans (by omega)

theorem arraysBounded_smallMadt :
    ArraysBounded freshSlab false madtMemoryAcpi ⟨smallMadt, 0xFFFF800000200000#64⟩ := by
  obtain ⟨h', halloc⟩ := madtAllocate_freshSlab smallMadt
  have h := arraysBounded_iff freshSlab false madtMemoryAcpi ⟨smallMadt, 0xFFFF800000200000#64⟩ h'
    freshArrays 1 0 isMadt_smallMadt halloc
  rw [table_madtMemory] at h
  exact (h (apart_freshArrays (by decide))).mpr (.inr fits_smallMadt)

/-- 33 local APICs of 2 bytes each: 110 bytes in all. -/
def crowdedMadt : Bytes := madtMemory
  ([0x41#8, 0x50#8, 0x49#8, 0x43#8, 110#8, 0#8, 0#8, 0#8, 0#8, 0x33#8] ++ List.replicate 34 0#8 ++
    (List.replicate 33 [0#8, 2#8]).flatten)

theorem isMadt_crowdedMadt : IsMadt false crowdedMadt madtMemoryAcpi 1 0 :=
  isMadt_madtMemory (by unfold Acpi.Initialized; decide) (by decide) (by decide +kernel) (by decide)

/-- The search finds the table, and the 33rd record is stored behind the array. -/
theorem array_overflows :
    ¬ ArraysBounded freshSlab false madtMemoryAcpi ⟨crowdedMadt, 0xFFFF800000200000#64⟩ := by
  obtain ⟨h', halloc⟩ := madtAllocate_freshSlab crowdedMadt
  have hf : Findable crowdedMadt madtMemoryAcpi 1 0 := by
    refine ⟨.inl (by decide), ?_⟩
    rintro j hj -
    obtain rfl : j = 0 := by omega
    decide
  have htable : physToHigherHalfData false 0x1028#64 =
      physToHigherHalfData false (madtMemoryAcpi.table crowdedMadt 0) := by decide
  intro hbounded
  have hindices := hbounded _ _ _ _ (madtFindTable_eq isMadt_crowdedMadt hf halloc le_rfl)
  rw [← htable] at hindices
  have hfits := (indicesBounded_iff_fits isMadt_crowdedMadt halloc htable
    (apart_freshArrays (by decide))).mp hindices .processorLocalApic
  have hcount := counts_iff_fits.mpr hfits 33 (by decide +kernel)
  exact absurd hcount (by decide +kernel)

end Madt

end KnutOS
