import KnutOS.Firmware.Madt
import Mathlib.Order.Monotone.Basic
import Mathlib.Data.Nat.Count

/-! The record loop of `madt_init` on any bytes: when it ends, and how far it reads. -/
namespace KnutOS

open Foundation

namespace Madt

section

variable (table : Bytes) (madt : Word)

/-- `madt->header.length`. -/
def length : ℕ := (sdtLength table madt).toNat

def recordType (o : ℕ) : Option MadtEntryType := madtEntryType (bytesAt table madt o)

def recordLength (o : ℕ) : ℕ := (bytesAt table madt (o + 1)).toNat

/-- Where the `k`-th record begins, by the length bytes of the records in front of it. -/
def recordOffset : ℕ → ℕ
  | 0 => 44
  | k + 1 => recordOffset k + recordLength table madt (recordOffset k)

/-- The records of type `t` among the first `k`. -/
def recordCount (t : MadtEntryType) (k : ℕ) : ℕ :=
  Nat.count (fun i => recordType table madt (recordOffset table madt i) = some t) k

end

variable {la57 : Bool} {phys : BitVec 32} {table bytes : Bytes} {arrays : MadtArrays} {madt : Word}
  {k n o : ℕ} {s : MadtScan} {t : MadtEntryType}

theorem recordOffset_mono (table : Bytes) (madt : Word) : Monotone (recordOffset table madt) :=
  monotone_nat_of_le_succ fun _ => Nat.le_add_right _ _

/-- The state after `k` rounds. -/
def scanAt (table : Bytes) (arrays : MadtArrays) (bytes : Bytes) (madt : Word) : ℕ → MadtScan
  | 0 => madtScanStart bytes madt
  | k + 1 => madtBody table arrays (scanAt table arrays bytes madt k)

theorem madtBody_tablePtr : (madtBody table arrays s).tablePtr =
    s.tablePtr + (table (s.tablePtr + 1#64)).setWidth 64 := by
  cases h : madtEntryType (table s.tablePtr) <;> simp [madtBody, h, MadtScan.collect]

theorem madtBody_index : (madtBody table arrays s).index t =
    s.index t + if madtEntryType (table s.tablePtr) = some t then 1#64 else 0#64 := by
  cases h : madtEntryType (table s.tablePtr) with
  | none => simp [madtBody, h]
  | some u =>
    by_cases hu : u = t
    · subst hu
      simp [madtBody, h, MadtScan.collect]
    · simp [madtBody, h, MadtScan.collect, hu, Function.update_of_ne (Ne.symm hu)]

theorem add_one_eq (madt : Word) (o : ℕ) :
    madt + BitVec.ofNat 64 o + 1#64 = madt + BitVec.ofNat 64 (o + 1) := add_ofNat_add_ofNat madt o 1

theorem ofNat_recordLength (table : Bytes) (madt : Word) (o : ℕ) :
    (table (madt + BitVec.ofNat 64 o + 1#64)).setWidth 64 =
      BitVec.ofNat 64 (recordLength table madt o) := by
  rw [add_one_eq]
  exact (BitVec.ofNat_toNat 64 _).symm

theorem scanAt_tablePtr (k : ℕ) : (scanAt table arrays bytes madt k).tablePtr =
    madt + BitVec.ofNat 64 (recordOffset table madt k) := by
  induction k with
  | zero => rfl
  | succ k ih =>
    rw [scanAt, madtBody_tablePtr, ih, ofNat_recordLength, add_ofNat_add_ofNat]
    rfl

theorem scanAt_type (k : ℕ) : madtEntryType (table (scanAt table arrays bytes madt k).tablePtr) =
    recordType table madt (recordOffset table madt k) := by
  rw [scanAt_tablePtr]
  rfl

theorem scanAt_index (k : ℕ) : (scanAt table arrays bytes madt k).index t =
    BitVec.ofNat 64 (recordCount table madt t k) := by
  induction k with
  | zero => rfl
  | succ k ih =>
    rw [scanAt, madtBody_index, ih, scanAt_type, recordCount, recordCount, Nat.count_succ]
    split
    · rw [BitVec.ofNat_add]
    · rw [Nat.add_zero, BitVec.add_zero]

/-- `acpi_find_sdt_table` returns a table that lies far below the end of the address space. -/
theorem toNat_higherHalf (la57 : Bool) (phys : BitVec 32) :
    (physToHigherHalfData la57 (phys.setWidth 64)).toNat + 2 ^ 33 ≤ 2 ^ 64 := by
  cases la57 <;>
    simp only [physToHigherHalfData, higherHalfData, Bool.false_eq_true, if_false, if_true] <;>
    bv_omega

theorem toNat_madt_add (h : madt.toNat + 2 ^ 33 ≤ 2 ^ 64) (ho : o < 2 ^ 33) :
    (madt + BitVec.ofNat 64 o).toNat = madt.toNat + o := by
  rw [BitVec.toNat_add, BitVec.toNat_ofNat]
  omega

theorem madtTableLength_eq (table : Bytes) (madt : Word) :
    madtTableLength table madt = madt + BitVec.ofNat 64 (length table madt) := by
  rw [madtTableLength, length, BitVec.ofNat_toNat]

theorem length_lt (table : Bytes) (madt : Word) : length table madt < 2 ^ 32 :=
  (sdtLength table madt).isLt

theorem tablePtr_lt_iff (h : madt.toNat + 2 ^ 33 ≤ 2 ^ 64) (ho : o < 2 ^ 33) :
    madt + BitVec.ofNat 64 o < madtTableLength table madt ↔ o < length table madt := by
  have hlen := length_lt table madt
  rw [madtTableLength_eq, BitVec.lt_def, toNat_madt_add h ho, toNat_madt_add h (by omega)]
  omega

/-- The length is made of the first bytes. -/
theorem length_congr {table' : Bytes} {madt' : Word}
    (h : ∀ o < 8, bytesAt table madt o = bytesAt table' madt' o) :
    length table madt = length table' madt' := by
  have hbyte : ∀ k < 4, table (madt + 4#64 + BitVec.ofNat 64 k) =
      table' (madt' + 4#64 + BitVec.ofNat 64 k) := by
    intro k hk
    rw [← show BitVec.ofNat 64 4 = 4#64 from rfl, add_ofNat_add_ofNat, add_ofNat_add_ofNat]
    exact h (4 + k) (by omega)
  have h0 := hbyte 0 (by decide)
  have h1 := hbyte 1 (by decide)
  have h2 := hbyte 2 (by decide)
  have h3 := hbyte 3 (by decide)
  rw [length, length, sdtLength, sdtLength, load32, load32]
  exact congrArg BitVec.toNat (congrArg₂ _ (congrArg₂ _ (congrArg₂ _ h3 h2) h1) h0)

/-- A record that the loop gets to begins less than 256 bytes behind the table. -/
theorem recordOffset_lt (hk : ∀ j < k, recordOffset table madt j < length table madt) :
    recordOffset table madt k < 2 ^ 33 := by
  cases k with
  | zero =>
    rw [recordOffset]
    omega
  | succ k =>
    have hlast := hk k (Nat.lt_succ_self k)
    have hlen := length_lt table madt
    have hbyte := (bytesAt table madt (recordOffset table madt k + 1)).isLt
    rw [recordOffset, recordLength]
    omega

theorem round_goOn (h : madt.toNat + 2 ^ 33 ≤ 2 ^ 64)
    (hk : recordOffset table madt k < length table madt) :
    madtRound table arrays (madtTableLength table madt) (scanAt table arrays bytes madt k) =
      .goOn (scanAt table arrays bytes madt (k + 1)) := by
  have hlen := length_lt table madt
  apply if_pos
  rw [scanAt_tablePtr, tablePtr_lt_iff h (by omega)]
  exact hk

theorem round_leave (h : madt.toNat + 2 ^ 33 ≤ 2 ^ 64)
    (hk : ∀ j < k, recordOffset table madt j < length table madt)
    (hend : ¬ recordOffset table madt k < length table madt) :
    madtRound table arrays (madtTableLength table madt) (scanAt table arrays bytes madt k) =
      .leave (scanAt table arrays bytes madt k) := by
  apply if_neg
  rw [scanAt_tablePtr, tablePtr_lt_iff h (recordOffset_lt hk)]
  exact hend

/-- The loop goes from record to record. -/
theorem visits_iff (h : madt.toNat + 2 ^ 33 ≤ 2 ^ 64) :
    Visits (madtRound table arrays (madtTableLength table madt)) (madtScanStart bytes madt) s ↔
      ∃ k, (∀ j < k, recordOffset table madt j < length table madt) ∧
        s = scanAt table arrays bytes madt k := by
  apply visits_path_iff (f := scanAt table arrays bytes madt) fun k hk => round_goOn h hk
  intro k u hk hend hu
  cases (round_leave h hk hend).symm.trans hu

/-- It ends if and only if some record would begin behind the table. -/
theorem exists_returns_iff (h : madt.toNat + 2 ^ 33 ≤ 2 ^ 64) :
    (∃ r, Returns (madtRound table arrays (madtTableLength table madt)) (madtScanStart bytes madt) r) ↔
      ∃ k, ¬ recordOffset table madt k < length table madt := by
  apply exists_returns_path_iff (f := scanAt table arrays bytes madt) fun k hk => round_goOn h hk
  exact fun k hk hend => ⟨_, round_leave h hk hend⟩

/-- The address is read as a record type or as a record length. -/
def Reads (table : Bytes) (arrays : MadtArrays) (bytes : Bytes) (madt a : Word) : Prop :=
  ∃ s, Visits (madtRound table arrays (madtTableLength table madt)) (madtScanStart bytes madt) s ∧
    s.tablePtr < madtTableLength table madt ∧ (a = s.tablePtr ∨ a = s.tablePtr + 1#64)

theorem reads_iff (h : madt.toNat + 2 ^ 33 ≤ 2 ^ 64) {a : Word} :
    Reads table arrays bytes madt a ↔ ∃ k, recordOffset table madt k < length table madt ∧
      (a = madt + BitVec.ofNat 64 (recordOffset table madt k) ∨
        a = madt + BitVec.ofNat 64 (recordOffset table madt k + 1)) := by
  have hlen := length_lt table madt
  constructor
  · rintro ⟨s, hs, hlt, ha⟩
    obtain ⟨k, hk, rfl⟩ := (visits_iff h).mp hs
    rw [scanAt_tablePtr, tablePtr_lt_iff h (recordOffset_lt hk)] at hlt
    rw [scanAt_tablePtr, add_one_eq] at ha
    exact ⟨k, hlt, ha⟩
  · rintro ⟨k, hk, ha⟩
    refine ⟨scanAt table arrays bytes madt k, (visits_iff h).mpr ⟨k, fun j hj => ?_, rfl⟩, ?_, ?_⟩
    · exact lt_of_le_of_lt (recordOffset_mono table madt hj.le) hk
    · rw [scanAt_tablePtr, tablePtr_lt_iff h (by omega)]
      exact hk
    · rw [scanAt_tablePtr, add_one_eq]
      exact ha

/-- The loop ends, and reads bytes of the table only. -/
def StaysInside (table : Bytes) (arrays : MadtArrays) (bytes : Bytes) (madt : Word) : Prop :=
  (∃ s fuel, iterate (madtRound table arrays (madtTableLength table madt)) fuel
    (madtScanStart bytes madt) = some s) ∧
  ∀ a, Reads table arrays bytes madt a → (a - madt).toNat < length table madt

theorem toNat_offset (ho : o < 2 ^ 64) : (madt + BitVec.ofNat 64 o - madt).toNat = o := by
  rw [BitVec.add_comm, BitVec.add_sub_cancel, BitVec.toNat_ofNat]
  omega

/-- A record with a length byte of 0 is followed by itself. -/
theorem recordOffset_stuck (h : recordLength table madt (recordOffset table madt n) = 0) (i : ℕ) :
    recordOffset table madt (n + i) = recordOffset table madt n := by
  induction i with
  | zero => rfl
  | succ i ih => rw [← Nat.add_assoc, recordOffset, ih, h, Nat.add_zero]

/-- Records that all have a length leave the table behind. -/
theorem le_recordOffset (h : ∀ k < n, recordLength table madt (recordOffset table madt k) ≠ 0) :
    n ≤ recordOffset table madt n := by
  induction n with
  | zero => exact Nat.zero_le _
  | succ n ih =>
    have hprev := ih fun k hk => h k (by omega)
    have hlast := h n (Nat.lt_succ_self n)
    rw [recordOffset]
    omega

theorem staysInside_iff_records (h : madt.toNat + 2 ^ 33 ≤ 2 ^ 64) :
    StaysInside table arrays bytes madt ↔
      ∀ n, recordOffset table madt n < length table madt →
        recordOffset table madt n + 1 < length table madt ∧
          recordLength table madt (recordOffset table madt n) ≠ 0 := by
  have hlen := length_lt table madt
  constructor
  · rintro ⟨hends, hreads⟩ n hn
    constructor
    · have hbyte := hreads _ ((reads_iff h).mpr ⟨n, hn, .inr rfl⟩)
      rwa [toNat_offset (by omega)] at hbyte
    · intro h0
      obtain ⟨k, hk⟩ := (exists_returns_iff h).mp hends
      have hmono := recordOffset_mono table madt (Nat.le_add_left k n)
      rw [recordOffset_stuck h0] at hmono
      omega
  · intro hrecords
    constructor
    · apply (exists_returns_iff h).mpr
      by_contra hall
      have hin : ∀ k, recordOffset table madt k < length table madt := by
        intro k
        by_contra hk
        exact hall ⟨k, hk⟩
      have hfar := le_recordOffset fun k (_ : k < length table madt) => (hrecords k (hin k)).2
      exact absurd (hin (length table madt)) (Nat.not_lt.mpr hfar)
    · intro a ha
      obtain ⟨k, hk, rfl | rfl⟩ := (reads_iff h).mp ha
      · rwa [toNat_offset (by omega)]
      · rw [toNat_offset (by omega)]
        exact (hrecords k hk).1

/-- The scan is in order exactly when every record that begins in the table has its length byte in
the table and not 0. -/
theorem staysInside_iff (la57 : Bool) (phys : BitVec 32) (table : Bytes) (arrays : MadtArrays)
    (bytes : Bytes) :
    let madt := physToHigherHalfData la57 (phys.setWidth 64)
    StaysInside table arrays bytes madt ↔
      ∀ n, recordOffset table madt n < length table madt →
        recordOffset table madt n + 1 < length table madt ∧
          recordLength table madt (recordOffset table madt n) ≠ 0 :=
  staysInside_iff_records (toNat_higherHalf la57 phys)

/-- Two records: a local APIC, and one with a length byte of 0. -/
def zeroLengthTable : Bytes := bytesOf (physToHigherHalfData false 0x1000#64)
  ([0x41#8, 0x50#8, 0x49#8, 0x43#8, 54#8, 0#8, 0#8, 0#8, 0#8, 0xA0#8] ++ List.replicate 34 0#8 ++
    [0#8, 8#8, 0#8, 0#8, 1#8, 0#8, 0#8, 0#8, 4#8, 0#8])

theorem leaves_table : ¬ ∀ (la57 : Bool) (phys : BitVec 32) (table : Bytes) (arrays : MadtArrays)
    (bytes : Bytes), StaysInside table arrays bytes (physToHigherHalfData la57 (phys.setWidth 64)) := by
  intro h
  have hstays := h false 0x1000#32 zeroLengthTable (fun _ => 0#64) fun _ => 0#8
  have hsecond := (staysInside_iff_records (by decide)).mp hstays 1 (by decide)
  exact hsecond.2 (by decide)

end Madt

end KnutOS
