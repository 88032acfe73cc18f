import KnutOS.Firmware.SdtChecksum
import KnutOS.Foundation.Lists

/-! `acpi_find_sdt_table`: which entries of the RSDT it looks at, and what it finds there. -/
namespace KnutOS

open Foundation

namespace Acpi

/-- What `rsdp_init` leaves behind. -/
def Initialized (m : Bytes) (s : Acpi) : Prop := s.hasXsdt = decide (2#8 ≤ rsdpRevision m s.rsdp)

/-- The address of the `i`-th table. -/
def table (m : Bytes) (s : Acpi) (i : ℕ) : Word := rsdtEntry m s.rsdt (BitVec.ofNat 64 i)

variable {la57 : Bool} {verify : Word → Option ℤ} {m : Bytes} {s s₀ : Acpi}
  {signature : ℕ → BitVec 8} {rsdpAddress ptr i r : Word} {n k : ℕ}

/-- After `acpi_init` the flag tells the revision, and the RSDT is reached through the RSDP. -/
theorem acpiInit_initialized (h : acpiInit la57 verify m s₀ rsdpAddress = some s)
    (h₀ : s₀.hasXsdt = false) : s.Initialized m ∧ s.rsdp = rsdpAddress ∧
      s.rsdt = physToHigherHalfData la57 ((rsdpRsdtAddress m rsdpAddress).setWidth 64) := by
  simp only [acpiInit, rsdpInit, Option.bind_eq_bind, Option.bind_eq_some_iff] at h
  obtain ⟨s₁, ⟨_, _, hs₁⟩, r, _, hs⟩ := h
  cases hs₁
  split at hs
  · cases hs
  · cases hs
    by_cases hrev : 2#8 ≤ rsdpRevision m rsdpAddress <;> simp [Initialized, hrev, h₀]

theorem toNat_entryCount (h : 36 ≤ (sdtLength m s.rsdt).toNat) : (s.entryCount m).toNat =
    ((sdtLength m s.rsdt).toNat - 36) / (if s.hasXsdt then 8 else 4) := by
  have hsub : ((sdtLength m s.rsdt).setWidth 64 - sdtHeaderSize).toNat =
      (sdtLength m s.rsdt).toNat - 36 := by
    have hlt := (sdtLength m s.rsdt).isLt
    rw [BitVec.toNat_sub, BitVec.toNat_setWidth, show sdtHeaderSize.toNat = 36 from rfl]
    omega
  cases hx : s.hasXsdt <;> simp [entryCount, BitVec.toNat_udiv, hsub, hx]

/-- A length below 36 wraps around to a count far beyond the table. -/
theorem entryCount_pos (h : (sdtLength m s.rsdt).toNat < 36) : 0 < (s.entryCount m).toNat := by
  have hsub : ((sdtLength m s.rsdt).setWidth 64 - sdtHeaderSize).toNat =
      2 ^ 64 + (sdtLength m s.rsdt).toNat - 36 := by
    rw [BitVec.toNat_sub, BitVec.toNat_setWidth, show sdtHeaderSize.toNat = 36 from rfl]
    omega
  cases hx : s.hasXsdt <;> simp [entryCount, BitVec.toNat_udiv, hsub, hx] <;> omega

/-- The search gets to entry `i` and reads it. -/
def ReadsEntry (la57 : Bool) (verify : Word → Option ℤ) (m : Bytes) (s : Acpi)
    (signature : ℕ → BitVec 8) (i : Word) : Prop :=
  Visits (findSdtTableRound la57 verify m s signature) 0#64 i ∧ i < s.entryCount m

/-- Whatever the checks of the tables say, the entries read lie in the RSDT exactly when its length
covers its own header. -/
theorem reads_inside_iff (la57 : Bool) (verify : Word → Option ℤ) (m : Bytes) (s : Acpi)
    (signature : ℕ → BitVec 8) :
    (∀ i, ReadsEntry la57 verify m s signature i →
        36 + 4 * (i.toNat + 1) ≤ (sdtLength m s.rsdt).toNat) ↔
      36 ≤ (sdtLength m s.rsdt).toNat := by
  constructor
  · intro h
    by_contra hlen
    have hpos : 0#64 < s.entryCount m := entryCount_pos (Nat.lt_of_not_le hlen)
    have hfirst := h 0#64 ⟨.start, hpos⟩
    omega
  · rintro hlen i ⟨_, hi⟩
    have hlt : i.toNat < (s.entryCount m).toNat := hi
    rw [toNat_entryCount hlen] at hlt
    split at hlt <;> omega

/-- The signature of the RSDT with a length of 10, and a checksum that makes up for it. The RSDP
lies at 0x1010. The direct map shows the same bytes as the physical addresses. -/
def shortRsdt : Bytes := fun a =>
  bytesOf 0x1000#64
    ([0x52#8, 0x53#8, 0x44#8, 0x54#8, 10#8, 0#8, 0#8, 0#8, 1#8, 0xB8#8] ++
      List.replicate 14 0#8 ++ [0xF0#8] ++ List.replicate 7 0#8 ++ [0#8, 0x10#8, 0#8, 0#8])
    (a &&& 0xFFFFFF#64)

/-- What `acpi_init` makes of it. -/
def shortRsdtAcpi : Acpi := ⟨0x1010#64, false, physToHigherHalfData false 0x1000#64⟩

example : acpiInit false (acpiVerifySdtHeaderChecksum shortRsdt 11) shortRsdt ⟨0#64, false, 0#64⟩
    0x1010#64 = some shortRsdtAcpi := by rfl

theorem reads_outside : ¬ ∀ (la57 : Bool) (m : Bytes) (fuel : ℕ) (s : Acpi),
    acpiCheckSdtHeader (acpiVerifySdtHeaderChecksum m fuel) m s.rsdt
        (cString ['R', 'S', 'D', 'T']) = some 0 →
      byteSum m s.rsdt (sdtLength m s.rsdt).toNat % 256 = 0 →
      ∀ signature i, ReadsEntry la57 (acpiVerifySdtHeaderChecksum m fuel) m s signature i →
        36 + 4 * (i.toNat + 1) ≤ (sdtLength m s.rsdt).toNat := by
  intro h
  have hfirst := h false shortRsdt 11 shortRsdtAcpi (by decide) (by decide)
    (cString ['A', 'P', 'I', 'C']) 0#64 ⟨.start, by decide⟩
  exact absurd hfirst (by decide)

/-! The search with checksums decided by the byte sum. -/

/-- The table has the signature, and its bytes sum up to 0 modulo 256. -/
def Qualifies (m : Bytes) (signature : ℕ → BitVec 8) (sdtHeader : Word) : Prop :=
  (∀ k < 4, bytesAt m sdtHeader k = signature k) ∧
    byteSum m sdtHeader (sdtLength m sdtHeader).toNat % 256 = 0

instance (m : Bytes) (signature : ℕ → BitVec 8) (sdtHeader : Word) :
    Decidable (Qualifies m signature sdtHeader) := inferInstanceAs (Decidable (_ ∧ _))

/-- `acpi_verify_sdt_header_checksum` as it is meant. -/
def verifyByteSum (m : Bytes) (sdtHeader : Word) : Option ℤ :=
  some (if byteSum m sdtHeader (sdtLength m sdtHeader).toNat % 256 = 0 then 0 else 1)

theorem memcmp_eq_zero_iff {a b : ℕ → BitVec 8} : memcmp a b n = 0 ↔ ∀ k < n, a k = b k := by
  induction n generalizing a b with
  | zero => simp [memcmp]
  | succ n ih =>
    by_cases h0 : a 0 = b 0
    · simp only [memcmp, h0, ne_eq, not_true_eq_false, if_false, ih]
      constructor
      · intro h k hk
        cases k with
        | zero => exact h0
        | succ k => exact h k (by omega)
      · intro h k hk
        exact h (k + 1) (by omega)
    · have hne : (a 0).toNat ≠ (b 0).toNat := fun h => h0 (BitVec.eq_of_toNat_eq h)
      simp only [memcmp, ne_eq, h0, not_false_eq_true, if_true]
      constructor
      · intro h
        omega
      · intro h
        exact (h0 (h 0 (by omega))).elim

theorem check_verifyByteSum : acpiCheckSdtHeader (verifyByteSum m) m ptr signature =
    some (if Qualifies m signature ptr then 0 else 1) := by
  simp only [acpiCheckSdtHeader, memcmp_eq_zero_iff, verifyByteSum, Option.map_some]
  by_cases hsig : ∀ k < 4, bytesAt m ptr k = signature k
  · rw [if_pos hsig]
    by_cases hsum : byteSum m ptr (sdtLength m ptr).toNat % 256 = 0
    · have hq : Qualifies m signature ptr := ⟨hsig, hsum⟩
      rw [if_pos hsum, if_pos rfl, if_pos hq]
    · have hq : ¬ Qualifies m signature ptr := fun h => hsum h.2
      rw [if_neg hsum, if_neg one_ne_zero, if_neg hq]
  · have hq : ¬ Qualifies m signature ptr := fun h => hsig h.1
    rw [if_neg hsig, if_neg hq]

theorem toNat_index (h : k < (s.entryCount m).toNat) : (BitVec.ofNat 64 k).toNat = k := by
  rw [BitVec.toNat_ofNat]
  have := (s.entryCount m).isLt
  omega

/-- The check of the `k`-th table sends the search on to the next. -/
def Passed (verify : Word → Option ℤ) (m : Bytes) (s : Acpi) (signature : ℕ → BitVec 8) (k : ℕ) :
    Prop :=
  ∃ r, r ≠ 0 ∧ acpiCheckSdtHeader verify m (s.table m k) signature = some r

theorem lt_entryCount (hk : k < (s.entryCount m).toNat) : BitVec.ofNat 64 k < s.entryCount m := by
  rw [BitVec.lt_def, toNat_index hk]
  exact hk

theorem round_hit (hk : k < (s.entryCount m).toNat)
    (hc : acpiCheckSdtHeader verify m (s.table m k) signature = some 0) :
    findSdtTableRound la57 verify m s signature (BitVec.ofNat 64 k) =
      .leave (physToHigherHalfData la57 (s.table m k)) := by
  rw [table] at hc
  simp only [findSdtTableRound, if_pos (lt_entryCount hk), hc, table]

theorem round_miss (hk : k < (s.entryCount m).toNat) (hp : Passed verify m s signature k) :
    findSdtTableRound la57 verify m s signature (BitVec.ofNat 64 k) =
      .goOn (BitVec.ofNat 64 (k + 1)) := by
  obtain ⟨r, hr, hc⟩ := hp
  rw [table] at hc
  simp only [findSdtTableRound, if_pos (lt_entryCount hk), hc, BitVec.ofNat_add]

/-- The first table that the check accepts ends the search. -/
theorem find_first {fuel : ℕ} (hfuel : n < fuel) (hn : n < (s.entryCount m).toNat)
    (hc : acpiCheckSdtHeader verify m (s.table m n) signature = some 0)
    (hpassed : ∀ j < n, Passed verify m s signature j) :
    acpiFindSdtTable la57 verify m s signature fuel =
      some (physToHigherHalfData la57 (s.table m n)) :=
  iterate_of_path (f := BitVec.ofNat 64) (fun k hk => round_miss (by omega) (hpassed k hk))
    (round_hit hn hc) hfuel

theorem find_none (h : ∀ j < (s.entryCount m).toNat, Passed verify m s signature j) :
    Returns (findSdtTableRound la57 verify m s signature) 0#64 0#64 := by
  have hpath : Visits (findSdtTableRound la57 verify m s signature) (BitVec.ofNat 64 0)
      (BitVec.ofNat 64 (s.entryCount m).toNat) :=
    visits_of_path fun k hk => round_miss hk (h k hk)
  have hend : findSdtTableRound la57 verify m s signature
      (BitVec.ofNat 64 (s.entryCount m).toNat) = .leave 0#64 := by
    apply if_neg
    rw [BitVec.ofNat_toNat, BitVec.setWidth_eq]
    exact BitVec.lt_irrefl _
  exact hpath.returns (returns_of_leave hend)

theorem lt_toNat_entryCount (hn : n ≤ (s.entryCount m).toNat)
    (hlt : BitVec.ofNat 64 n < s.entryCount m) : n < (s.entryCount m).toNat := by
  have hbound := (s.entryCount m).isLt
  rw [BitVec.lt_def, BitVec.toNat_ofNat, Nat.mod_eq_of_lt (by omega)] at hlt
  exact hlt

/-- The search goes from one table to the next. -/
theorem visits_find (h : Visits (findSdtTableRound la57 verify m s signature) 0#64 i) :
    ∃ n ≤ (s.entryCount m).toNat, (∀ j < n, Passed verify m s signature j) ∧
      i = BitVec.ofNat 64 n := by
  apply h.invariant (P := fun i => ∃ n ≤ (s.entryCount m).toNat,
    (∀ j < n, Passed verify m s signature j) ∧ i = BitVec.ofNat 64 n)
  · exact ⟨0, Nat.zero_le _, fun j hj => absurd hj (Nat.not_lt_zero j), rfl⟩
  · rintro t u ⟨n, hle, hpassed, rfl⟩ hu
    simp only [findSdtTableRound] at hu
    split at hu
    · rename_i hlt
      split at hu
      · cases hu
      · cases hu
      · rename_i r hr hc
        cases hu
        refine ⟨n + 1, lt_toNat_entryCount hle hlt, fun j hj => ?_, by rw [BitVec.ofNat_add]⟩
        rcases Nat.lt_succ_iff_lt_or_eq.mp hj with hj | rfl
        · exact hpassed j hj
        · exact ⟨r, hr, hc⟩
    · cases hu

/-- A search that ends elsewhere than with NULL has come to a table that the check accepts. -/
theorem find_some (h : Returns (findSdtTableRound la57 verify m s signature) 0#64 r)
    (hr : r ≠ 0#64) : ∃ n < (s.entryCount m).toNat, (∀ j < n, Passed verify m s signature j) ∧
      acpiCheckSdtHeader verify m (s.table m n) signature = some 0 ∧
      r = physToHigherHalfData la57 (s.table m n) := by
  obtain ⟨i, hi, hleave⟩ := h.exists_visits
  obtain ⟨n, hle, hpassed, rfl⟩ := visits_find hi
  simp only [findSdtTableRound] at hleave
  split at hleave
  · rename_i hlt
    split at hleave
    · cases hleave
    · rename_i hc
      cases hleave
      exact ⟨n, lt_toNat_entryCount hle hlt, hpassed, hc, rfl⟩
    · cases hleave
  · cases hleave
    exact (hr rfl).elim

theorem check_verifyByteSum_of (hq : Qualifies m signature (s.table m k)) :
    acpiCheckSdtHeader (verifyByteSum m) m (s.table m k) signature = some 0 := by
  rw [check_verifyByteSum, if_pos hq]

theorem passed_verifyByteSum (hq : ¬ Qualifies m signature (s.table m k)) :
    Passed (verifyByteSum m) m s signature k :=
  ⟨1, one_ne_zero, by rw [check_verifyByteSum, if_neg hq]⟩

/-- The search over `k` tables ends with the first one that qualifies, or with NULL if and only
if there is none. -/
def LookupExact (la57 : Bool) (m : Bytes) (s : Acpi) (signature : ℕ → BitVec 8) (k : ℕ) : Prop :=
  ∃ r, (∃ fuel, acpiFindSdtTable la57 (verifyByteSum m) m s signature fuel = some r) ∧
    (∀ i < k, Qualifies m signature (s.table m i) →
      (∀ j < i, ¬ Qualifies m signature (s.table m j)) →
      r = physToHigherHalfData la57 (s.table m i)) ∧
    (r = 0#64 ↔ ∀ i < k, ¬ Qualifies m signature (s.table m i))

/-- The address of a table is never NULL in the higher half. -/
theorem table_ne_null (la57 : Bool) (m : Bytes) (s : Acpi) (i : ℕ) :
    physToHigherHalfData la57 (s.table m i) ≠ 0#64 := by
  apply physToHigherHalfData_ne_zero
  rw [table, rsdtEntry, BitVec.toNat_setWidth]
  omega

/-- The search is exact up to the number of entries that it looks at. -/
theorem lookupExact_iff_found (hk : (s.entryCount m).toNat ≤ k) :
    LookupExact la57 m s signature k ↔
      (∃ i < (s.entryCount m).toNat, Qualifies m signature (s.table m i)) ∨
        ∀ i < k, ¬ Qualifies m signature (s.table m i) := by
  rcases exists_least_lt (fun i => Qualifies m signature (s.table m i)) (s.entryCount m).toNat with
    hnone | ⟨i, hi, hq, hleast⟩
  · have hfind : Returns (findSdtTableRound la57 (verifyByteSum m) m s signature) 0#64 0#64 :=
      find_none fun j hj => passed_verifyByteSum (hnone j hj)
    constructor
    · rintro ⟨r, hr, _, hnull⟩
      exact .inr (hnull.mp (Returns.unique hr hfind))
    · rintro (⟨i, hi, hq⟩ | hall)
      · exact (hnone i hi hq).elim
      · exact ⟨0#64, hfind, fun i hi hq => (hall i hi hq).elim, by simpa using hall⟩
  · have hfind : Returns (findSdtTableRound la57 (verifyByteSum m) m s signature) 0#64
        (physToHigherHalfData la57 (s.table m i)) :=
      ⟨i + 1, find_first (Nat.lt_succ_self i) hi (check_verifyByteSum_of hq)
        fun j hj => passed_verifyByteSum (hleast j hj)⟩
    refine iff_of_true ⟨_, hfind, fun j hj hqj hleastj => ?_, ?_⟩ (.inl ⟨i, hi, hq⟩)
    · rcases Nat.lt_trichotomy i j with hij | rfl | hji
      · exact (hleastj i hij hq).elim
      · rfl
      · exact (hleast j hji hqj).elim
    · exact iff_of_false (table_ne_null la57 m s i) fun hall => hall i (by omega) hq

/-- With a revision of 2 or above, the search looks at half of the entries. -/
theorem toNat_entryCount_of (h : s.Initialized m) (hlen : (sdtLength m s.rsdt).toNat = 36 + 4 * k) :
    (s.entryCount m).toNat = if 2#8 ≤ rsdpRevision m s.rsdp then k / 2 else k := by
  rw [toNat_entryCount (by omega), hlen, h]
  by_cases hrev : 2#8 ≤ rsdpRevision m s.rsdp
  · simp only [hrev, decide_true, if_true]
    omega
  · simp only [hrev, decide_false, Bool.false_eq_true, if_false]
    omega

/-- With a revision of 2 or above, only the first half of the tables is searched. -/
theorem lookupExact_iff (la57 : Bool) (m : Bytes) (s : Acpi) (h : s.Initialized m)
    (signature : ℕ → BitVec 8) (k : ℕ) (hlen : (sdtLength m s.rsdt).toNat = 36 + 4 * k) :
    LookupExact la57 m s signature k ↔
      rsdpRevision m s.rsdp < 2#8 ∨ (∃ i < k / 2, Qualifies m signature (s.table m i)) ∨
        ∀ i < k, ¬ Qualifies m signature (s.table m i) := by
  have hcount := toNat_entryCount_of h hlen
  by_cases hrev : 2#8 ≤ rsdpRevision m s.rsdp
  · rw [if_pos hrev] at hcount
    rw [lookupExact_iff_found (by omega), hcount, or_iff_right (BitVec.not_lt.mpr hrev)]
  · rw [if_neg hrev] at hcount
    rw [lookupExact_iff_found (by omega), hcount]
    have hlt := BitVec.not_le.mp hrev
    refine iff_of_true ?_ (.inl hlt)
    by_cases hex : ∃ i < k, Qualifies m signature (s.table m i)
    · exact .inl hex
    · exact .inr fun i hi hq => hex ⟨i, hi, hq⟩

/-- An RSDT with one table, the MADT right behind it, and the RSDP at 0x1050. The direct map shows
the same bytes as the physical addresses. -/
def oneTable (revision : BitVec 8) : Bytes := fun a =>
  bytesOf 0x1000#64
    ([0x52#8, 0x53#8, 0x44#8, 0x54#8, 40#8, 0#8, 0#8, 0#8, 0#8, 0x63#8] ++
      List.replicate 26 0#8 ++ [0x28#8, 0x10#8, 0#8, 0#8] ++
      [0x41#8, 0x50#8, 0x49#8, 0x43#8, 36#8, 0#8, 0#8, 0#8, 0#8, 0xBF#8] ++ List.replicate 26 0#8 ++
      List.replicate 4 0#8 ++ List.replicate 8 0#8 ++ [0#8 - revision - 0x10#8] ++
      List.replicate 6 0#8 ++ [revision, 0#8, 0x10#8, 0#8, 0#8])
    (a &&& 0xFFFFFF#64)

/-- What `acpi_init` makes of it. -/
def oneTableAcpi (revision : BitVec 8) : Acpi :=
  ⟨0x1050#64, decide (2#8 ≤ revision), physToHigherHalfData false 0x1000#64⟩

example : acpiInit false (verifyByteSum (oneTable 2#8)) (oneTable 2#8) ⟨0#64, false, 0#64⟩ 0x1050#64 =
    some (oneTableAcpi 2#8) := by rfl

theorem lookupExact_revision_zero :
    LookupExact false (oneTable 0#8) (oneTableAcpi 0#8) (cString ['A', 'P', 'I', 'C']) 1 :=
  (lookupExact_iff false (oneTable 0#8) (oneTableAcpi 0#8) (by unfold Initialized; decide)
    (cString ['A', 'P', 'I', 'C']) 1 (by decide)).mpr (.inl (by decide))

/-- With a revision of 2, the only table is not found. -/
theorem lookup_inexact : ¬ ∀ (la57 : Bool) (m : Bytes) (s : Acpi), s.Initialized m →
    ∀ (signature : ℕ → BitVec 8) (k : ℕ), (sdtLength m s.rsdt).toNat = 36 + 4 * k →
      LookupExact la57 m s signature k := by
  intro h
  have hexact := h false (oneTable 2#8) (oneTableAcpi 2#8) (by unfold Initialized; decide)
    (cString ['A', 'P', 'I', 'C']) 1 (by decide)
  exact absurd ((lookupExact_iff_found (by decide)).mp hexact) (by decide)

end Acpi

end KnutOS
