import KnutOS.Firmware.MadtBounds
import KnutOS.Firmware.RsdtSearch

/-! When `madt_init` gets to the MADT: the search through the RSDT with the checksums that it really
makes. -/
namespace KnutOS

open Foundation

namespace Madt

/-- What `madt_init` looks for. -/
def apic : ℕ → BitVec 8 := cString ['A', 'P', 'I', 'C']

/-- The RSDT has `n` entries. The MADT is the `i`-th of them, the first table with the signature
`APIC` whose bytes sum up to 0. It has its fixed part, and the direct map shows its bytes. -/
structure IsMadt (la57 : Bool) (m : Bytes) (s : Acpi) (n i : ℕ) : Prop where
  initialized : s.Initialized m
  rsdtLength : (sdtLength m s.rsdt).toNat = 36 + 4 * n
  entry : i < n
  qualifies : Acpi.Qualifies m apic (s.table m i)
  first : ∀ j < i, ¬ Acpi.Qualifies m apic (s.table m j)
  fixedPart : 44 ≤ (sdtLength m (s.table m i)).toNat
  directMap : ∀ o < (sdtLength m (s.table m i)).toNat,
    bytesAt m (physToHigherHalfData la57 (s.table m i)) o = bytesAt m (s.table m i) o

/-- A checksum of the table ends, if it has the signature. -/
def Short (m : Bytes) (signature : ℕ → BitVec 8) (ptr : Word) : Prop :=
  (∀ k < 4, bytesAt m ptr k = signature k) → (sdtLength m ptr).toNat < 256

/-- The `i`-th of `n` entries is one that the search looks at, and it has no table to sum up on its
way that is too long for the counter. -/
structure Findable (m : Bytes) (s : Acpi) (n i : ℕ) : Prop where
  searched : rsdpRevision m s.rsdp < 2#8 ∨ i < n / 2
  short : ∀ j ≤ i, Short m apic (s.table m j)

variable {la57 : Bool} {m : Bytes} {s : Acpi} {signature : ℕ → BitVec 8} {ptr r : Word}
  {fuel n i : ℕ} {c : ℤ}

/-- With enough rounds, the check of a short table is the check of its byte sum. -/
theorem check_of_short (hfuel : 256 ≤ fuel) (h : Short m signature ptr) :
    acpiCheckSdtHeader (acpiVerifySdtHeaderChecksum m fuel) m ptr signature =
      acpiCheckSdtHeader (Acpi.verifyByteSum m) m ptr signature := by
  rw [acpiCheckSdtHeader, acpiCheckSdtHeader]
  by_cases hsig : memcmp (bytesAt m ptr) signature 4 = 0
  · have hlen := h (Acpi.memcmp_eq_zero_iff.mp hsig)
    rw [if_pos hsig, if_pos hsig, acpiVerifySdtHeaderChecksum, Sdt.checksum_of_fuel hlen hfuel,
      Acpi.verifyByteSum]
  · rw [if_neg hsig, if_neg hsig]

theorem check_mono {fuel' : ℕ} (hle : fuel ≤ fuel')
    (h : acpiCheckSdtHeader (acpiVerifySdtHeaderChecksum m fuel) m ptr signature = some c) :
    acpiCheckSdtHeader (acpiVerifySdtHeaderChecksum m fuel') m ptr signature = some c := by
  rw [acpiCheckSdtHeader] at h ⊢
  split at h
  · rw [if_pos ‹_›]
    obtain ⟨v, hv, hc⟩ := Option.map_eq_some_iff.mp h
    exact Option.map_eq_some_iff.mpr ⟨v, iterate_mono hv hle, hc⟩
  · rw [if_neg ‹_›]
    exact h

/-- Only the check of a short table ends. -/
theorem short_of_check
    (h : acpiCheckSdtHeader (acpiVerifySdtHeaderChecksum m fuel) m ptr signature = some c) :
    Short m signature ptr := by
  intro hsig
  rw [acpiCheckSdtHeader, if_pos (Acpi.memcmp_eq_zero_iff.mpr hsig)] at h
  obtain ⟨v, hv, _⟩ := Option.map_eq_some_iff.mp h
  by_contra hlen
  exact Sdt.checksum_hangs (Nat.le_of_not_lt hlen) ⟨fuel, hv⟩

theorem check_eq (h : acpiCheckSdtHeader (acpiVerifySdtHeaderChecksum m fuel) m ptr signature = some c) :
    c = if Acpi.Qualifies m signature ptr then 0 else 1 := by
  have hmax := check_mono (Nat.le_max_left fuel 256) h
  rw [check_of_short (Nat.le_max_right fuel 256) (short_of_check h), Acpi.check_verifyByteSum] at hmax
  exact (Option.some.inj hmax).symm

theorem lt_entryCount_iff (h : IsMadt la57 m s n i) : i < (s.entryCount m).toNat ↔
    rsdpRevision m s.rsdp < 2#8 ∨ i < n / 2 := by
  have hentry := h.entry
  rw [Acpi.toNat_entryCount_of h.initialized h.rsdtLength]
  by_cases hrev : 2#8 ≤ rsdpRevision m s.rsdp
  · rw [if_pos hrev, or_iff_right (BitVec.not_lt.mpr hrev)]
  · rw [if_neg hrev, or_iff_left_of_imp fun _ => BitVec.not_le.mp hrev]
    exact iff_of_true hentry (BitVec.not_le.mp hrev)

/-- The search ends with the MADT, if it can get there. -/
theorem find_madt (h : IsMadt la57 m s n i) (hf : Findable m s n i) (hfuel : 256 + i ≤ fuel) :
    acpiFindSdtTable la57 (acpiVerifySdtHeaderChecksum m fuel) m s apic fuel =
      some (physToHigherHalfData la57 (s.table m i)) := by
  have hcheck : ∀ j ≤ i, acpiCheckSdtHeader (acpiVerifySdtHeaderChecksum m fuel) m
      (s.table m j) apic = some (if Acpi.Qualifies m apic (s.table m j) then 0 else 1) := by
    intro j hj
    rw [check_of_short (by omega) (hf.short j hj), Acpi.check_verifyByteSum]
  refine Acpi.find_first (by omega) ((lt_entryCount_iff h).mpr hf.searched) ?_ ?_
  · rw [hcheck i le_rfl, if_pos h.qualifies]
  · intro j hj
    exact ⟨1, one_ne_zero, by rw [hcheck j hj.le, if_neg (h.first j hj)]⟩

/-- It ends with no other table, and not at all if it cannot get there. -/
theorem findable_of_find (h : IsMadt la57 m s n i) (hr : r ≠ 0#64)
    (hfind : acpiFindSdtTable la57 (acpiVerifySdtHeaderChecksum m fuel) m s apic fuel = some r) :
    Findable m s n i ∧ r = physToHigherHalfData la57 (s.table m i) := by
  obtain ⟨k, hk, hpassed, hc, rfl⟩ := Acpi.find_some ⟨fuel, hfind⟩ hr
  have hmiss : ∀ j < k, ¬ Acpi.Qualifies m apic (s.table m j) := by
    intro j hj hq
    obtain ⟨c, hc0, hcheck⟩ := hpassed j hj
    exact hc0 ((check_eq hcheck).trans (if_pos hq))
  have hhit : Acpi.Qualifies m apic (s.table m k) := by
    by_contra hq
    exact absurd ((check_eq hc).trans (if_neg hq)) (by decide)
  obtain rfl : k = i := by
    rcases Nat.lt_trichotomy k i with hlt | heq | hgt
    · exact (h.first k hlt hhit).elim
    · exact heq
    · exact (hmiss i hgt h.qualifies).elim
  refine ⟨⟨(lt_entryCount_iff h).mp hk, fun j hj => ?_⟩, rfl⟩
  rcases Nat.lt_or_eq_of_le hj with hj | rfl
  · obtain ⟨c, _, hcheck⟩ := hpassed j hj
    exact short_of_check hcheck
  · exact short_of_check hc

/-- The table as the search sees it and as the loop sees it have the same length. -/
theorem length_eq (h : IsMadt la57 m s n i) :
    length m (physToHigherHalfData la57 (s.table m i)) = length m (s.table m i) := by
  have hfixed := h.fixedPart
  exact length_congr fun o ho => h.directMap o (by omega)

/-! The calls in front of the loop. -/

section

variable {σ : Type} {A : Allocators σ} {h h' : Heap σ} {arrays : MadtArrays}

/-- If the search can get to the MADT, the loop begins with it and the four arrays. -/
theorem madtFindTable_eq (hm : IsMadt la57 h.bytes s n i) (hf : Findable h.bytes s n i)
    (halloc : madtAllocate A h = some (arrays, h')) (hfuel : 256 + i ≤ fuel) :
    madtFindTable A la57 s h fuel =
      some (physToHigherHalfData la57 (s.table h.bytes i), arrays, h') := by
  have hfind := find_madt hm hf hfuel
  rw [apic] at hfind
  rw [madtFindTable, hfind, halloc]
  simp [Acpi.table_ne_null la57 h.bytes s i]

/-- The loop begins with nothing else, and only if the search can get there. -/
theorem findable_of_madtFindTable (hm : IsMadt la57 h.bytes s n i)
    (halloc : madtAllocate A h = some (arrays, h')) {found : Word × MadtArrays × Heap σ}
    (hfound : madtFindTable A la57 s h fuel = some found) : Findable h.bytes s n i ∧
      found = (physToHigherHalfData la57 (s.table h.bytes i), arrays, h') := by
  obtain ⟨madt, hfind, hrest⟩ := Option.bind_eq_some_iff.mp hfound
  split at hrest
  · cases hrest
  · obtain ⟨hf, rfl⟩ := findable_of_find hm ‹_› hfind
    rw [halloc] at hrest
    exact ⟨hf, (Option.some.inj hrest).symm⟩

end

end Madt

end KnutOS
