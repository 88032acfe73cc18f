import KnutOS.Firmware.Acpi

/-! `acpi_verify_sdt_header_checksum` counts in a `uint8_t`: it ends for tables of up to 255 bytes. -/
namespace KnutOS

open Foundation

/-- The sum of the first `n` bytes. -/
def byteSum (m : Bytes) (ptr : Word) (n : ℕ) : ℕ := ∑ k ∈ Finset.range n, (bytesAt m ptr k).toNat

namespace Sdt

variable {m : Bytes} {ptr : Word} {length : BitVec 32} {k : ℕ} {r : ℤ}

/-- The loop after `k` rounds. -/
def atRound (m : Bytes) (ptr : Word) (k : ℕ) : BitVec 8 × BitVec 8 :=
  (BitVec.ofNat 8 k, BitVec.ofNat 8 (byteSum m ptr k))

theorem toNat_counter (hk : k < 256) : ((BitVec.ofNat 8 k).setWidth 32).toNat = k := by
  rw [BitVec.toNat_setWidth, BitVec.toNat_ofNat]
  omega

theorem round_of_lt (hk : k < 256) (hlt : k < length.toNat) :
    checksumRound m ptr length (atRound m ptr k) = .goOn (atRound m ptr (k + 1)) := by
  have htest : (BitVec.ofNat 8 k).setWidth 32 < length := by
    rw [BitVec.lt_def, toNat_counter hk]
    exact hlt
  have hoffset : (BitVec.ofNat 8 k).setWidth 64 = BitVec.ofNat 64 k := by
    apply BitVec.eq_of_toNat_eq
    rw [BitVec.toNat_setWidth, BitVec.toNat_ofNat, BitVec.toNat_ofNat]
    omega
  simp only [checksumRound, atRound, if_pos htest, hoffset, byteSum, Finset.sum_range_succ,
    BitVec.ofNat_add, bytesAt, BitVec.ofNat_toNat, BitVec.setWidth_eq]

theorem round_at_length (hlen : length.toNat < 256) :
    checksumRound m ptr length (atRound m ptr length.toNat) =
      .leave (if byteSum m ptr length.toNat % 256 = 0 then 0 else 1) := by
  have htest : ¬ (BitVec.ofNat 8 length.toNat).setWidth 32 < length := by
    rw [BitVec.lt_def, toNat_counter hlen]
    exact lt_irrefl _
  have hzero : BitVec.ofNat 8 (byteSum m ptr length.toNat) = 0#8 ↔
      byteSum m ptr length.toNat % 256 = 0 := by
    constructor
    · intro h
      simpa using congrArg BitVec.toNat h
    · intro h
      apply BitVec.eq_of_toNat_eq
      simpa using h
  simp only [checksumRound, atRound, if_neg htest, hzero]

/-- 256 rounds are enough for a table of up to 255 bytes, which is summed up to its end. -/
theorem checksum_of_fuel {fuel : ℕ} (hlen : length.toNat < 256) (hfuel : 256 ≤ fuel) :
    iterate (checksumRound m ptr length) fuel (0#8, 0#8) =
      some (if byteSum m ptr length.toNat % 256 = 0 then 0 else 1) :=
  iterate_of_path (f := atRound m ptr) (fun k hk => round_of_lt (by omega) hk)
    (round_at_length hlen) (by omega)

theorem checksum_returns (hlen : length.toNat < 256) :
    Returns (checksumRound m ptr length) (0#8, 0#8)
      (if byteSum m ptr length.toNat % 256 = 0 then 0 else 1) := ⟨256, checksum_of_fuel hlen le_rfl⟩

/-- The counter never reaches a length above 255. -/
theorem checksum_hangs (hlen : 256 ≤ length.toNat) :
    ¬ Returns (checksumRound m ptr length) (0#8, 0#8) r := by
  apply not_returns_of_invariant (P := fun _ => True) trivial
  rintro ⟨i, checksum⟩ _
  have htest : i.setWidth 32 < length := by
    rw [BitVec.lt_def, BitVec.toNat_setWidth]
    have := i.isLt
    omega
  exact ⟨_, if_pos htest, trivial⟩

/-- The check ends, and with 0 exactly when the bytes of the table sum up to 0 modulo 256. -/
def ChecksumComplete (m : Bytes) (sdtHeader : Word) : Prop :=
  ∃ r, (∃ fuel, acpiVerifySdtHeaderChecksum m fuel sdtHeader = some r) ∧
    (r = 0 ↔ byteSum m sdtHeader (sdtLength m sdtHeader).toNat % 256 = 0)

theorem checksumComplete_iff (m : Bytes) (sdtHeader : Word) :
    ChecksumComplete m sdtHeader ↔ (sdtLength m sdtHeader).toNat < 256 := by
  constructor
  · rintro ⟨r, hr, _⟩
    by_contra hlen
    exact checksum_hangs (Nat.le_of_not_lt hlen) hr
  · intro hlen
    refine ⟨_, checksum_returns hlen, ?_⟩
    split <;> simp_all

/-- A table whose length field is 256. -/
theorem checksum_incomplete : ¬ ∀ (m : Bytes) (sdtHeader : Word), ChecksumComplete m sdtHeader := by
  intro h
  obtain ⟨r, hr, _⟩ := h (bytesOf 0x1000#64 [0x41#8, 0x50#8, 0x49#8, 0x43#8, 0#8, 1#8]) 0x1000#64
  exact checksum_hangs (by decide) hr

end Sdt

end KnutOS
