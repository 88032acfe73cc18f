import KnutOS.Libk.KprintfPieces
import KnutOS.Libk.Stdio
import KnutOS.Memory.SlabSafety

/-! The vendor of the CPU (`devices/cpu/cpu.h`): what CPUID answers, as a string of the kernel. -/
namespace KnutOS

open Foundation Strings

/-- `cpuid_registers_t`. -/
structure CpuidRegisters where
  leaf : BitVec 32
  subleaf : BitVec 32
  eax : BitVec 32
  ebx : BitVec 32
  ecx : BitVec 32
  edx : BitVec 32

/-- What the instruction leaves in the registers. -/
structure CpuidAnswer where
  eax : BitVec 32
  ebx : BitVec 32
  ecx : BitVec 32
  edx : BitVec 32

/-- `CPUID_GET_VENDOR_STRING`. -/
def cpuidGetVendorString : BitVec 32 := 0#32

/-- `cpuid` on a processor that answers by leaf and subleaf. The first question is asked with
whatever is in `ecx`. -/
def cpuid (processor : BitVec 32 → BitVec 32 → CpuidAnswer) (ecx : BitVec 32)
    (registers : CpuidRegisters) : BitVec 32 × CpuidRegisters :=
  let cpuidMax := (processor (registers.leaf &&& 0x80000000#32) ecx).eax
  if cpuidMax < registers.leaf then (0#32, registers)
  else
    let answer := processor registers.leaf registers.subleaf
    (1#32, { registers with
      eax := answer.eax
      ebx := answer.ebx
      ecx := answer.ecx
      edx := answer.edx })

/-- A `uint32_t` in memory. -/
def bytes32 (v : BitVec 32) : List Byte :=
  [v.extractLsb' 0 8, v.extractLsb' 8 8, v.extractLsb' 16 8, v.extractLsb' 24 8]

def CpuidRegisters.bytes (r : CpuidRegisters) : List Byte :=
  bytes32 r.leaf ++ bytes32 r.subleaf ++ bytes32 r.eax ++
    (bytes32 r.ebx ++ (bytes32 r.ecx ++ bytes32 r.edx))

/-- `cpu_get_vendor_string`, with `regs` on the stack: the string, and the slabs and the memory
after it. -/
def cpuGetVendorString (processor : BitVec 32 → BitVec 32 → CpuidAnswer) (ecx : BitVec 32)
    (regs : Word) (slabs : Slabs) (m : Bytes) : Except Fault (Word × Slabs × Bytes) := do
  let (_, registers) := cpuid processor ecx ⟨cpuidGetVendorString, 0#32, 0#32, 0#32, 0#32, 0#32⟩
  let m := storeBytes m regs registers.bytes
  let (vendorString, slabs) := slabAlloc slabs 16#64
  let (m, _) ← snprintf (stringAt m) vendorString 13#64
    (literal "%.4s%.4s%.4s".toList (by decide)) [regs + 12#64, regs + 20#64, regs + 16#64] m
  .ok (vendorString, slabs, m)

namespace Cpu

open Kprintf Stdio

variable {m : Bytes} {a : Word} {bs : List Byte} {n k : ℕ}

theorem spelled_storeBytes (m : Bytes) (a : Word) (h : bs.length ≤ 2 ^ 64) :
    Spelled (storeBytes m a bs) a bs := spelled_iff.mpr fun _ hi => storeBytes_at m a hi h

/-- Reading further than asked for changes nothing. -/
theorem take_charsAt (h : k ≤ n) : (charsAt m n a).take k = charsAt m k a := by
  induction k generalizing a n with
  | zero => rfl
  | succ k ih =>
    obtain ⟨n, rfl⟩ := Nat.exists_eq_add_of_le' h
    by_cases hz : m a = 0#8
    · simp [charsAt, hz]
    · have htail := ih (a := a + 1#64) (n := n + k) (by omega)
      rw [show n + (k + 1) = n + k + 1 by omega, charsAt, charsAt, if_neg hz, if_neg hz,
        List.take_succ_cons, htail]

theorem charsAt_spelled (h : Spelled m a bs) : charsAt m bs.length a = shown bs := by
  induction bs generalizing a with
  | nil => rfl
  | cons b bs ih =>
    obtain ⟨hb, htail⟩ := h
    rw [List.length_cons, charsAt, hb, ih htail]
    by_cases hz : b = 0#8
    · simp [shown, hz]
    · simp [shown, hz]

/-- Four bytes without a terminator behind them are enough for `%.4s`. -/
theorem take_stringAt {v : BitVec 32} (h : Spelled m a (bytes32 v)) :
    (stringAt m a).bytes.take 4 = shown (bytes32 v) :=
  (take_charsAt (Nat.le_of_ble_eq_true rfl)).trans (charsAt_spelled h)

/-- The vendor that the processor reports, up to zero bytes. -/
def vendorText (answer : CpuidAnswer) : List Byte :=
  shown (bytes32 answer.ebx) ++ (shown (bytes32 answer.edx) ++ shown (bytes32 answer.ecx))

theorem length_vendorText_le (answer : CpuidAnswer) : (vendorText answer).length ≤ 12 := by
  have hshown : ∀ v : BitVec 32, (shown (bytes32 v)).length ≤ 4 := fun v => length_shown_le _
  have hb := hshown answer.ebx
  have hd := hshown answer.edx
  have hc := hshown answer.ecx
  rw [vendorText, List.length_append, List.length_append]
  omega

/-- Wherever the registers are, each is found at its own offset. -/
theorem spelled_registers {r : CpuidRegisters} (h : Spelled m a r.bytes) :
    Spelled m (a + 12#64) (bytes32 r.ebx) ∧ Spelled m (a + 16#64) (bytes32 r.ecx) ∧
      Spelled m (a + 20#64) (bytes32 r.edx) := by
  have hbehind := (Spelled.append.mp h).2
  have hlast := Spelled.append.mp hbehind
  have hlengths : (bytes32 r.leaf ++ bytes32 r.subleaf ++ bytes32 r.eax).length = 12 ∧
      (bytes32 r.ebx).length = 4 ∧ (bytes32 r.ecx).length = 4 := ⟨rfl, rfl, rfl⟩
  obtain ⟨h12, h4, h4'⟩ := hlengths
  rw [h12, h4] at hlast
  obtain ⟨hecx, hedx⟩ := Spelled.append.mp hlast.2
  rw [h4'] at hedx
  simp only [add_ofNat_add_ofNat] at hecx hedx
  exact ⟨hlast.1, hecx, hedx⟩

theorem formatText_vendor (strings : Word → CString) (v v' v'' : Word) :
    formatText strings (literal "%.4s%.4s%.4s".toList (by decide)) [v, v', v''] =
      .ok ((strings v).bytes.take 4 ++
        ((strings v').bytes.take 4 ++ (strings v'').bytes.take 4)) :=
  ((writes_fourChars v).append ((writes_fourChars v').append (writes_fourChars v''))).formatText rfl

/-- What `cpuid` leaves for the vendor: leaf 0 is always there. -/
def vendorRegisters (answer : CpuidAnswer) : CpuidRegisters :=
  ⟨0#32, 0#32, answer.eax, answer.ebx, answer.ecx, answer.edx⟩

theorem cpuid_vendor (processor : BitVec 32 → BitVec 32 → CpuidAnswer) (ecx : BitVec 32) :
    cpuid processor ecx ⟨cpuidGetVendorString, 0#32, 0#32, 0#32, 0#32, 0#32⟩ =
      (1#32, vendorRegisters (processor 0#32 0#32)) := by
  have hleaf : ¬ (processor (cpuidGetVendorString &&& 0x80000000#32) ecx).eax < cpuidGetVendorString :=
    BitVec.not_lt_zero
  simp only [cpuid, if_neg hleaf]
  rfl

/-- The vendor is a string in an object of its own, and nothing is written but this object and the
registers on the stack. Without an object there is no string, and nothing is written for it. -/
theorem vendorString_spelled (processor : BitVec 32 → BitVec 32 → CpuidAnswer) (ecx : BitVec 32)
    (regs : Word) (slabs : Slabs) (m : Bytes) (hapart : Apart regs 24 (slabAlloc slabs 16#64).1 13) :
    ∃ m', cpuGetVendorString processor ecx regs slabs m =
        .ok ((slabAlloc slabs 16#64).1, (slabAlloc slabs 16#64).2, m') ∧
      Spelled m' regs (vendorRegisters (processor 0#32 0#32)).bytes ∧
      ((slabAlloc slabs 16#64).1 ≠ 0#64 →
        Spelled m' (slabAlloc slabs 16#64).1 (vendorText (processor 0#32 0#32) ++ [0#8])) ∧
      ∀ x : Word, 24 ≤ (x - regs).toNat →
        ((slabAlloc slabs 16#64).1 ≠ 0#64 → 13 ≤ (x - (slabAlloc slabs 16#64).1).toNat) →
        m' x = m x := by
  generalize hslab : slabAlloc slabs 16#64 = slab at hapart ⊢
  obtain ⟨vendorString, slabs'⟩ := slab
  generalize hanswer : processor 0#32 0#32 = answer
  have hlen : (vendorRegisters answer).bytes.length = 24 := rfl
  have hspelled : Spelled (storeBytes m regs (vendorRegisters answer).bytes) regs _ :=
    spelled_storeBytes m regs (by rw [hlen]; decide)
  obtain ⟨hebx, hecx, hedx⟩ := spelled_registers hspelled
  have ht : formatText (stringAt (storeBytes m regs (vendorRegisters answer).bytes))
      (literal "%.4s%.4s%.4s".toList (by decide)) [regs + 12#64, regs + 20#64, regs + 16#64] =
        .ok (vendorText answer) := by
    rw [formatText_vendor, take_stringAt hebx, take_stringAt hedx, take_stringAt hecx]
    rfl
  have hcall : cpuGetVendorString processor ecx regs slabs m = .ok (vendorString, slabs',
      (Kprintf.finish outBuffer vendorString 13#64 (storeBytes m regs (vendorRegisters answer).bytes)
        (vendorText answer)).1) := by
    simp only [cpuGetVendorString, cpuid_vendor, hanswer, hslab, snprintf, internalVsnprintf_eq, ht]
    rfl
  have hout : ∀ x : Word, 24 ≤ (x - regs).toNat →
      storeBytes m regs (vendorRegisters answer).bytes x = m x := fun x hx =>
    storeBytes_of_out (by rwa [hlen])
  refine ⟨_, hcall, ?_⟩
  by_cases hnull : vendorString = 0#64
  · rw [hnull, finish_null]
    exact ⟨hspelled, fun hne => (hne rfl).elim, fun x hx _ => hout x hx⟩
  · have htrunc := finish_truncates vendorString 13#64
      (storeBytes m regs (vendorRegisters answer).bytes) (vendorText answer) hnull
    have hshort := length_vendorText_le answer
    refine ⟨?_, fun _ => spelled_of_truncates htrunc (Nat.lt_succ_of_le hshort), ?_⟩
    · apply spelled_congr hspelled
      intro i hi
      have hfar := hapart.far (show i < 24 by rwa [hlen] at hi)
      exact htrunc.outside _ hfar
    · intro x hx hx'
      exact (htrunc.outside x (hx' hnull)).trans (hout x hx)

/-- The answer of an Intel processor to leaf 0. -/
def genuineIntel : CpuidAnswer := ⟨22#32, 0x756E6547#32, 0x6C65746E#32, 0x49656E69#32⟩

/-- Right after `slab_init`, with the registers on a stack at 0x80000. -/
theorem vendorString_genuineIntel :
    ∃ m' slabs', cpuGetVendorString (fun _ _ => genuineIntel) 0#32 0x80000#64
        (Slab.initial Slab.lowPages).slabs (fun _ => 0#8) = .ok (0x2800#64, slabs', m') ∧
      Spelled m' 0x2800#64 (utf8Text "GenuineIntel".toList ++ [0#8]) := by
  have hobject := Slab.slabAlloc_initial Slab.lowPages_pages (show 3 < 11 by decide)
  rw [show BitVec.ofNat 64 (Slab.objectSize 3) = 16#64 from rfl,
    show Slab.objectAddr Slab.lowPages 3 0 = 0x2800#64 by decide] at hobject
  have hfst := congrArg Prod.fst hobject
  have happly := vendorString_spelled (fun _ _ => genuineIntel) 0#32 0x80000#64
    (Slab.initial Slab.lowPages).slabs (fun _ => 0#8) (by rw [hfst, Apart]; decide)
  obtain ⟨m', hcall, _, hspelled, _⟩ := happly
  rw [hfst] at hcall hspelled
  exact ⟨m', _, hcall, hspelled (by decide)⟩

end Cpu

end KnutOS
