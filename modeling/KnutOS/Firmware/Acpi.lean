import KnutOS.Foundation.Bytes
import KnutOS.Foundation.Loop
import KnutOS.Memory.Mem
import Mathlib.Algebra.BigOperators.Intervals

/-! The RSDP, the headers of the system description tables, and the search through the RSDT
(`firmware/acpi/acpi.c`, `firmware/acpi/tables/rsdp.c`). -/
namespace KnutOS

open Foundation

/-- `libk/string/string.c`, on the bytes at two pointers. -/
def memcmp (string1 string2 : ℕ → BitVec 8) : ℕ → ℤ
  | 0 => 0
  | n + 1 =>
    if string1 0 ≠ string2 0 then (string1 0).toNat - (string2 0).toNat
    else memcmp (fun k => string1 (k + 1)) (fun k => string2 (k + 1)) n

/-- A string literal, which ends with a zero byte. -/
def cString (s : List Char) (k : ℕ) : BitVec 8 := BitVec.ofNat 8 ((s.map Char.toNat).getD k 0)

/-- The bytes at a pointer. -/
def bytesAt (m : Bytes) (ptr : Word) (k : ℕ) : BitVec 8 := m (ptr + BitVec.ofNat 64 k)

/-- `sizeof(sdt_header_t)`. -/
def sdtHeaderSize : Word := 36#64

/-- `sdt_header->length`. -/
def sdtLength (m : Bytes) (sdtHeader : Word) : BitVec 32 := load32 m (sdtHeader + 4#64)

/-- One round of the loop over `ptr[i]`: the state is `i` and `checksum`, both of them `uint8_t`. -/
def checksumRound (m : Bytes) (ptr : Word) (length : BitVec 32) :
    BitVec 8 × BitVec 8 → Round (BitVec 8 × BitVec 8) ℤ
  | (i, checksum) =>
    if i.setWidth 32 < length then .goOn (i + 1#8, checksum + m (ptr + i.setWidth 64))
    else .leave (if checksum = 0#8 then 0 else 1)

/-- `none` is a loop that is still running after `fuel` rounds. -/
def acpiVerifySdtHeaderChecksum (m : Bytes) (fuel : ℕ) (sdtHeader : Word) : Option ℤ :=
  iterate (checksumRound m sdtHeader (sdtLength m sdtHeader)) fuel (0#8, 0#8)

/-- The parameter is `acpi_verify_sdt_header_checksum`, where `none` is a call that never returns. -/
def acpiCheckSdtHeader (verify : Word → Option ℤ) (m : Bytes) (sdtHeader : Word)
    (signature : ℕ → BitVec 8) : Option ℤ :=
  if memcmp (bytesAt m sdtHeader) signature 4 = 0 then
    (verify sdtHeader).map fun r => if r = 0 then 0 else 1
  else some 1

/-- The static variables of `rsdp.c` and `acpi.c`. -/
structure Acpi where
  rsdp : Word
  hasXsdt : Bool
  rsdt : Word

/-- `rsdp->revision`. -/
def rsdpRevision (m : Bytes) (rsdp : Word) : BitVec 8 := m (rsdp + 15#64)

/-- `rsdp->rsdt_address`. -/
def rsdpRsdtAddress (m : Bytes) (rsdp : Word) : BitVec 32 := load32 m (rsdp + 16#64)

/-- The loop reads the first 20 bytes. `none` is a halted kernel. -/
def rsdpVerifyChecksum (m : Bytes) (rsdpAddress : Word) : Option Unit :=
  match iterate (checksumRound m rsdpAddress 20#32) 21 (0#8, 0#8) with
  | some 0 => some ()
  | _ => none

def rsdpInit (m : Bytes) (s : Acpi) (rsdpAddress : Word) : Option Acpi := do
  rsdpVerifyChecksum m rsdpAddress
  let s := { s with rsdp := rsdpAddress }
  some (if 2#8 ≤ rsdpRevision m s.rsdp then { s with hasXsdt := true } else s)

/-- Up to the call of `madt_init`. The signature of the RSDT lies in the kernel's own data. -/
def acpiInit (la57 : Bool) (verify : Word → Option ℤ) (m : Bytes) (s : Acpi) (rsdpAddress : Word) :
    Option Acpi := do
  let s ← rsdpInit m s rsdpAddress
  let s := { s with rsdt := physToHigherHalfData la57 ((rsdpRsdtAddress m s.rsdp).setWidth 64) }
  if (← acpiCheckSdtHeader verify m s.rsdt (cString ['R', 'S', 'D', 'T'])) ≠ 0 then none else some s

/-- `rsdt->entries[i]`, the physical address of a table. -/
def rsdtEntry (m : Bytes) (rsdt i : Word) : Word :=
  (load32 m (rsdt + sdtHeaderSize + 4#64 * i)).setWidth 64

namespace Acpi

def entryCount (m : Bytes) (s : Acpi) : Word :=
  ((sdtLength m s.rsdt).setWidth 64 - sdtHeaderSize) / (if s.hasXsdt then 8#64 else 4#64)

end Acpi

/-- One round of the loop over the entries: the state is `i`. -/
def findSdtTableRound (la57 : Bool) (verify : Word → Option ℤ) (m : Bytes) (s : Acpi)
    (signature : ℕ → BitVec 8) (i : Word) : Round Word Word :=
  if i < s.entryCount m then
    let currentEntry := rsdtEntry m s.rsdt i
    match acpiCheckSdtHeader verify m currentEntry signature with
    | none => .hang
    | some 0 => .leave (physToHigherHalfData la57 currentEntry)
    | some _ => .goOn (i + 1#64)
  else .leave 0#64

/-- `none` is a search that is still running after `fuel` rounds. -/
def acpiFindSdtTable (la57 : Bool) (verify : Word → Option ℤ) (m : Bytes) (s : Acpi)
    (signature : ℕ → BitVec 8) (fuel : ℕ) : Option Word :=
  iterate (findSdtTableRound la57 verify m s signature) fuel 0#64

end KnutOS
