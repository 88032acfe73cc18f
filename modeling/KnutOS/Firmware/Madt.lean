import KnutOS.Firmware.Acpi
import KnutOS.Libk.Kmalloc

/-! `madt_init` (`firmware/acpi/tables/madt.c`): the addresses of the MADT's records, by type. -/
namespace KnutOS

open Foundation

/-- `madt_entry_type_t`: the types of records that are collected. -/
inductive MadtEntryType
  | processorLocalApic
  | ioApic
  | interruptSourceOverride
  | lapicNmi
deriving DecidableEq

/-- The cases of the `switch`. -/
def madtEntryType (entryType : BitVec 8) : Option MadtEntryType :=
  if entryType = 0x0#8 then some .processorLocalApic
  else if entryType = 0x1#8 then some .ioApic
  else if entryType = 0x2#8 then some .interruptSourceOverride
  else if entryType = 0x4#8 then some .lapicNmi
  else none

/-- `madt_lapics`, `madt_io_apics`, `madt_isos` and `madt_lapic_nmis`. -/
abbrev MadtArrays := MadtEntryType → Word

/-- `index` stands for the four counters, `bytes` is the memory with the arrays. -/
structure MadtScan where
  bytes : Bytes
  tablePtr : Word
  index : MadtEntryType → Word

/-- `array[index++] = table_ptr`. -/
def MadtScan.collect (arrays : MadtArrays) (s : MadtScan) (t : MadtEntryType) : MadtScan :=
  { s with
    bytes := store64 s.bytes (arrays t + 8#64 * s.index t) s.tablePtr
    index := Function.update s.index t (s.index t + 1#64) }

/-- The body of the `while` loop. The table is an object of its own in `table`, which the stores
into the arrays do not reach. -/
def madtBody (table : Bytes) (arrays : MadtArrays) (s : MadtScan) : MadtScan :=
  let s := (madtEntryType (table s.tablePtr)).elim s (s.collect arrays)
  { s with tablePtr := s.tablePtr + (table (s.tablePtr + 1#64)).setWidth 64 }

def madtRound (table : Bytes) (arrays : MadtArrays) (madtTableLength : Word) (s : MadtScan) :
    Round MadtScan MadtScan :=
  if s.tablePtr < madtTableLength then .goOn (madtBody table arrays s) else .leave s

/-- `(size_t)&madt->header + madt->header.length`. -/
def madtTableLength (table : Bytes) (madt : Word) : Word :=
  madt + (sdtLength table madt).setWidth 64

/-- The state in front of the loop: `table_ptr = &madt->table`. -/
def madtScanStart (bytes : Bytes) (madt : Word) : MadtScan := ⟨bytes, madt + 44#64, fun _ => 0#64⟩

/-- What `madt_init` leaves behind. -/
structure Madt (σ : Type) where
  madt : Word
  arrays : MadtArrays
  index : MadtEntryType → Word
  heap : Heap σ

section

variable {σ : Type} (A : Allocators σ)

/-- The four calls of `kmalloc`. -/
def madtAllocate (h : Heap σ) : Option (MadtArrays × Heap σ) := do
  let (lapics, h) ← kmalloc A h 256#64
  let (ioApics, h) ← kmalloc A h 256#64
  let (isos, h) ← kmalloc A h 256#64
  let (lapicNmis, h) ← kmalloc A h 256#64
  let arrays
    | .processorLocalApic => lapics
    | .ioApic => ioApics
    | .interruptSourceOverride => isos
    | .lapicNmi => lapicNmis
  some (arrays, h)

/-- Up to the loop: the table and the arrays. `none` is a halted kernel, or a search that is still
running after `fuel` rounds, its own or those of a checksum. -/
def madtFindTable (la57 : Bool) (s : Acpi) (h : Heap σ) (fuel : ℕ) :
    Option (Word × MadtArrays × Heap σ) := do
  let madt ← acpiFindSdtTable la57 (acpiVerifySdtHeaderChecksum h.bytes fuel) h.bytes s
    (cString ['A', 'P', 'I', 'C']) fuel
  if madt = 0#64 then none
  else
    let (arrays, h) ← madtAllocate A h
    some (madt, arrays, h)

/-- `none` is a halted kernel, or a loop that is still running after `fuel` rounds. -/
def madtInit (la57 : Bool) (s : Acpi) (h : Heap σ) (fuel : ℕ) : Option (Madt σ) := do
  let (madt, arrays, h) ← madtFindTable A la57 s h fuel
  let scan ← iterate (madtRound h.bytes arrays (madtTableLength h.bytes madt)) fuel
    (madtScanStart h.bytes madt)
  some ⟨madt, arrays, scan.index, ⟨scan.bytes, h.alloc⟩⟩

end

end KnutOS
