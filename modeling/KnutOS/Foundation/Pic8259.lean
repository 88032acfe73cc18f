import Mathlib.Data.Fin.Basic
import Mathlib.Data.List.FinRange

/-! The 8259A interrupt controller in fully nested mode, and a pair of them with the second one on
line 2 of the first. -/
namespace Foundation.Pic8259

/-- The initialization command word that the chip expects next. -/
inductive Stage
  | ready
  | icw2
  | icw3
  | icw4
  deriving DecidableEq

structure Chip where
  stage : Stage
  single : Bool
  needsIcw4 : Bool
  base : BitVec 8
  cascade : BitVec 8
  icw4 : BitVec 8
  imr : BitVec 8
  irr : BitVec 8
  isr : BitVec 8
  deriving DecidableEq

def bit (n : Fin 8) : BitVec 8 := 1#8 <<< n.val

/-- The line of the highest priority. -/
def first (b : BitVec 8) : Option (Fin 8) := (List.finRange 8).find? fun n => b.getLsbD n

namespace Chip

variable (c : Chip)

/-- The non-specific end of interrupt. -/
def endOfInterrupt : Chip :=
  match first c.isr with
  | none => c
  | some n => { c with isr := c.isr &&& ~~~bit n }

/-- ICW1, or an end of interrupt in OCW2. Other command words are left out. -/
def writeCommand (v : BitVec 8) : Chip :=
  if v.getLsbD 4 then
    { c with
      stage := .icw2
      single := v.getLsbD 1
      needsIcw4 := v.getLsbD 0
      icw4 := 0#8
      imr := 0#8
      irr := 0#8
      isr := 0#8 }
  else if v &&& 0xF8#8 = 0x20#8 then c.endOfInterrupt
  else c

/-- The other initialization command words, or OCW1. -/
def writeData (v : BitVec 8) : Chip :=
  match c.stage with
  | .ready => { c with imr := v }
  | .icw2 =>
    { c with
      base := v &&& 0xF8#8
      stage := if ¬ c.single then .icw3 else if c.needsIcw4 then .icw4 else .ready }
  | .icw3 => { c with cascade := v, stage := if c.needsIcw4 then .icw4 else .ready }
  | .icw4 => { c with icw4 := v, stage := .ready }

/-- The request that the chip passes on: an unmasked one with a higher priority than all in
service. -/
def request : Option (Fin 8) :=
  match first (c.irr &&& ~~~c.imr), first c.isr with
  | none, _ => none
  | some n, none => some n
  | some n, some k => if n < k then some n else none

/-- The vector for the CPU. A request goes into service, unless it ends by itself; where it has
been withdrawn, the vector of line 7 is given. -/
def acknowledge : Chip × BitVec 8 :=
  match c.request with
  | none => (c, c.base ||| 7#8)
  | some n =>
    ({ c with
        irr := c.irr &&& ~~~bit n
        isr := if c.icw4.getLsbD 1 then c.isr else c.isr ||| bit n },
      c.base ||| BitVec.ofNat 8 n)

end Chip

structure Pair where
  master : Chip
  slave : Chip
  deriving DecidableEq

namespace Pair

variable (p : Pair)

/-- An interrupt from a line with a slave gets the vector of the slave. -/
def acknowledge : Pair × BitVec 8 :=
  match p.master.request with
  | none => (⟨p.master.acknowledge.1, p.slave⟩, p.master.acknowledge.2)
  | some n =>
    if p.master.cascade.getLsbD n then
      (⟨p.master.acknowledge.1, p.slave.acknowledge.1⟩, p.slave.acknowledge.2)
    else (⟨p.master.acknowledge.1, p.slave⟩, p.master.acknowledge.2)

/-- The chip of one of the sixteen lines. -/
def update (f : Chip → Fin 8 → Chip) (line : Fin 16) : Pair :=
  if h : line.val < 8 then { p with master := f p.master ⟨line, h⟩ }
  else { p with slave := f p.slave ⟨line - 8, by omega⟩ }

def raise (line : Fin 16) : Pair := p.update (fun c n => { c with irr := c.irr ||| bit n }) line

def drop (line : Fin 16) : Pair := p.update (fun c n => { c with irr := c.irr &&& ~~~bit n }) line

/-- The request of the slave arrives at the master. -/
def cascade : Pair :=
  if p.slave.request.isSome then { p with master := { p.master with irr := p.master.irr ||| bit 2 } }
  else p

end Pair

/-! Bits -/

variable {b : BitVec 8} {n k : Fin 8} {c : Chip}

theorem first_eq_some_iff : first b = some n ↔ b.getLsbD n = true ∧ ∀ k < n, b.getLsbD k = false := by
  decide +revert

theorem first_bit (n : Fin 8) : first (bit n) = some n := by
  decide +revert

theorem first_zero : first 0#8 = none := by decide

theorem bit_and_not (n : Fin 8) : bit n &&& ~~~bit n = 0#8 := by
  decide +revert

/-! What is in service -/

theorem endOfInterrupt_bit (h : c.isr = bit n) : c.endOfInterrupt = { c with isr := 0#8 } := by
  simp only [Chip.endOfInterrupt, h, first_bit, bit_and_not]

theorem endOfInterrupt_zero (h : c.isr = 0#8) : c.endOfInterrupt = c := by
  simp only [Chip.endOfInterrupt, h, first_zero]

/-- With nothing in service, nothing holds up a request. -/
theorem request_idle (h : c.isr = 0#8) : c.request = first (c.irr &&& ~~~c.imr) := by
  rw [Chip.request, h, first_zero]
  cases first (c.irr &&& ~~~c.imr) <;> rfl

/-- Only unmasked requests are passed on. -/
theorem of_request_eq_some (h : c.request = some n) :
    c.irr.getLsbD n = true ∧ c.imr.getLsbD n = false := by
  have hfirst : first (c.irr &&& ~~~c.imr) = some n := by
    rw [Chip.request] at h
    split at h
    · cases h
    · next hf _ => rwa [hf]
    · next hf _ =>
      split at h
      · rwa [hf]
      · cases h
  have hbit := (first_eq_some_iff.mp hfirst).1
  rw [BitVec.getLsbD_and, BitVec.getLsbD_not] at hbit
  simpa using hbit

/-! The masks are not touched by interrupts. -/

@[simp] theorem endOfInterrupt_imr (c : Chip) : c.endOfInterrupt.imr = c.imr := by
  rw [Chip.endOfInterrupt]
  split <;> rfl

@[simp] theorem acknowledge_imr (c : Chip) : c.acknowledge.1.imr = c.imr := by
  rw [Chip.acknowledge]
  split <;> rfl

@[simp] theorem master_acknowledge_imr (p : Pair) : p.acknowledge.1.master.imr = p.master.imr := by
  rw [Pair.acknowledge]
  split
  · exact acknowledge_imr p.master
  · split <;> exact acknowledge_imr p.master

@[simp] theorem slave_acknowledge_imr (p : Pair) : p.acknowledge.1.slave.imr = p.slave.imr := by
  rw [Pair.acknowledge]
  split
  · rfl
  · split
    · exact acknowledge_imr p.slave
    · rfl

end Foundation.Pic8259
