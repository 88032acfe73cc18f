import KnutOS.Foundation.Pic8259
import KnutOS.Foundation.Run

/-! The programmable interrupt controllers (`devices/pic/pic.c`), and the interrupts that come from
them to `isr_handler`. -/
namespace KnutOS

open Foundation Foundation.Pic8259

def pic1Command : BitVec 16 := 0x20#16

def pic1Data : BitVec 16 := pic1Command + 1#16

def pic2Command : BitVec 16 := 0xA0#16

def pic2Data : BitVec 16 := pic2Command + 1#16

def icw4_8086 : BitVec 8 := 0x01#8

/-- `io_outb`, for the ports of the controllers. -/
def picOutb (port : BitVec 16) (value : BitVec 8) (p : Pair) : Pair :=
  if port = pic1Command then { p with master := p.master.writeCommand value }
  else if port = pic1Data then { p with master := p.master.writeData value }
  else if port = pic2Command then { p with slave := p.slave.writeCommand value }
  else if port = pic2Data then { p with slave := p.slave.writeData value }
  else p

/-- `io_inb`, for the two data ports. -/
def picInb (port : BitVec 16) (p : Pair) : BitVec 8 :=
  if port = pic1Data then p.master.imr else p.slave.imr

def picDisable (p : Pair) : Pair :=
  let p := picOutb pic2Data 0xFF#8 p
  picOutb pic1Data 0xFF#8 p

/-- `pic_remap`. What `io_wait` reads is not a port of the controllers. -/
def picRemap (p : Pair) : Pair :=
  let mask1 := picInb pic1Data p
  let mask2 := picInb pic2Data p
  let p := picOutb pic1Command 0x11#8 p
  let p := picOutb pic2Command 0x11#8 p
  let p := picOutb pic1Data 0x20#8 p
  let p := picOutb pic2Data 0x28#8 p
  let p := picOutb pic1Data 0x04#8 p
  let p := picOutb pic2Data 0x02#8 p
  let p := picOutb pic1Data 0x01#8 p
  let p := picOutb pic2Data 0x01#8 p
  let p := picOutb pic1Data 0x00#8 p
  let p := picOutb pic2Data 0x00#8 p
  let p := picOutb pic1Data icw4_8086 p
  let p := picOutb pic2Data icw4_8086 p
  let p := picOutb pic1Data mask1 p
  picOutb pic2Data mask2 p

/-- The port and the line of a controller for an `irq_line`. -/
def picPort (irqLine : BitVec 8) : BitVec 16 × BitVec 8 :=
  if irqLine < 8#8 then (pic1Data, irqLine) else (pic2Data, irqLine - 8#8)

/-- The shift is one of an `int`, and the shift instruction takes its count modulo 32. -/
def picSetMask (irqLine : BitVec 8) (p : Pair) : Pair :=
  let (port, line) := picPort irqLine
  picOutb port (((picInb port p).setWidth 32 ||| 1#32 <<< (line.toNat % 32)).setWidth 8) p

def picClearMask (irqLine : BitVec 8) (p : Pair) : Pair :=
  let (port, line) := picPort irqLine
  picOutb port (((picInb port p).setWidth 32 &&& ~~~(1#32 <<< (line.toNat % 32))).setWidth 8) p

def picSignalEOI (isrNumber : BitVec 64) (p : Pair) : Pair :=
  let p := if isrNumber ≥ 40#64 then picOutb pic2Command 0x20#8 p else p
  picOutb pic1Command 0x20#8 p

/-- The controllers, and the number of the interrupt that `isr_handler` runs for. -/
structure PicSystem where
  pics : Pair
  handling : Option (BitVec 8)

/-- What happens at the controllers. The gates keep other interrupts away while `isr_handler` runs,
which ends with `pic_signal_EOI`. -/
inductive PicEvent
  | raise (line : Fin 16)
  | drop (line : Fin 16)
  | cascade
  | interrupt
  | endOfHandler
  | setMask (irqLine : BitVec 8)
  | clearMask (irqLine : BitVec 8)

inductive PicStep : PicSystem → PicEvent → PicSystem → Prop
  | raise (p : Pair) (h : Option (BitVec 8)) (line : Fin 16) :
      PicStep ⟨p, h⟩ (.raise line) ⟨p.raise line, h⟩
  | drop (p : Pair) (h : Option (BitVec 8)) (line : Fin 16) :
      PicStep ⟨p, h⟩ (.drop line) ⟨p.drop line, h⟩
  | cascade (p : Pair) (h : Option (BitVec 8)) : PicStep ⟨p, h⟩ .cascade ⟨p.cascade, h⟩
  | interrupt (p : Pair) :
      PicStep ⟨p, none⟩ .interrupt ⟨p.acknowledge.1, some p.acknowledge.2⟩
  | endOfHandler (p : Pair) (v : BitVec 8) :
      PicStep ⟨p, some v⟩ .endOfHandler ⟨picSignalEOI (v.setWidth 64) p, none⟩
  | setMask (p : Pair) (h : Option (BitVec 8)) (irqLine : BitVec 8) :
      PicStep ⟨p, h⟩ (.setMask irqLine) ⟨picSetMask irqLine p, h⟩
  | clearMask (p : Pair) (h : Option (BitVec 8)) (irqLine : BitVec 8) :
      PicStep ⟨p, h⟩ (.clearMask irqLine) ⟨picClearMask irqLine p, h⟩

namespace Pic

variable {p r : Pair} {s t : PicSystem} {v b : BitVec 8} {n : Fin 8} {line : Fin 16}

/-- The controllers as they are meant to be used: 16 vectors from 32 on, the slave on line 2, and
every interrupt is ended by the handler. -/
structure Configured (p : Pair) : Prop where
  master_stage : p.master.stage = .ready
  slave_stage : p.slave.stage = .ready
  master_base : p.master.base = 0x20#8
  slave_base : p.slave.base = 0x28#8
  cascade : p.master.cascade = 0x04#8
  master_icw4 : p.master.icw4 = 0x01#8
  slave_icw4 : p.slave.icw4 = 0x01#8

/-- The masks survive the initialization. -/
theorem picRemap_eq (p : Pair) :
    picRemap p =
      ⟨⟨.ready, false, true, 0x20#8, 0x04#8, 0x01#8, p.master.imr, 0#8, 0#8⟩,
        ⟨.ready, false, true, 0x28#8, 0x02#8, 0x01#8, p.slave.imr, 0#8, 0#8⟩⟩ := rfl

theorem picRemap_configured (p : Pair) : Configured (picRemap p) := by
  rw [picRemap_eq]
  exact ⟨rfl, rfl, rfl, rfl, rfl, rfl, rfl⟩

/-! Requests and masks change nothing of what is in service. -/

/-- The two differ in their requests and masks at most. -/
structure SameService (p q : Pair) : Prop where
  configured : Configured p → Configured q
  master_isr : q.master.isr = p.master.isr
  slave_isr : q.slave.isr = p.slave.isr

theorem sameService_requests (p : Pair) (irr imr irr' imr' : BitVec 8) :
    SameService p ⟨{ p.master with irr := irr, imr := imr },
      { p.slave with irr := irr', imr := imr' }⟩ :=
  ⟨fun ⟨h₁, h₂, h₃, h₄, h₅, h₆, h₇⟩ => ⟨h₁, h₂, h₃, h₄, h₅, h₆, h₇⟩, rfl, rfl⟩

theorem sameService_raise (p : Pair) (line : Fin 16) : SameService p (p.raise line) := by
  rw [Pair.raise, Pair.update]
  split
  · exact sameService_requests p _ _ _ _
  · exact sameService_requests p _ _ _ _

theorem sameService_drop (p : Pair) (line : Fin 16) : SameService p (p.drop line) := by
  rw [Pair.drop, Pair.update]
  split
  · exact sameService_requests p _ _ _ _
  · exact sameService_requests p _ _ _ _

theorem sameService_cascade (p : Pair) : SameService p p.cascade := by
  rw [Pair.cascade]
  split
  · exact sameService_requests p _ _ _ _
  · exact sameService_requests p _ _ _ _

theorem outb_pic1Data (h : Configured p) (v : BitVec 8) :
    picOutb pic1Data v p = { p with master := { p.master with imr := v } } := by
  have hport : pic1Data ≠ pic1Command := by decide
  simp only [picOutb, if_neg hport, if_true, Chip.writeData, h.master_stage]

theorem outb_pic2Data (h : Configured p) (v : BitVec 8) :
    picOutb pic2Data v p = { p with slave := { p.slave with imr := v } } := by
  have h₁ : pic2Data ≠ pic1Command := by decide
  have h₂ : pic2Data ≠ pic1Data := by decide
  have h₃ : pic2Data ≠ pic2Command := by decide
  simp only [picOutb, if_neg h₁, if_neg h₂, if_neg h₃, if_true, Chip.writeData, h.slave_stage]

theorem sameService_outb (h : Configured p) (irqLine v : BitVec 8) :
    SameService p (picOutb (picPort irqLine).1 v p) := by
  rw [picPort]
  split
  · rw [outb_pic1Data h]
    exact sameService_requests p _ _ _ _
  · rw [outb_pic2Data h]
    exact sameService_requests p _ _ _ _

/-! The interrupt that is handled -/

/-- One of the sixteen lines, or none of them if the request has been withdrawn. -/
def InService (p : Pair) : Option (BitVec 8) → Prop
  | none => p.master.isr = 0#8 ∧ p.slave.isr = 0#8
  | some v =>
    (∃ n : Fin 8, v = 0x20#8 ||| BitVec.ofNat 8 n ∧ p.slave.isr = 0#8 ∧
      (p.master.isr = bit n ∨ p.master.isr = 0#8)) ∨
    ∃ n : Fin 8, v = 0x28#8 ||| BitVec.ofNat 8 n ∧ p.master.isr = 0x04#8 ∧
      (p.slave.isr = bit n ∨ p.slave.isr = 0#8)

structure Sound (s : PicSystem) : Prop where
  configured : Configured s.pics
  inService : InService s.pics s.handling

theorem InService.congr {q : Pair} {h : Option (BitVec 8)} (hi : InService p h)
    (hsame : SameService p q) : InService q h := by
  cases h with
  | none => exact ⟨hsame.master_isr.trans hi.1, hsame.slave_isr.trans hi.2⟩
  | some v =>
    rw [InService, hsame.master_isr, hsame.slave_isr]
    exact hi

theorem Sound.congr {q : Pair} {h : Option (BitVec 8)} (hs : Sound ⟨p, h⟩) (hsame : SameService p q) :
    Sound ⟨q, h⟩ := ⟨hsame.configured hs.configured, hs.inService.congr hsame⟩

theorem eq_two_of_cascade (n : Fin 8) (h : (0x04#8).getLsbD n = true) : n = 2 := by
  decide +revert

theorem master_vector_lt (n : Fin 8) : ¬ (0x20#8 ||| BitVec.ofNat 8 n).setWidth 64 ≥ 40#64 := by
  decide +revert

theorem slave_vector_ge (n : Fin 8) : (0x28#8 ||| BitVec.ofNat 8 n).setWidth 64 ≥ 40#64 := by
  decide +revert

theorem master_vector_bounds (n : Fin 8) :
    32#8 ≤ 0x20#8 ||| BitVec.ofNat 8 n ∧ 0x20#8 ||| BitVec.ofNat 8 n ≤ 47#8 := by
  decide +revert

theorem slave_vector_bounds (n : Fin 8) :
    32#8 ≤ 0x28#8 ||| BitVec.ofNat 8 n ∧ 0x28#8 ||| BitVec.ofNat 8 n ≤ 47#8 := by
  decide +revert

/-- A chip with nothing in service takes its request into service. -/
theorem acknowledge_idle {c : Chip} (hicw4 : c.icw4 = 0x01#8) (hisr : c.isr = 0#8) :
    (c.request = none ∧ c.acknowledge = (c, c.base ||| 7#8)) ∨
      ∃ n, c.request = some n ∧
        c.acknowledge = ({ c with irr := c.irr &&& ~~~bit n, isr := bit n },
          c.base ||| BitVec.ofNat 8 n) := by
  cases hr : c.request with
  | none => exact .inl ⟨rfl, by rw [Chip.acknowledge, hr]⟩
  | some n =>
    refine .inr ⟨n, rfl, ?_⟩
    have haeoi : (0x01#8).getLsbD 1 = false := by decide
    simp only [Chip.acknowledge, hr, hicw4, haeoi, Bool.false_eq_true, if_false, hisr,
      BitVec.zero_or]

theorem Sound.interrupt (hs : Sound ⟨p, none⟩) :
    Sound ⟨p.acknowledge.1, some p.acknowledge.2⟩ := by
  obtain ⟨⟨h₁, h₂, h₃, h₄, h₅, h₆, h₇⟩, hmaster, hslave⟩ := hs
  rcases acknowledge_idle h₆ hmaster with ⟨hr, hack⟩ | ⟨n, hr, hack⟩
  · simp only [Pair.acknowledge, hr, hack]
    exact ⟨⟨h₁, h₂, h₃, h₄, h₅, h₆, h₇⟩, .inl ⟨7, by rw [h₃]; rfl, hslave, .inr hmaster⟩⟩
  · by_cases hcascade : p.master.cascade.getLsbD n = true
    · obtain rfl := eq_two_of_cascade n (by rwa [h₅] at hcascade)
      rcases acknowledge_idle h₇ hslave with ⟨hr', hack'⟩ | ⟨k, hr', hack'⟩
      · simp only [Pair.acknowledge, hr, hack, hack', if_pos hcascade]
        exact ⟨⟨h₁, h₂, h₃, h₄, h₅, h₆, h₇⟩, .inr ⟨7, by rw [h₄]; rfl, rfl, .inr hslave⟩⟩
      · simp only [Pair.acknowledge, hr, hack, hack', if_pos hcascade]
        exact ⟨⟨h₁, h₂, h₃, h₄, h₅, h₆, h₇⟩, .inr ⟨k, by rw [h₄], rfl, .inl rfl⟩⟩
    · simp only [Pair.acknowledge, hr, hack, if_neg hcascade]
      exact ⟨⟨h₁, h₂, h₃, h₄, h₅, h₆, h₇⟩, .inl ⟨n, by rw [h₃], hslave, .inl rfl⟩⟩

/-- The command ends what is in service. -/
theorem outb_pic1Command (p : Pair) :
    picOutb pic1Command 0x20#8 p = { p with master := p.master.endOfInterrupt } := rfl

theorem outb_pic2Command (p : Pair) :
    picOutb pic2Command 0x20#8 p = { p with slave := p.slave.endOfInterrupt } := rfl

theorem endOfInterrupt_eq {c : Chip} (h : c.isr = bit n ∨ c.isr = 0#8) :
    c.endOfInterrupt = { c with isr := 0#8 } := by
  rcases h with h | h
  · exact endOfInterrupt_bit h
  · rw [endOfInterrupt_zero h, ← h]

theorem Sound.endOfHandler (hs : Sound ⟨p, some v⟩) :
    Sound ⟨picSignalEOI (v.setWidth 64) p, none⟩ := by
  obtain ⟨⟨h₁, h₂, h₃, h₄, h₅, h₆, h₇⟩, ⟨n, rfl, hslave, hmaster⟩ | ⟨n, rfl, hmaster, hslave⟩⟩ := hs
  · simp only [picSignalEOI, if_neg (master_vector_lt n), outb_pic1Command, endOfInterrupt_eq hmaster]
    exact ⟨⟨h₁, h₂, h₃, h₄, h₅, h₆, h₇⟩, rfl, hslave⟩
  · have hline : p.master.isr = bit 2 := hmaster
    simp only [picSignalEOI, if_pos (slave_vector_ge n), outb_pic1Command, outb_pic2Command,
      endOfInterrupt_bit hline, endOfInterrupt_eq hslave]
    exact ⟨⟨h₁, h₂, h₃, h₄, h₅, h₆, h₇⟩, rfl, rfl⟩

theorem Sound.step {e : PicEvent} (hs : Sound s) (h : PicStep s e t) : Sound t := by
  cases h with
  | raise p h line => exact hs.congr (sameService_raise p line)
  | drop p h line => exact hs.congr (sameService_drop p line)
  | cascade p h => exact hs.congr (sameService_cascade p)
  | interrupt p => exact hs.interrupt
  | endOfHandler p v => exact hs.endOfHandler
  | setMask p h irqLine => exact hs.congr (sameService_outb hs.configured irqLine _)
  | clearMask p h irqLine => exact hs.congr (sameService_outb hs.configured irqLine _)

theorem Sound.run {es : List PicEvent} (h : Run PicStep s es t) (hs : Sound s) : Sound t :=
  h.invariant hs fun _ _ _ hs hstep => hs.step hstep

theorem sound_run {es : List PicEvent} (h : Run PicStep ⟨picRemap p, none⟩ es s) : Sound s :=
  Sound.run h ⟨picRemap_configured p, rfl, rfl⟩

/-! The sixteen lines -/

/-- The bit for a line in a register of the two controllers. -/
def lineBit (register : Chip → BitVec 8) (p : Pair) (line : Fin 16) : Bool :=
  if line.val < 8 then (register p.master).getLsbD line else (register p.slave).getLsbD (line - 8)

def pending (p : Pair) (line : Fin 16) : Bool := lineBit Chip.irr p line

def masked (p : Pair) (line : Fin 16) : Bool := lineBit Chip.imr p line

/-- `1 << line`, also where it leaves the register. -/
theorem shifted_bit (count : ℕ) {i : ℕ} (hi : i < 32) :
    (1#32 <<< count).getLsbD i = decide (i = count) := by
  rw [← BitVec.twoPow_eq, BitVec.getLsbD_twoPow]
  by_cases heq : i = count
  · subst heq
    simp [hi]
  · have hne : count ≠ i := fun h => heq h.symm
    simp [heq, hne]

theorem setMask_bit (imr : BitVec 8) (count : ℕ) {i : ℕ} (hi : i < 8) :
    ((imr.setWidth 32 ||| 1#32 <<< count).setWidth 8).getLsbD i =
      (imr.getLsbD i || decide (i = count)) := by
  have hlt : i < 32 := by omega
  rw [BitVec.getLsbD_setWidth, BitVec.getLsbD_or, BitVec.getLsbD_setWidth, shifted_bit count hlt]
  simp [hi, hlt]

theorem clearMask_bit (imr : BitVec 8) (count : ℕ) {i : ℕ} (hi : i < 8) :
    ((imr.setWidth 32 &&& ~~~(1#32 <<< count)).setWidth 8).getLsbD i =
      (imr.getLsbD i && !decide (i = count)) := by
  have hlt : i < 32 := by omega
  rw [BitVec.getLsbD_setWidth, BitVec.getLsbD_and, BitVec.getLsbD_setWidth, BitVec.getLsbD_not,
    shifted_bit count hlt]
  simp [hi, hlt]

/-- The number of a line, as it is given to `pic_set_mask` and `pic_clear_mask`. -/
def irqLine (line : Fin 16) : BitVec 8 := BitVec.ofNat 8 line

/-- The shift for `irq` gets to the mask bit of the line: `irq` is its number, or one that is a
multiple of 32 above it on the slave. -/
def Hits (irq : BitVec 8) (line : Fin 16) : Prop :=
  if line.val < 8 then irq.toNat = line.val
  else 8 ≤ irq.toNat ∧ (irq.toNat - 8) % 32 = line.val - 8

instance (irq : BitVec 8) (line : Fin 16) : Decidable (Hits irq line) :=
  inferInstanceAs (Decidable (ite _ _ _))

theorem irqLine_toNat (line : Fin 16) : (irqLine line).toNat = line.val := by
  rw [irqLine, BitVec.toNat_ofNat]
  omega

theorem hits_irqLine (line : Fin 16) : Hits (irqLine line) line := by
  have hline := line.isLt
  rw [Hits, irqLine_toNat]
  split <;> omega

theorem hits_iff (irq : BitVec 8) (line : Fin 16) :
    Hits irq line ↔ if line.val < 8 then irq < 8#8 ∧ line.val = irq.toNat % 32
      else ¬ irq < 8#8 ∧ line.val - 8 = (irq - 8#8).toNat % 32 := by
  have hirq := irq.isLt
  rw [Hits, BitVec.lt_def, BitVec.toNat_sub]
  split <;> simp only [BitVec.toNat_ofNat] <;> omega

theorem masked_picSetMask (h : Configured p) (irq : BitVec 8) (line : Fin 16) :
    masked (picSetMask irq p) line = (masked p line || decide (Hits irq line)) := by
  have hiff := hits_iff irq line
  have hline := line.isLt
  by_cases hirq : irq < 8#8
  · simp only [picSetMask, picPort, if_pos hirq, outb_pic1Data h, masked, lineBit, picInb, if_true]
    by_cases hlow : line.val < 8
    · rw [if_pos hlow] at hiff
      simp only [if_pos hlow, setMask_bit _ _ hlow, hiff, hirq, true_and]
    · rw [if_neg hlow] at hiff
      simp [if_neg hlow, hiff, hirq]
  · have hport : pic2Data ≠ pic1Data := by decide
    simp only [picSetMask, picPort, if_neg hirq, outb_pic2Data h, masked, lineBit, picInb, if_neg hport]
    by_cases hlow : line.val < 8
    · rw [if_pos hlow] at hiff
      simp [if_pos hlow, hiff, hirq]
    · rw [if_neg hlow] at hiff
      simp only [if_neg hlow, setMask_bit _ _ (show line.val - 8 < 8 by omega), hiff, hirq,
        not_false_eq_true, true_and]

theorem masked_picClearMask (h : Configured p) (irq : BitVec 8) (line : Fin 16) :
    masked (picClearMask irq p) line = (masked p line && !decide (Hits irq line)) := by
  have hiff := hits_iff irq line
  have hline := line.isLt
  by_cases hirq : irq < 8#8
  · simp only [picClearMask, picPort, if_pos hirq, outb_pic1Data h, masked, lineBit, picInb, if_true]
    by_cases hlow : line.val < 8
    · rw [if_pos hlow] at hiff
      simp only [if_pos hlow, clearMask_bit _ _ hlow, hiff, hirq, true_and]
    · rw [if_neg hlow] at hiff
      simp [if_neg hlow, hiff, hirq]
  · have hport : pic2Data ≠ pic1Data := by decide
    simp only [picClearMask, picPort, if_neg hirq, outb_pic2Data h, masked, lineBit, picInb,
      if_neg hport]
    by_cases hlow : line.val < 8
    · rw [if_pos hlow] at hiff
      simp [if_pos hlow, hiff, hirq]
    · rw [if_neg hlow] at hiff
      simp only [if_neg hlow, clearMask_bit _ _ (show line.val - 8 < 8 by omega), hiff, hirq,
        not_false_eq_true, true_and]

/-- The vector of a line, after `pic_remap`. -/
def lineVector (line : Fin 16) : BitVec 8 := BitVec.ofNat 8 (32 + line)

def masterLine (n : Fin 8) : Fin 16 := ⟨n, by omega⟩

def slaveLine (n : Fin 8) : Fin 16 := ⟨8 + n, by omega⟩

theorem masterLine_vector (n : Fin 8) : 0x20#8 ||| BitVec.ofNat 8 n = lineVector (masterLine n) := by
  decide +revert

theorem slaveLine_vector (n : Fin 8) : 0x28#8 ||| BitVec.ofNat 8 n = lineVector (slaveLine n) := by
  decide +revert

theorem lineBit_masterLine (r : Chip → BitVec 8) (p : Pair) (n : Fin 8) :
    lineBit r p (masterLine n) = (r p.master).getLsbD n := if_pos n.isLt

theorem lineBit_slaveLine (r : Chip → BitVec 8) (p : Pair) (n : Fin 8) :
    lineBit r p (slaveLine n) = (r p.slave).getLsbD n := by
  have hnot : ¬ (slaveLine n).val < 8 := Nat.not_lt.mpr (Nat.le_add_right 8 n)
  rw [lineBit, if_neg hnot, slaveLine, Nat.add_sub_cancel_left]

/-- An interrupt comes from a pending line that is not masked, or it is spurious. -/
theorem vector_cases (hs : Sound ⟨p, none⟩) :
    (∃ line, p.acknowledge.2 = lineVector line ∧ pending p line = true ∧ masked p line = false) ∨
      (p.acknowledge.2 = lineVector 7 ∧ p.master.request = none) ∨
      (p.acknowledge.2 = lineVector 15 ∧ p.slave.request = none) := by
  have hconf : Configured p := hs.configured
  have hmaster : p.master.isr = 0#8 := hs.inService.1
  have hslave : p.slave.isr = 0#8 := hs.inService.2
  rcases acknowledge_idle hconf.master_icw4 hmaster with ⟨hr, hack⟩ | ⟨n, hr, hack⟩
  · refine .inr (.inl ⟨?_, hr⟩)
    simp only [Pair.acknowledge, hr, hack, hconf.master_base]
    rfl
  · by_cases hcascade : p.master.cascade.getLsbD n = true
    · rcases acknowledge_idle hconf.slave_icw4 hslave with ⟨hr', hack'⟩ | ⟨k, hr', hack'⟩
      · refine .inr (.inr ⟨?_, hr'⟩)
        simp only [Pair.acknowledge, hr, hack', if_pos hcascade, hconf.slave_base]
        rfl
      · obtain ⟨hirr, himr⟩ := of_request_eq_some hr'
        refine .inl ⟨slaveLine k, ?_, ?_, ?_⟩
        · simp only [Pair.acknowledge, hr, hack', if_pos hcascade, hconf.slave_base,
            slaveLine_vector]
        · rwa [pending, lineBit_slaveLine]
        · rwa [masked, lineBit_slaveLine]
    · obtain ⟨hirr, himr⟩ := of_request_eq_some hr
      refine .inl ⟨masterLine n, ?_, ?_, ?_⟩
      · simp only [Pair.acknowledge, hr, hack, if_neg hcascade, hconf.master_base,
          masterLine_vector]
      · rwa [pending, lineBit_masterLine]
      · rwa [masked, lineBit_masterLine]

/-! Whole runs -/

/-- The masks depend on the mask registers only. -/
theorem masked_congr {q : Pair} (hmaster : q.master.imr = p.master.imr)
    (hslave : q.slave.imr = p.slave.imr) : masked q line = masked p line := by
  rw [masked, masked, lineBit, lineBit, hmaster, hslave]

theorem masked_raise (p : Pair) (other : Fin 16) : masked (p.raise other) line = masked p line := by
  rw [Pair.raise, Pair.update]
  split <;> rfl

theorem masked_drop (p : Pair) (other : Fin 16) : masked (p.drop other) line = masked p line := by
  rw [Pair.drop, Pair.update]
  split <;> rfl

theorem masked_cascade (p : Pair) : masked p.cascade line = masked p line := by
  rw [Pair.cascade]
  split <;> rfl

theorem masked_picSignalEOI (n : BitVec 64) (p : Pair) :
    masked (picSignalEOI n p) line = masked p line := by
  rw [picSignalEOI]
  split
  · exact masked_congr (endOfInterrupt_imr p.master) (endOfInterrupt_imr p.slave)
  · exact masked_congr (endOfInterrupt_imr p.master) rfl

/-- Only a `pic_clear_mask` that hits a line opens it. -/
theorem masked_step {e : PicEvent} (hs : Sound s) (h : PicStep s e t)
    (he : ∀ irq, e = .clearMask irq → ¬ Hits irq line) (hmasked : masked s.pics line = true) :
    masked t.pics line = true := by
  cases h with
  | raise p h other => exact (masked_raise p other).trans hmasked
  | drop p h other => exact (masked_drop p other).trans hmasked
  | cascade p h => exact (masked_cascade p).trans hmasked
  | interrupt p =>
    exact (masked_congr (master_acknowledge_imr p) (slave_acknowledge_imr p)).trans hmasked
  | endOfHandler p v => exact (masked_picSignalEOI _ p).trans hmasked
  | setMask p h irq =>
    have hset := masked_picSetMask hs.configured irq line
    rw [show masked p line = true from hmasked, Bool.true_or] at hset
    exact hset
  | clearMask p h irq =>
    have hclear := masked_picClearMask hs.configured irq line
    rw [show masked p line = true from hmasked, decide_eq_false (he irq rfl)] at hclear
    exact hclear

theorem masked_run {es : List PicEvent} (h : Run PicStep s es t) (hs : Sound s)
    (hes : ∀ irq, .clearMask irq ∈ es → ¬ Hits irq line) (hmasked : masked s.pics line = true) :
    masked t.pics line = true := by
  induction h with
  | refl => exact hmasked
  | stepL hstep _ ih =>
    have hfirst := masked_step hs hstep (fun irq heq => hes irq (heq ▸ List.mem_cons_self)) hmasked
    exact ih (hs.step hstep) (fun irq hmem => hes irq (List.mem_cons_of_mem _ hmem)) hfirst

theorem lineVector_injective {k l : Fin 16} (h : lineVector k = lineVector l) : k = l := by
  decide +revert

/-- Between two interrupts nothing is in service, so that every request gets through; and the
handler's end of interrupt is for what it has been called for. -/
theorem interrupts_end {es : List PicEvent} (h : Run PicStep ⟨picRemap p, none⟩ es s) :
    (s.handling = none → s.pics.master.request = first (s.pics.master.irr &&& ~~~s.pics.master.imr) ∧
      s.pics.slave.request = first (s.pics.slave.irr &&& ~~~s.pics.slave.imr)) ∧
    ∀ v, s.handling = some v → 32#8 ≤ v ∧ v ≤ 47#8 ∧
      (picSignalEOI (v.setWidth 64) s.pics).master.isr = 0#8 ∧
      (picSignalEOI (v.setWidth 64) s.pics).slave.isr = 0#8 := by
  have hs := sound_run h
  obtain ⟨q, handling⟩ := s
  constructor
  · rintro rfl
    exact ⟨request_idle hs.inService.1, request_idle hs.inService.2⟩
  · rintro v rfl
    have hend := hs.endOfHandler.inService
    have hbounds : 32#8 ≤ v ∧ v ≤ 47#8 := by
      rcases hs.inService with ⟨n, rfl, -⟩ | ⟨n, rfl, -⟩
      · exact master_vector_bounds n
      · exact slave_vector_bounds n
    exact ⟨hbounds.1, hbounds.2, hend.1, hend.2⟩

/-- Controllers that nobody has set up. -/
def idlePair : Pair :=
  ⟨⟨.ready, false, false, 0#8, 0#8, 0#8, 0#8, 0#8, 0#8⟩,
    ⟨.ready, false, false, 0#8, 0#8, 0#8, 0#8, 0#8, 0#8⟩⟩

theorem interrupts_end_keyboard :
    ∃ s, Run PicStep ⟨picRemap idlePair, none⟩ [.raise 1, .interrupt] s ∧ s.handling = some 33#8 ∧
      (picSignalEOI 33#64 s.pics).master.isr = 0#8 := by
  have hrun := Run.stepL (PicStep.raise (picRemap idlePair) none 1)
    (Run.stepL (PicStep.interrupt ((picRemap idlePair).raise 1)) (Run.refl _))
  have hvector : ((picRemap idlePair).raise 1).acknowledge.2 = 33#8 := by decide +kernel
  obtain ⟨-, -, hmaster, -⟩ := (interrupts_end hrun).2 33#8 (congrArg some hvector)
  exact ⟨_, hrun, congrArg some hvector, hmaster⟩

/-- From a `pic_set_mask` that hits it on, until there is a `pic_clear_mask` that does, a line
delivers no interrupt, other than a spurious one with its vector. -/
theorem masked_not_delivered {q : Pair} {h : Option (BitVec 8)} {irq : BitVec 8}
    {es es' : List PicEvent} (hirq : Hits irq line)
    (hrun : Run PicStep ⟨picRemap p, none⟩ es ⟨q, h⟩)
    (hrun' : Run PicStep ⟨picSetMask irq q, h⟩ es' ⟨r, none⟩)
    (hes : ∀ other, .clearMask other ∈ es' → ¬ Hits other line) :
    r.acknowledge.2 ≠ lineVector line ∨ (line = 7 ∧ r.master.request = none) ∨
      (line = 15 ∧ r.slave.request = none) := by
  have hs := sound_run hrun
  have hset : Sound ⟨picSetMask irq q, h⟩ := hs.step (.setMask q h irq)
  have hmasked : masked (picSetMask irq q) line = true := by
    rw [masked_picSetMask hs.configured, decide_eq_true hirq, Bool.or_true]
  have hend : masked r line = true := masked_run hrun' hset hes hmasked
  by_cases hvector : r.acknowledge.2 = lineVector line
  · refine .inr ?_
    rcases vector_cases (Sound.run hrun' hset) with ⟨l, hl, -, hopen⟩ | ⟨h7, hnone⟩ | ⟨h15, hnone⟩
    · rw [lineVector_injective (hl.symm.trans hvector), hend] at hopen
      cases hopen
    · exact .inl ⟨lineVector_injective (hvector.symm.trans h7), hnone⟩
    · exact .inr ⟨lineVector_injective (hvector.symm.trans h15), hnone⟩
  · exact .inl hvector

/-- The real-time clock is masked by the `irq_line` 40, and then line 3 is opened: what comes is the
interrupt of line 3. -/
theorem masked_not_delivered_clock :
    ∃ r : Pair, Run PicStep ⟨picSetMask 40#8 (picRemap idlePair), none⟩
        [.raise 8, .cascade, .clearMask 3#8, .raise 3] ⟨r, none⟩ ∧
      pending r 8 = true ∧ r.acknowledge.2 = lineVector 3 ∧ r.acknowledge.2 ≠ lineVector 8 := by
  have hrun := Run.stepL (PicStep.raise (picSetMask 40#8 (picRemap idlePair)) none 8)
    (Run.stepL (PicStep.cascade _ none) (Run.stepL (PicStep.clearMask _ none 3#8)
      (Run.stepL (PicStep.raise _ none 3) (Run.refl _))))
  have hvector := masked_not_delivered (show Hits 40#8 8 by decide) (Run.refl _) hrun (by
    intro other hmem
    simp only [List.mem_cons, PicEvent.clearMask.injEq, reduceCtorEq, List.not_mem_nil, false_or,
      or_false] at hmem
    rw [hmem]
    decide)
  refine ⟨_, hrun, by decide +kernel, by decide +kernel, hvector.resolve_right ?_⟩
  decide

theorem picDisable_eq (h : Configured p) :
    picDisable p =
      ⟨{ p.master with imr := 0xFF#8 }, { p.slave with imr := 0xFF#8 }⟩ := by
  have hslave : Configured { p with slave := { p.slave with imr := 0xFF#8 } } := by
    obtain ⟨h₁, h₂, h₃, h₄, h₅, h₆, h₇⟩ := h
    exact ⟨h₁, h₂, h₃, h₄, h₅, h₆, h₇⟩
  rw [picDisable, outb_pic2Data h, outb_pic1Data hslave]

theorem picDisable_picRemap (p : Pair) :
    picDisable (picRemap p) =
      ⟨⟨.ready, false, true, 0x20#8, 0x04#8, 0x01#8, 0xFF#8, 0#8, 0#8⟩,
        ⟨.ready, false, true, 0x28#8, 0x02#8, 0x01#8, 0xFF#8, 0#8, 0#8⟩⟩ := by
  rw [picDisable_eq (picRemap_configured p), picRemap_eq]

/-- On the master only the number of a line hits it. -/
theorem hits_masterLine_iff {irq : BitVec 8} :
    Hits irq (masterLine n) ↔ irq = irqLine (masterLine n) := by
  constructor
  · intro h
    rw [Hits, if_pos (show (masterLine n).val < 8 from n.isLt)] at h
    exact BitVec.eq_of_toNat_eq (h.trans (irqLine_toNat _).symm)
  · rintro rfl
    exact hits_irqLine _

theorem ones_bit (n : Fin 8) : (0xFF#8).getLsbD n = true := by
  decide +revert

/-- After `apic_init` has disabled them, the controllers are silent: an interrupt can only be the
spurious one of the master, and nothing goes into service. -/
theorem disabled_silent {es : List PicEvent}
    (h : Run PicStep ⟨picDisable (picRemap p), none⟩ es ⟨r, none⟩)
    (hes : ∀ line, .clearMask (irqLine line) ∉ es) :
    r.acknowledge = (r, lineVector 7) := by
  have heq := picDisable_picRemap p
  have hs : Sound ⟨picDisable (picRemap p), none⟩ := by
    rw [heq]
    exact ⟨⟨rfl, rfl, rfl, rfl, rfl, rfl, rfl⟩, rfl, rfl⟩
  have hmasked : ∀ n, masked r (masterLine n) = true := by
    intro n
    have hclosed : ∀ irq, .clearMask irq ∈ es → ¬ Hits irq (masterLine n) :=
      fun irq hmem hhits => hes (masterLine n) (hits_masterLine_iff.mp hhits ▸ hmem)
    refine masked_run h hs hclosed ?_
    simp only [heq, masked, lineBit_masterLine, ones_bit]
  have hr := Sound.run h hs
  have hnone : r.master.request = none := by
    cases hreq : r.master.request with
    | none => rfl
    | some n =>
      have hopen := (of_request_eq_some hreq).2
      have hclosed := hmasked n
      rw [masked, lineBit_masterLine, hopen] at hclosed
      cases hclosed
  have hbase : r.master.base = 0x20#8 := hr.configured.master_base
  simp only [Pair.acknowledge, Chip.acknowledge, hnone, hbase]
  rfl

theorem disabled_silent_timer :
    ((picDisable (picRemap idlePair)).raise 0).acknowledge =
      ((picDisable (picRemap idlePair)).raise 0, lineVector 7) :=
  disabled_silent (Run.stepL (PicStep.raise (picDisable (picRemap idlePair)) none 0) (Run.refl _))
    (by simp)

end Pic

end KnutOS
