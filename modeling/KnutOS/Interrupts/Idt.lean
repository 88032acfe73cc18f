import KnutOS.Interrupts.Isr
import Mathlib.Data.List.Induction

/-! The interrupt descriptor table (`interrupts/idt.c`), filled from the table of stubs in
`interrupts/isr_asm.s`. -/
namespace KnutOS

open Foundation Foundation.X86

/-- `struct IDT_Descriptor`. -/
structure IdtDescriptor where
  offset15_0 : BitVec 16
  selector : BitVec 16
  ist : BitVec 8
  typeAndAttributes : BitVec 8
  offset31_16 : BitVec 16
  offset63_32 : BitVec 32
  zero : BitVec 32

/-- The words from `_isr_names_asm` on: the addresses of `_ISR0` to `_ISR47`, and then whatever the
linker has put behind them. -/
def isrNamesAsm (isr behind : ℕ → Word) (index : ℕ) : Word :=
  if index < 48 then isr index else behind index

def createDescriptor (isrNames : ℕ → Word) (idt : BitVec 8 → IdtDescriptor) (index : BitVec 8)
    (typeAndAttributes : BitVec 8) : BitVec 8 → IdtDescriptor :=
  let offset := isrNames index.toNat
  Function.update idt index
    { offset15_0 := (offset &&& 0xFFFF#64).setWidth 16
      selector := 0x08#16
      ist := 0#8
      typeAndAttributes := typeAndAttributes
      offset31_16 := ((offset >>> 16) &&& 0xFFFF#64).setWidth 16
      offset63_32 := ((offset >>> 32) &&& 0xFFFFFFFF#64).setWidth 32
      zero := 0#32 }

/-- The calls of `create_descriptor`: 32 exceptions, 16 IRQs and the spurious interrupt of the
APIC. -/
def idtVectors : List (BitVec 8) :=
  (List.range 32).map (BitVec.ofNat 8) ++ (List.range' 32 16).map (BitVec.ofNat 8) ++ [255#8]

def idtInit (isrNames : ℕ → Word) (idt : BitVec 8 → IdtDescriptor) : BitVec 8 → IdtDescriptor :=
  idtVectors.foldl (fun idt index => createDescriptor isrNames idt index 0x8E#8) idt

namespace Idt

/-- The address that the CPU puts together from a descriptor. -/
def handlerAddress (d : IdtDescriptor) : Word := d.offset63_32 ++ d.offset31_16 ++ d.offset15_0

variable {isrNames isr behind : ℕ → Word} {idt : BitVec 8 → IdtDescriptor} {v : BitVec 8}
  {l : List (BitVec 8)}

theorem append_halves (x : Word) :
    (x >>> 32).setWidth 32 ++ (x >>> 16).setWidth 16 ++ x.setWidth 16 = x := by
  apply BitVec.eq_of_getLsbD_eq
  intro i hi
  simp only [BitVec.getLsbD_append, BitVec.getLsbD_setWidth, BitVec.getLsbD_ushiftRight]
  grind

/-- No bit of the address is lost between the three fields. -/
theorem createDescriptor_address (isrNames : ℕ → Word) (idt : BitVec 8 → IdtDescriptor) (v a : BitVec 8) :
    handlerAddress (createDescriptor isrNames idt v a v) = isrNames v.toNat := by
  have h₁ := setWidth_and_low (isrNames v.toNat) 16 (by decide)
  have h₂ := setWidth_and_low (isrNames v.toNat >>> 16) 16 (by decide)
  have h₃ := setWidth_and_low (isrNames v.toNat >>> 32) 32 (by decide)
  simp only [Nat.reducePow, Nat.reduceSub] at h₁ h₂ h₃
  simp only [createDescriptor, Function.update_self, handlerAddress, h₁, h₂, h₃]
  exact append_halves (isrNames v.toNat)

/-- The last call for a vector decides, and no call is for another one. -/
theorem foldl_address (hv : v ∈ l) :
    handlerAddress (l.foldl (fun idt index => createDescriptor isrNames idt index 0x8E#8) idt v) =
      isrNames v.toNat := by
  induction l using List.reverseRecOn with
  | nil => cases hv
  | append_singleton l u ih =>
    rw [List.foldl_append, List.foldl_cons, List.foldl_nil]
    by_cases huv : v = u
    · subst huv
      exact createDescriptor_address _ _ v _
    · have hmem : v ∈ l := by simpa [huv] using hv
      rw [createDescriptor, Function.update_of_ne huv]
      exact ih hmem

/-- Each stub leaves its own number on top of the stack. -/
theorem stub_pushes (n : ℕ) (m : Machine) :
    load64 (m.run (isrStub n)).mem ((m.run (isrStub n)).regs .rsp) = BitVec.ofNat 64 n := by
  have hempty : m.Holds [] := trivial
  rw [isrStub]
  split
  · exact (hempty.push (by simp) (BitVec.ofNat 64 n)).1
  · exact ((hempty.push (by simp) 0#64).push (by simp) (BitVec.ofNat 64 n)).1

/-- The gate is made from an entry of the table, and leads to the stub that pushes its vector. -/
def LeadsToOwnStub (isr behind : ℕ → Word) (idt : BitVec 8 → IdtDescriptor) (v : BitVec 8) : Prop :=
  v.toNat < 48 ∧ ∃ n < 48,
    handlerAddress (idtInit (isrNamesAsm isr behind) idt v) = isr n ∧
    ∀ m : Machine, load64 (m.run (isrStub n)).mem ((m.run (isrStub n)).regs .rsp) =
      BitVec.ofNat 64 v.toNat

/-- Wherever the stubs lie, every gate but the one of the spurious interrupt leads to its own. -/
theorem leadsToOwnStub_iff (isr behind : ℕ → Word) (idt : BitVec 8 → IdtDescriptor) (v : BitVec 8)
    (hv : v ∈ idtVectors) : LeadsToOwnStub isr behind idt v ↔ v ≠ 255#8 := by
  constructor
  · rintro ⟨hlt, _⟩ rfl
    exact absurd hlt (by decide)
  · intro hne
    have hlt : v.toNat < 48 := by
      simp only [idtVectors, List.mem_append, List.mem_map, List.mem_range, List.mem_range'_1,
        List.mem_singleton] at hv
      rcases hv with (⟨n, hn, rfl⟩ | ⟨n, hn, rfl⟩) | rfl
      · rw [BitVec.toNat_ofNat]
        omega
      · rw [BitVec.toNat_ofNat]
        omega
      · exact (hne rfl).elim
    refine ⟨hlt, v.toNat, hlt, ?_, stub_pushes v.toNat⟩
    rw [idtInit, foldl_address hv, isrNamesAsm, if_pos hlt]

/-- Stubs of eight bytes each from one address on. -/
def stubsAt (base : Word) (n : ℕ) : Word := base + BitVec.ofNat 64 (8 * n)

/-- The descriptors before `idt_init`. -/
def emptyIdt : BitVec 8 → IdtDescriptor := fun _ => ⟨0#16, 0#16, 0#8, 0#8, 0#16, 0#32, 0#32⟩

theorem leadsToOwnStub_pageFault :
    LeadsToOwnStub (stubsAt 0xFFFFFFFF80201000#64) (fun _ => 0#64) emptyIdt 14#8 :=
  (leadsToOwnStub_iff (stubsAt 0xFFFFFFFF80201000#64) (fun _ => 0#64) emptyIdt 14#8 (by decide)).mpr
    (by decide)

/-- The gate of vector 255 is made from what lies behind the table. -/
theorem leads_elsewhere : ¬ ∀ (isr behind : ℕ → Word) (idt : BitVec 8 → IdtDescriptor) (v : BitVec 8),
    v ∈ idtVectors → LeadsToOwnStub isr behind idt v := by
  intro h
  have hspurious := h (stubsAt 0xFFFFFFFF80201000#64) (fun _ => 0#64) emptyIdt 255#8 (by decide)
  exact absurd hspurious.1 (by decide)

end Idt

end KnutOS
