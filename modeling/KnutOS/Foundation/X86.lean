import KnutOS.Foundation.Bytes
import Mathlib.Logic.Function.Basic

/-! A fragment of the x86-64 in ring 0: saving and restoring registers on the stack, the delivery
of an interrupt, and the return from it. -/
namespace Foundation.X86

inductive Reg
  | rax | rbx | rcx | rdx | rbp | rdi | rsi | rsp
  | r8 | r9 | r10 | r11 | r12 | r13 | r14 | r15
deriving DecidableEq

structure Machine where
  regs : Reg → BitVec 64
  rip : BitVec 64
  rflags : BitVec 64
  cs : BitVec 16
  ss : BitVec 16
  mem : Bytes

inductive Instr
  | cld
  | push (r : Reg)
  | pushImm (v : BitVec 64)
  | pop (r : Reg)
  | mov (dst src : Reg)
  | add (dst : Reg) (v : BitVec 64)
  | iretq

namespace Machine

def setReg (m : Machine) (r : Reg) (v : BitVec 64) : Machine :=
  { m with regs := Function.update m.regs r v }

def push (m : Machine) (v : BitVec 64) : Machine :=
  { m.setReg .rsp (m.regs .rsp - 8#64) with mem := store64 m.mem (m.regs .rsp - 8#64) v }

def pop (m : Machine) (r : Reg) : Machine :=
  (m.setReg .rsp (m.regs .rsp + 8#64)).setReg r (load64 m.mem (m.regs .rsp))

/-- An interrupt gate in ring 0: the stack pointer is aligned to 16 bytes, the frame goes onto the
stack, and TF, IF, NT, RF and VM are cleared. -/
def interrupt (m : Machine) (gate : BitVec 64) (selector : BitVec 16)
    (errorCode : Option (BitVec 64)) : Machine :=
  let s := m.setReg .rsp (m.regs .rsp &&& ~~~15#64)
  let s := s.push (m.ss.setWidth 64)
  let s := s.push (m.regs .rsp)
  let s := s.push m.rflags
  let s := s.push (m.cs.setWidth 64)
  let s := s.push m.rip
  let s := errorCode.elim s s.push
  { s with rip := gate, cs := selector, rflags := m.rflags &&& ~~~0x34300#64 }

def iretq (m : Machine) : Machine :=
  let sp := m.regs .rsp
  { m.setReg .rsp (load64 m.mem (sp + 24#64)) with
    rip := load64 m.mem sp
    cs := (load64 m.mem (sp + 8#64)).setWidth 16
    rflags := load64 m.mem (sp + 16#64)
    ss := (load64 m.mem (sp + 32#64)).setWidth 16 }

/-- One instruction of straight-line code. Where the code lies in memory does not matter, so `rip`
changes with `iretq` only; the flags that `add` sets are left out. -/
def exec (m : Machine) : Instr → Machine
  | .cld => { m with rflags := m.rflags &&& ~~~0x400#64 }
  | .push r => m.push (m.regs r)
  | .pushImm v => m.push v
  | .pop r => m.pop r
  | .mov dst src => m.setReg dst (m.regs src)
  | .add dst v => m.setReg dst (m.regs dst + v)
  | .iretq => m.iretq

def run (m : Machine) (code : List Instr) : Machine := code.foldl exec m

variable {m : Machine} {r : Reg} {rs : List Reg} {v : BitVec 64} {vs ws : List (BitVec 64)}

theorem run_append (m : Machine) (code code' : List Instr) :
    m.run (code ++ code') = (m.run code).run code' := List.foldl_append

@[simp] theorem run_singleton (m : Machine) (i : Instr) : m.run [i] = m.exec i := rfl

@[simp] theorem setReg_mem (m : Machine) (r : Reg) (v : BitVec 64) : (m.setReg r v).mem = m.mem := rfl

@[simp] theorem setReg_self (m : Machine) (r : Reg) (v : BitVec 64) : (m.setReg r v).regs r = v := by
  simp [setReg]

theorem setReg_other (m : Machine) {r' : Reg} (v : BitVec 64) (h : r' ≠ r) :
    (m.setReg r v).regs r' = m.regs r' := by
  simp [setReg, Function.update_of_ne h]

@[simp] theorem push_rsp (m : Machine) (v : BitVec 64) :
    (m.push v).regs .rsp = m.regs .rsp - 8#64 := setReg_self m .rsp _

theorem push_regs (m : Machine) (v : BitVec 64) (hr : r ≠ .rsp) :
    (m.push v).regs r = m.regs r := setReg_other m _ hr

theorem pop_rsp (m : Machine) (hr : r ≠ .rsp) : (m.pop r).regs .rsp = m.regs .rsp + 8#64 := by
  rw [pop, setReg_other _ _ hr.symm, setReg_self]

theorem pop_self (m : Machine) (r : Reg) : (m.pop r).regs r = load64 m.mem (m.regs .rsp) :=
  setReg_self _ r _

theorem pop_other (m : Machine) {r' : Reg} (hr : r' ≠ r) (hsp : r' ≠ .rsp) :
    (m.pop r).regs r' = m.regs r' := by
  rw [pop, setReg_other _ _ hr, setReg_other _ _ hsp]

/-- The words `vs` lie on the stack, the first one on top. -/
def Holds (m : Machine) (vs : List (BitVec 64)) : Prop := Stacked m.mem (m.regs .rsp) vs

theorem Holds.push (h : m.Holds vs) (hroom : 8 * (vs.length + 1) ≤ 2 ^ 64) (v : BitVec 64) :
    (m.push v).Holds (v :: vs) := by
  rw [Holds, push_rsp]
  exact Stacked.push h hroom v

theorem Holds.pop (h : m.Holds (v :: vs)) (hr : r ≠ .rsp) :
    (m.pop r).regs r = v ∧ (m.pop r).Holds vs := by
  obtain ⟨hv, htail⟩ := h
  refine ⟨(pop_self m r).trans hv, ?_⟩
  rwa [Holds, pop_rsp m hr]

/-- Dropping two words. -/
theorem Holds.add_rsp {u w : BitVec 64} (h : m.Holds (u :: w :: vs)) :
    (m.exec (.add .rsp 16#64)).Holds vs := by
  rw [Holds, exec, setReg_self, setReg_mem]
  have hwords : Stacked m.mem (m.regs .rsp) ([u, w] ++ vs) := h
  exact hwords.drop

/-- Saving registers puts them on the stack, the last one on top, and changes none of them. -/
theorem run_push (hrs : .rsp ∉ rs) (h : m.Holds vs)
    (hroom : 8 * (vs.length + rs.length) ≤ 2 ^ 64) :
    (m.run (rs.map .push)).Holds ((rs.map m.regs).reverse ++ vs) ∧
      (∀ r, r ≠ .rsp → (m.run (rs.map .push)).regs r = m.regs r) := by
  induction rs generalizing m vs with
  | nil => exact ⟨h, fun _ _ => rfl⟩
  | cons r rs ih =>
    rw [List.length_cons] at hroom
    obtain ⟨_, hrs⟩ := not_or.mp (mt List.mem_cons.mpr hrs)
    have hpush : (m.push (m.regs r)).Holds (m.regs r :: vs) := h.push (by omega) _
    obtain ⟨hholds, hregs⟩ := ih hrs hpush (by rw [List.length_cons]; omega)
    have hsame : rs.map (m.push (m.regs r)).regs = rs.map m.regs := by
      apply List.map_congr_left
      intro r' hr'
      apply push_regs
      rintro rfl
      exact hrs hr'
    refine ⟨?_, fun r' hr' => (hregs r' hr').trans (push_regs m _ hr')⟩
    rw [hsame] at hholds
    simp only [List.map_cons, List.reverse_cons, List.append_assoc]
    exact hholds

/-- Restoring registers takes their values off the stack, one after the other. -/
theorem run_pop (hrs : .rsp ∉ rs) (hnodup : rs.Nodup) (hlen : vs.length = rs.length)
    (h : m.Holds (vs ++ ws)) :
    (m.run (rs.map .pop)).Holds ws ∧
      (∀ p ∈ rs.zip vs, (m.run (rs.map .pop)).regs p.1 = p.2) ∧
      (∀ r, r ∉ rs → r ≠ .rsp → (m.run (rs.map .pop)).regs r = m.regs r) := by
  induction rs generalizing m vs with
  | nil =>
    obtain rfl := List.length_eq_zero_iff.mp hlen
    exact ⟨h, by simp, fun _ _ _ => rfl⟩
  | cons r rs ih =>
    cases vs with
    | nil => cases hlen
    | cons v vs =>
      obtain ⟨hr, hrs⟩ := not_or.mp (mt List.mem_cons.mpr hrs)
      obtain ⟨hfresh, hnodup⟩ := List.nodup_cons.mp hnodup
      obtain ⟨hv, hholds⟩ := Holds.pop h (Ne.symm hr)
      obtain ⟨hw, hzip, hregs⟩ := ih hrs hnodup (Nat.succ_injective hlen) hholds
      refine ⟨hw, ?_, ?_⟩
      · intro p hp
        rcases List.mem_cons.mp hp with rfl | hp
        · exact (hregs r hfresh (Ne.symm hr)).trans hv
        · exact hzip p hp
      · intro r' hr' hsp
        obtain ⟨hne, hr'⟩ := not_or.mp (mt List.mem_cons.mpr hr')
        exact (hregs r' hr' hsp).trans (pop_other m hne hsp)

/-- What an interrupt leaves on the stack. -/
theorem interrupt_holds (m : Machine) (gate : BitVec 64) (selector : BitVec 16)
    (errorCode : Option (BitVec 64)) :
    (m.interrupt gate selector errorCode).Holds (errorCode.toList ++
      [m.rip, m.cs.setWidth 64, m.rflags, m.regs .rsp, m.ss.setWidth 64]) := by
  have hempty : (m.setReg .rsp (m.regs .rsp &&& ~~~15#64)).Holds [] := trivial
  have hstack := (hempty.push (by simp) (m.ss.setWidth 64)).push (by simp) (m.regs .rsp)
  have hframe := ((hstack.push (by simp) m.rflags).push (by simp) (m.cs.setWidth 64)).push
    (by simp) m.rip
  cases errorCode with
  | none => exact hframe
  | some v => exact hframe.push (by simp) v

theorem interrupt_regs (m : Machine) (gate : BitVec 64) (selector : BitVec 16)
    (errorCode : Option (BitVec 64)) (hr : r ≠ .rsp) :
    (m.interrupt gate selector errorCode).regs r = m.regs r := by
  cases errorCode <;> simp [interrupt, push_regs _ _ hr, setReg_other _ _ hr]

/-- The return from an interrupt takes the frame off the stack. -/
theorem iretq_eq {rip cs rflags sp ss : BitVec 64}
    (h : m.Holds (rip :: cs :: rflags :: sp :: ss :: vs)) :
    m.iretq.rip = rip ∧ m.iretq.cs = cs.setWidth 16 ∧ m.iretq.rflags = rflags ∧
      m.iretq.regs .rsp = sp ∧ m.iretq.ss = ss.setWidth 16 := by
  obtain ⟨h0, h1, h2, h3, h4, _⟩ := h
  simp only [BitVec.add_assoc, BitVec.reduceAdd] at h2 h3 h4
  refine ⟨h0, congrArg (BitVec.setWidth 16) h1, h2, ?_, congrArg (BitVec.setWidth 16) h4⟩
  exact (setReg_self m .rsp _).trans h3

theorem iretq_regs (m : Machine) (hr : r ≠ .rsp) : m.iretq.regs r = m.regs r :=
  setReg_other m _ hr

end Machine

end Foundation.X86
