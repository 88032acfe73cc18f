import KnutOS.Foundation.X86
import KnutOS.Memory.Mem

/-! The way of an interrupt through the kernel: the stubs in `interrupts/isr_asm.s` with the macros
of `assembly/definitions.inc`, and `isr_handler` in `interrupts/interrupts.c`. -/
namespace KnutOS

open Foundation Foundation.X86

def pusha64 : List Instr :=
  [.push .rax, .push .rbx, .push .rcx, .push .rdx, .push .rbp, .push .rdi, .push .rsi,
    .push .r8, .push .r9, .push .r10, .push .r11, .push .r12, .push .r13, .push .r14, .push .r15]

def popa64 : List Instr :=
  [.pop .rax, .pop .rbx, .pop .rcx, .pop .rdx, .pop .rbp, .pop .rdi, .pop .rsi,
    .pop .r8, .pop .r9, .pop .r10, .pop .r11, .pop .r12, .pop .r13, .pop .r14, .pop .r15]

/-- `_isr_handler_asm` up to the call. -/
def isrEntry : List Instr := [.cld] ++ pusha64 ++ [.mov .rdi .rsp]

/-- `_isr_handler_asm` after the call. -/
def isrExit : List Instr := [.mov .rsp .rax] ++ popa64 ++ [.add .rsp 16#64, .iretq]

/-- The parameter is the call of `isr_handler`, which does not always return. -/
def isrHandlerAsm (handler : Machine → Option Machine) (m : Machine) : Option Machine :=
  (handler (m.run isrEntry)).map fun m => m.run isrExit

def isrStubErr (n : ℕ) : List Instr := [.pushImm (BitVec.ofNat 64 n)]

def isrStubNoErr (n : ℕ) : List Instr := [.pushImm 0#64, .pushImm (BitVec.ofNat 64 n)]

/-- `_ISR0` to `_ISR47`, without the jump. -/
def isrStub (n : ℕ) : List Instr :=
  if n ∈ [8, 10, 11, 12, 13, 14, 17, 21] then isrStubErr n else isrStubNoErr n

/-- `interrupt_cpu_state_t`. -/
structure InterruptCpuState where
  r15 : Word
  r14 : Word
  r13 : Word
  r12 : Word
  r11 : Word
  r10 : Word
  r9 : Word
  r8 : Word
  rbp : Word
  rdi : Word
  rsi : Word
  rdx : Word
  rcx : Word
  rbx : Word
  rax : Word
  isrNumber : Word
  errorCode : Word
  rip : Word
  cs : Word
  rflags : Word
  rsp : Word
  ss : Word

/-- `*(interrupt_cpu_state_t *)rsp`: 22 words, one after the other. -/
def interruptCpuState (m : Bytes) (rsp : Word) : InterruptCpuState where
  r15 := load64 m (rsp + 0#64)
  r14 := load64 m (rsp + 8#64)
  r13 := load64 m (rsp + 16#64)
  r12 := load64 m (rsp + 24#64)
  r11 := load64 m (rsp + 32#64)
  r10 := load64 m (rsp + 40#64)
  r9 := load64 m (rsp + 48#64)
  r8 := load64 m (rsp + 56#64)
  rbp := load64 m (rsp + 64#64)
  rdi := load64 m (rsp + 72#64)
  rsi := load64 m (rsp + 80#64)
  rdx := load64 m (rsp + 88#64)
  rcx := load64 m (rsp + 96#64)
  rbx := load64 m (rsp + 104#64)
  rax := load64 m (rsp + 112#64)
  isrNumber := load64 m (rsp + 120#64)
  errorCode := load64 m (rsp + 128#64)
  rip := load64 m (rsp + 136#64)
  cs := load64 m (rsp + 144#64)
  rflags := load64 m (rsp + 152#64)
  rsp := load64 m (rsp + 160#64)
  ss := load64 m (rsp + 168#64)

/-- `isr_handler`, which halts for good on an exception. The drivers it calls are parameters. -/
def isrHandler (keyboardIrqHandler : Machine → Machine) (picSignalEoi : Word → Machine → Machine)
    (m : Machine) : Option Machine :=
  let rsp := m.regs .rdi
  let cpu := interruptCpuState m.mem rsp
  if cpu.isrNumber ≤ 31#64 then none
  else
    let m :=
      if 32#64 ≤ cpu.isrNumber ∧ cpu.isrNumber ≤ 47#64 then
        let m := if cpu.isrNumber = 33#64 then keyboardIrqHandler m else m
        picSignalEoi (interruptCpuState m.mem rsp).isrNumber m
      else m
    some (m.setReg .rax rsp)

/-- Interrupt `vector` arrives at its gate, which `create_descriptor` gives the selector 0x08. -/
def isr (handler : Machine → Option Machine) (gate : Word) (vector : ℕ) (m : Machine) :
    Option Machine :=
  isrHandlerAsm handler ((m.interrupt gate 0x08#16 none).run (isrStub vector))

namespace Isr

variable {handler : Machine → Option Machine} {gate : Word} {vector : ℕ} {m s : Machine}
  {vs : List Word} {r : Reg}

/-- The registers of both macros, in the order of both. -/
def saved : List Reg :=
  [.rax, .rbx, .rcx, .rdx, .rbp, .rdi, .rsi, .r8, .r9, .r10, .r11, .r12, .r13, .r14, .r15]

theorem mem_saved : r ∈ saved ↔ r ≠ .rsp := by
  cases r <;> decide

/-- What lies above the registers. -/
def frame (vector : ℕ) (errorCode : Word) (m : Machine) : List Word :=
  [BitVec.ofNat 64 vector, errorCode, m.rip, m.cs.setWidth 64, m.rflags, m.regs .rsp,
    m.ss.setWidth 64]

theorem pusha64_eq : pusha64 = saved.map .push := rfl

theorem popa64_eq : popa64 = saved.map .pop := rfl

theorem rsp_not_saved : Reg.rsp ∉ saved := by decide

theorem saved_nodup : saved.Nodup := by decide

/-- The stack that `isr_handler` gets. -/
theorem entry_holds (h : m.Holds vs) (hlen : vs.length = 7) :
    (m.run isrEntry).Holds ((saved.map m.regs).reverse ++ vs) ∧
      (m.run isrEntry).regs .rdi = (m.run isrEntry).regs .rsp := by
  have hcld : (m.exec .cld).Holds vs := h
  have hroom : 8 * (vs.length + saved.length) ≤ 2 ^ 64 := by
    rw [hlen]
    decide
  obtain ⟨hpush, _⟩ := Machine.run_push rsp_not_saved hcld hroom
  simp only [isrEntry, Machine.run_append, Machine.run_singleton, pusha64_eq]
  generalize (m.exec .cld).run (saved.map .push) = s at hpush ⊢
  have hrsp : (s.exec (.mov .rdi .rsp)).regs .rsp = s.regs .rsp :=
    Machine.setReg_other s _ (by decide)
  refine ⟨?_, (Machine.setReg_self s .rdi _).trans hrsp.symm⟩
  rw [Machine.Holds, hrsp]
  exact hpush

/-- What comes back from the stack. -/
theorem exit_eq {n e rip cs rflags sp ss : Word} (hlen : vs.length = 15)
    (h : Stacked m.mem (m.regs .rax) (vs ++ [n, e, rip, cs, rflags, sp, ss])) :
    (∀ p ∈ saved.zip vs, (m.run isrExit).regs p.1 = p.2) ∧
      (m.run isrExit).regs .rsp = sp ∧ (m.run isrExit).rip = rip ∧
      (m.run isrExit).rflags = rflags ∧ (m.run isrExit).cs = cs.setWidth 16 ∧
      (m.run isrExit).ss = ss.setWidth 16 := by
  have hmov : (m.exec (.mov .rsp .rax)).Holds (vs ++ [n, e, rip, cs, rflags, sp, ss]) := by
    rw [Machine.Holds, Machine.exec, Machine.setReg_self, Machine.setReg_mem]
    exact h
  obtain ⟨hholds, hzip, _⟩ := Machine.run_pop rsp_not_saved saved_nodup hlen hmov
  simp only [isrExit, Machine.run_append, Machine.run_singleton, popa64_eq]
  generalize (m.exec (.mov .rsp .rax)).run (saved.map .pop) = s at hholds hzip ⊢
  have hrun : s.run [.add .rsp 16#64, .iretq] = (s.exec (.add .rsp 16#64)).iretq := rfl
  rw [hrun]
  obtain ⟨hrip, hcs, hrflags, hrsp, hss⟩ := Machine.iretq_eq hholds.add_rsp
  refine ⟨fun p hp => ?_, hrsp, hrip, hrflags, hcs, hss⟩
  have hne : p.1 ≠ .rsp := mem_saved.mp (List.of_mem_zip hp).1
  rw [Machine.iretq_regs _ hne, Machine.exec, Machine.setReg_other _ _ hne]
  exact hzip p hp

/-- The register that `pusha64` pushes where `popa64` pops `r`. -/
def mirror : Reg → Reg
  | .rax => .r15
  | .rbx => .r14
  | .rcx => .r13
  | .rdx => .r12
  | .rbp => .r11
  | .rdi => .r10
  | .rsi => .r9
  | .r8 => .r8
  | .r9 => .rsi
  | .r10 => .rdi
  | .r11 => .rbp
  | .r12 => .rdx
  | .r13 => .rcx
  | .r14 => .rbx
  | .r15 => .rax
  | .rsp => .rsp

theorem zip_reverse (m : Machine) :
    saved.zip (saved.map m.regs).reverse = saved.map fun r => (r, m.regs (mirror r)) := rfl

/-- `isr_handler` on an interrupt from the PIC: it returns the stack pointer it is given and leaves
the `interrupt_cpu_state_t` there alone. Nothing is said about its other effects. -/
def KeepsFrame (handler : Machine → Option Machine) : Prop :=
  ∀ m : Machine, 32#64 ≤ (interruptCpuState m.mem (m.regs .rdi)).isrNumber →
    (interruptCpuState m.mem (m.regs .rdi)).isrNumber ≤ 47#64 →
    ∃ m', handler m = some m' ∧ m'.regs .rax = m.regs .rdi ∧
      ∀ k < 176, m'.mem (m.regs .rdi + BitVec.ofNat 64 k) = m.mem (m.regs .rdi + BitVec.ofNat 64 k)

theorem isrNumber_eq {us : List Word} {n sp : Word} {mem : Bytes} (hlen : us.length = 15)
    (h : Stacked mem sp (us ++ n :: vs)) : (interruptCpuState mem sp).isrNumber = n := by
  have hdrop := Stacked.drop h
  rw [hlen] at hdrop
  exact hdrop.1

/-- The machine where the stub jumps to `_isr_handler_asm`, if the CPU pushes an error code exactly
for the stubs that expect one. -/
theorem stub_holds (m : Machine) (gate : Word) {errorCode : Option Word}
    (hcode : errorCode.isSome = true ↔ vector ∈ [8, 10, 11, 12, 13, 14, 17, 21]) :
    ((m.interrupt gate 0x08#16 errorCode).run (isrStub vector)).Holds
        (frame vector (errorCode.getD 0#64) m) ∧
      ∀ r, r ≠ Reg.rsp →
        ((m.interrupt gate 0x08#16 errorCode).run (isrStub vector)).regs r = m.regs r := by
  have hint := Machine.interrupt_holds m gate 0x08#16 errorCode
  have hregs := fun r (hr : r ≠ Reg.rsp) => Machine.interrupt_regs m gate 0x08#16 errorCode hr
  cases errorCode with
  | none =>
    have hstub : isrStub vector = isrStubNoErr vector := if_neg fun h => by simpa using hcode.mpr h
    rw [hstub]
    generalize m.interrupt gate 0x08#16 none = s at hint hregs ⊢
    have hzero := hint.push (by simp) 0#64
    refine ⟨hzero.push (by simp) (BitVec.ofNat 64 vector), fun r hr => ?_⟩
    exact ((Machine.push_regs _ _ hr).trans (Machine.push_regs _ _ hr)).trans (hregs r hr)
  | some code =>
    have hstub : isrStub vector = isrStubErr vector := if_pos (hcode.mp rfl)
    rw [hstub]
    generalize m.interrupt gate 0x08#16 (some code) = s at hint hregs ⊢
    refine ⟨hint.push (by simp) (BitVec.ofNat 64 vector), fun r hr => ?_⟩
    exact (Machine.push_regs _ _ hr).trans (hregs r hr)

/-- The machine at the call of `isr_handler`, where the CPU may have pushed an error code. -/
def atHandler (gate : Word) (vector : ℕ) (errorCode : Option Word) (m : Machine) : Machine :=
  ((m.interrupt gate 0x08#16 errorCode).run (isrStub vector)).run isrEntry

/-- The stack pointer that `isr_handler` gets points to the registers and the frame. -/
theorem atHandler_stacked (m : Machine) (gate : Word) {errorCode : Option Word}
    (hcode : errorCode.isSome = true ↔ vector ∈ [8, 10, 11, 12, 13, 14, 17, 21]) :
    Stacked (atHandler gate vector errorCode m).mem ((atHandler gate vector errorCode m).regs .rdi)
      ((saved.map m.regs).reverse ++ frame vector (errorCode.getD 0#64) m) := by
  obtain ⟨hframe, hregs⟩ := stub_holds m gate hcode
  obtain ⟨hholds, hrdi⟩ := entry_holds hframe rfl
  have hsaved := List.map_congr_left fun r hr => hregs r (mem_saved.mp hr)
  rw [hsaved] at hholds
  rw [atHandler, hrdi]
  exact hholds

/-- The machine at the call of `isr_handler` on an interrupt from the PIC. -/
def atCall (gate : Word) (vector : ℕ) (m : Machine) : Machine :=
  ((m.interrupt gate 0x08#16 none).run (isrStub vector)).run isrEntry

/-- An interrupt from the PIC comes without an error code. -/
theorem atCall_stacked (m : Machine) (gate : Word) (hlo : 32 ≤ vector) :
    Stacked (atCall gate vector m).mem ((atCall gate vector m).regs .rdi)
      ((saved.map m.regs).reverse ++ frame vector 0#64 m) := by
  apply atHandler_stacked m gate
  simp only [Option.isSome_none, Bool.false_eq_true, List.mem_cons, List.not_mem_nil, or_false,
    false_iff]
  omega

/-- What an interrupt does to the registers: it turns the order of the saved ones around. -/
theorem isr_eq (hh : KeepsFrame handler) (gate : Word) (hlo : 32 ≤ vector) (hhi : vector ≤ 47)
    (m : Machine) :
    ∃ m', isr handler gate vector m = some m' ∧ (∀ r, m'.regs r = m.regs (mirror r)) ∧
      m'.rip = m.rip ∧ m'.rflags = m.rflags ∧ m'.cs = m.cs ∧ m'.ss = m.ss := by
  have hvec : (BitVec.ofNat 64 vector).toNat = vector := by
    rw [BitVec.toNat_ofNat]
    omega
  have hholds := atCall_stacked m gate hlo
  have hcall : isr handler gate vector m = (handler (atCall gate vector m)).map (·.run isrExit) := rfl
  rw [hcall]
  generalize atCall gate vector m = s at hholds ⊢
  have hnum := isrNumber_eq rfl hholds
  obtain ⟨t, ht, hrax, hsame⟩ := hh s (by rw [hnum, BitVec.le_def, hvec]; exact hlo)
    (by rw [hnum, BitVec.le_def, hvec]; exact hhi)
  have hstack := hholds.congr hsame
  rw [← hrax] at hstack
  obtain ⟨hzip, hrsp, hrip, hrflags, hcs, hss⟩ := exit_eq rfl hstack
  rw [zip_reverse] at hzip
  refine ⟨t.run isrExit, by rw [ht]; rfl, fun r => ?_, hrip, hrflags, hcs.trans ?_, hss.trans ?_⟩
  · by_cases hr : r = .rsp
    · subst hr
      exact hrsp
    · exact hzip _ (List.mem_map_of_mem (mem_saved.mpr hr))
  · simp
  · simp

/-- The interrupted code finds its registers as they were. -/
def Transparent (handler : Machine → Option Machine) (gate : Word) (vector : ℕ) (m : Machine) :
    Prop :=
  ∃ m', isr handler gate vector m = some m' ∧ (∀ r, m'.regs r = m.regs r) ∧ m'.rip = m.rip ∧
    m'.rflags = m.rflags

/-- The registers read the same from both ends of `pusha64`. -/
def Palindromic (m : Machine) : Prop :=
  m.regs .rax = m.regs .r15 ∧ m.regs .rbx = m.regs .r14 ∧ m.regs .rcx = m.regs .r13 ∧
    m.regs .rdx = m.regs .r12 ∧ m.regs .rbp = m.regs .r11 ∧ m.regs .rdi = m.regs .r10 ∧
    m.regs .rsi = m.regs .r9

theorem palindromic_iff : Palindromic m ↔ ∀ r, m.regs (mirror r) = m.regs r := by
  constructor
  · rintro ⟨h1, h2, h3, h4, h5, h6, h7⟩ r
    cases r <;> simp [mirror, *]
  · intro h
    exact ⟨h .r15, h .r14, h .r13, h .r12, h .r11, h .r10, h .r9⟩

/-- The registers survive an interrupt exactly when they are palindromic. -/
theorem transparent_iff (handler : Machine → Option Machine) (hh : KeepsFrame handler)
    (gate : Word) (vector : ℕ) (hlo : 32 ≤ vector) (hhi : vector ≤ 47) (m : Machine) :
    Transparent handler gate vector m ↔ Palindromic m := by
  obtain ⟨m', heq, hregs, hrip, hrflags, _⟩ := isr_eq hh gate hlo hhi m
  rw [palindromic_iff]
  constructor
  · rintro ⟨t, ht, hsame, _⟩ r
    obtain rfl := Option.some.inj (heq.symm.trans ht)
    exact (hregs r).symm.trans (hsame r)
  · intro h
    exact ⟨m', heq, fun r => (hregs r).trans (h r), hrip, hrflags⟩

/-- With drivers that do not touch memory, `isr_handler` is such a handler. -/
theorem isrHandler_keepsFrame {keyboardIrqHandler : Machine → Machine}
    {picSignalEoi : Word → Machine → Machine}
    (hk : ∀ m, (keyboardIrqHandler m).mem = m.mem) (hp : ∀ n m, (picSignalEoi n m).mem = m.mem) :
    KeepsFrame (isrHandler keyboardIrqHandler picSignalEoi) := by
  intro m hlo hhi
  have hnot : ¬ (interruptCpuState m.mem (m.regs .rdi)).isrNumber ≤ 31#64 := by
    rw [BitVec.le_def] at hlo ⊢
    simp at hlo ⊢
    omega
  simp only [isrHandler, if_neg hnot, if_pos (And.intro hlo hhi)]
  refine ⟨_, rfl, Machine.setReg_self _ _ _, fun k _ => ?_⟩
  rw [Machine.setReg_mem, hp]
  split
  · rw [hk]
  · rfl

/-- The handler with drivers that do nothing but talk to ports. -/
def portHandler : Machine → Option Machine := isrHandler id fun _ m => m

theorem portHandler_keepsFrame : KeepsFrame portHandler :=
  isrHandler_keepsFrame (fun _ => rfl) fun _ _ => rfl

/-- A machine where one register besides `rsp` is set. -/
def oneRegister (r : Reg) : Machine where
  regs := Function.update (Function.update (fun _ => 0#64) .rsp 0x8000#64) r 1#64
  rip := 0x200000#64
  rflags := 0x202#64
  cs := 0x08#16
  ss := 0x10#16
  mem := fun _ => 0#8

/-- A timer interrupt while only `r8` is set. -/
theorem transparent_r8 : Transparent portHandler 0x300000#64 32 (oneRegister .r8) :=
  (transparent_iff portHandler portHandler_keepsFrame 0x300000#64 32 (by decide) (by decide)
    (oneRegister .r8)).mpr (by unfold Palindromic; decide)

/-- A timer interrupt while `rax` is set moves its value to `r15`. -/
theorem transparent_fails :
    ¬ ∀ handler : Machine → Option Machine, KeepsFrame handler → ∀ (gate : Word) (vector : ℕ),
      32 ≤ vector → vector ≤ 47 → ∀ m : Machine, Transparent handler gate vector m := by
  intro h
  obtain ⟨m', heq, hsame, _⟩ := h portHandler portHandler_keepsFrame 0x300000#64 32 (by decide)
    (by decide) (oneRegister .rax)
  obtain ⟨t, ht, hregs, _⟩ := isr_eq portHandler_keepsFrame 0x300000#64
    (show 32 ≤ 32 by decide) (by decide) (oneRegister .rax)
  obtain rfl := Option.some.inj (heq.symm.trans ht)
  have hrax := (hregs .rax).symm.trans (hsame .rax)
  exact absurd hrax (by decide)

end Isr

end KnutOS
