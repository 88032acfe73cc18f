import KnutOS.Interrupts.Isr

/-! What `isr_handler` reads in the `interrupt_cpu_state_t` that it is given. -/
namespace KnutOS.Isr

open Foundation Foundation.X86

variable {mem : Bytes} {sp : Word} {m : Machine}

/-- The exceptions for which the CPU pushes an error code. -/
def cpuErrorCode (vector : ℕ) (code : Word) : Option Word :=
  if vector ∈ [8, 10, 11, 12, 13, 14, 17, 21] then some code else none

/-- The registers and the data of the interrupt under their own names. Without an error code the
stub leaves a zero in its place. -/
def interrupted (vector : ℕ) (errorCode : Option Word) (m : Machine) : InterruptCpuState where
  r15 := m.regs .r15
  r14 := m.regs .r14
  r13 := m.regs .r13
  r12 := m.regs .r12
  r11 := m.regs .r11
  r10 := m.regs .r10
  r9 := m.regs .r9
  r8 := m.regs .r8
  rbp := m.regs .rbp
  rdi := m.regs .rdi
  rsi := m.regs .rsi
  rdx := m.regs .rdx
  rcx := m.regs .rcx
  rbx := m.regs .rbx
  rax := m.regs .rax
  isrNumber := BitVec.ofNat 64 vector
  errorCode := errorCode.getD 0#64
  rip := m.rip
  cs := m.cs.setWidth 64
  rflags := m.rflags
  rsp := m.regs .rsp
  ss := m.ss.setWidth 64

/-- The fields of the struct are the words of the stack, from the stack pointer up. -/
theorem interruptCpuState_eq {c : InterruptCpuState}
    (h : Stacked mem sp [c.r15, c.r14, c.r13, c.r12, c.r11, c.r10, c.r9, c.r8, c.rbp, c.rdi, c.rsi,
      c.rdx, c.rcx, c.rbx, c.rax, c.isrNumber, c.errorCode, c.rip, c.cs, c.rflags, c.rsp, c.ss]) :
    interruptCpuState mem sp = c := by
  simp only [Stacked, BitVec.add_assoc, BitVec.reduceAdd] at h
  simp only [interruptCpuState, BitVec.add_zero, h]

/-- `pusha64` pushes `rbp` before `rdi` and `rsi`, and the struct has it in front of them as well. -/
theorem atHandler_state (m : Machine) (gate : Word) (vector : ℕ) (code : Word) :
    interruptCpuState (atHandler gate vector (cpuErrorCode vector code) m).mem
        ((atHandler gate vector (cpuErrorCode vector code) m).regs .rdi) =
      { interrupted vector (cpuErrorCode vector code) m with
        rbp := m.regs .rsi
        rsi := m.regs .rbp } := by
  apply interruptCpuState_eq
  apply atHandler_stacked
  rw [cpuErrorCode]
  split <;> simp_all

/-- The handler finds every register and datum in its field exactly when `rbp` and `rsi` are equal. -/
theorem state_named_iff (m : Machine) (gate : Word) (vector : ℕ) (code : Word) :
    interruptCpuState (atHandler gate vector (cpuErrorCode vector code) m).mem
        ((atHandler gate vector (cpuErrorCode vector code) m).regs .rdi) =
      interrupted vector (cpuErrorCode vector code) m ↔ m.regs .rbp = m.regs .rsi := by
  rw [atHandler_state]
  constructor
  · intro h
    exact congrArg InterruptCpuState.rsi h
  · intro h
    rw [interrupted, h]

/-- A page fault while `rbp` is 1 and `rsi` is 0. -/
theorem state_misnamed : ¬ ∀ (m : Machine) (gate : Word) (vector : ℕ) (code : Word),
    interruptCpuState (atHandler gate vector (cpuErrorCode vector code) m).mem
        ((atHandler gate vector (cpuErrorCode vector code) m).regs .rdi) =
      interrupted vector (cpuErrorCode vector code) m := by
  intro h
  have hstate := h (oneRegister .rbp) 0x300000#64 14 2#64
  rw [atHandler_state] at hstate
  exact absurd (congrArg InterruptCpuState.rsi hstate) (by decide)

end KnutOS.Isr
