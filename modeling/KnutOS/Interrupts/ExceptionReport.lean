import KnutOS.Interrupts.CpuState
import KnutOS.Libk.KprintfPieces
import KnutOS.Libk.Strings

/-! What `isr_handler` in `interrupts/interrupts.c` reports of an exception, before it halts. -/
namespace KnutOS

open Foundation Foundation.X86

/-- `exceptions[]`. -/
def exceptionNames : List (List Char) :=
  ["#DE: Divide Error".toList, "#DB: Debug Exception".toList, " — : NMI Interrupt".toList,
    "#BP: Breakpoint".toList, "#OF: Overflow".toList, "#BR: BOUND Range Exceeded".toList,
    "#UD: Invalid Opcode (Undefined Opcode)".toList,
    "#NM: Device Not Available (No Math Coprocessor)".toList, "#DF: Double Fault".toList,
    "— : Coprocessor Segment Overrun (reserved)".toList, "#TS: Invalid TSS".toList,
    "#NP: Segment Not Present".toList, "#SS: Stack-Segment Fault".toList,
    "#GP: General Protection".toList, "#PF: Page Fault".toList,
    "— : (Intel reserved. Do not use.)".toList,
    "#MF: x87 FPU Floating-Point Error (Math Fault)".toList, "#AC: Alignment Check".toList,
    "#MC: Machine Check".toList, "#XM: SIMD Floating-Point Exception".toList,
    "#VE: Virtualization Exception".toList, "#CP: Control Protection Exception".toList] ++
  List.replicate 10 "— : Intel reserved. Do not use.".toList

def registerDump : CString :=
  literal ("⤷ rax: 0x%.16llx, rbx:    0x%.16llx, rcx: 0x%.16llx, rdx: 0x%.16llx\n".toList ++
    "⤷ rsi: 0x%.16llx, rdi:    0x%.16llx, rbp: 0x%.16llx, r8 : 0x%.16llx\n".toList ++
    "⤷ r9 : 0x%.16llx, r10:    0x%.16llx, r11: 0x%.16llx, r12: 0x%.16llx\n".toList ++
    "⤷ r13: 0x%.16llx, r14:    0x%.16llx, r15: 0x%.16llx, ss : 0x%.16llx\n".toList ++
    "⤷ rsp: 0x%.16llx, rflags: 0x%.16llx, cs : 0x%.16llx, rip: 0x%.16llx\n".toList)
    (by decide +kernel)

/-- The arguments of the dump. -/
def dumpedRegisters (cpu : InterruptCpuState) : List Word :=
  [cpu.rax, cpu.rbx, cpu.rcx, cpu.rdx, cpu.rsi, cpu.rdi, cpu.rbp, cpu.r8, cpu.r9, cpu.r10, cpu.r11,
    cpu.r12, cpu.r13, cpu.r14, cpu.r15, cpu.ss, cpu.rsp, cpu.rflags, cpu.cs, cpu.rip]

/-- The calls of `debug` and of `printk` for an exception, where `exceptions` are the addresses of
the names. -/
def exceptionReport (exceptions : ℕ → Word) (cpu : InterruptCpuState) : List (CString × List Word) :=
  [(literal "\n────────────────────────\n".toList (by decide), []),
    (literal "⚠ EXCEPTION OCCURRED! ⚠\n\n".toList (by decide), []),
    (literal "⤷ ISR-No. %d: %s\n".toList (by decide),
      [cpu.isrNumber, exceptions cpu.isrNumber.toNat]),
    (literal "⤷ Error code: 0x%.16llx\n\n\n".toList (by decide), [cpu.errorCode]),
    (literal "ℹ Register dump:\n\n".toList (by decide), []),
    (registerDump, dumpedRegisters cpu)]

namespace ExceptionReport

open Kprintf Strings

variable {strings : BitVec 64 → CString} {labels : List (List Byte)} {ws : List Word}

/-! Numbers between labels -/

/-- Each number behind its label. -/
def fieldsText (labels : List (List Byte)) (ws : List Word) : List Byte :=
  (List.zipWith (fun label w => label ++ hexText w) labels ws).flatten

def fieldPieces (labels : List (List Byte)) (h : ∀ label ∈ labels, Literal label) : List Piece :=
  (labels.pmap (fun label hl => literals label hl ++ [hexPiece]) h).flatten

theorem writes_fields (h : ∀ label ∈ labels, Literal label) (hlen : labels.length = ws.length) :
    Writes strings (fieldPieces labels h) ws (fieldsText labels ws) [] := by
  induction labels generalizing ws with
  | nil =>
    obtain rfl := List.length_eq_zero_iff.mp hlen.symm
    exact writes_nil
  | cons label labels ih =>
    cases ws with
    | nil => cases hlen
    | cons w ws =>
      have htail : ∀ l ∈ labels, Literal l := fun l hl => h l (List.mem_cons_of_mem label hl)
      exact ((writes_literals label _).append (writes_hex w)).append
        (ih htail (Nat.succ_injective hlen))

/-- The numbers in a text with these labels. -/
def readFields : List (List Byte) → List Byte → List ℕ
  | [], _ => []
  | label :: labels, t =>
    readNumber 16 ((t.drop label.length).take 16) ::
      readFields labels ((t.drop label.length).drop 16)

theorem readFields_fieldsText (rest : List Byte) (hlen : labels.length = ws.length) :
    readFields labels (fieldsText labels ws ++ rest) = ws.map BitVec.toNat := by
  induction labels generalizing ws with
  | nil =>
    obtain rfl := List.length_eq_zero_iff.mp hlen.symm
    rfl
  | cons label labels ih =>
    cases ws with
    | nil => cases hlen
    | cons w ws =>
      have hsplit : fieldsText (label :: labels) (w :: ws) ++ rest =
          label ++ (hexText w ++ (fieldsText labels ws ++ rest)) := by
        simp [fieldsText]
      have hhex := length_hexText w
      rw [hsplit, readFields, List.drop_left, List.take_left' hhex, List.drop_left' hhex,
        readNumber_hexText, ih (Nat.succ_injective hlen), List.map_cons]

/-! The report -/

def dumpLabels : List (List Char) :=
  ["⤷ rax: 0x".toList, ", rbx:    0x".toList, ", rcx: 0x".toList, ", rdx: 0x".toList,
    "\n⤷ rsi: 0x".toList, ", rdi:    0x".toList, ", rbp: 0x".toList, ", r8 : 0x".toList,
    "\n⤷ r9 : 0x".toList, ", r10:    0x".toList, ", r11: 0x".toList, ", r12: 0x".toList,
    "\n⤷ r13: 0x".toList, ", r14:    0x".toList, ", r15: 0x".toList, ", ss : 0x".toList,
    "\n⤷ rsp: 0x".toList, ", rflags: 0x".toList, ", cs : 0x".toList, ", rip: 0x".toList]

theorem literal_dumpLabels : ∀ label ∈ dumpLabels.map utf8Text, Literal label := by
  have hchars : ∀ label ∈ dumpLabels, '\x00' ∉ label ∧ '%' ∉ label := by decide +kernel
  intro label hlabel
  obtain ⟨cs, hcs, rfl⟩ := List.mem_map.mp hlabel
  exact literal_utf8Text (hchars cs hcs)

theorem registerDump_eq :
    registerDump.bytes = render (fieldPieces (dumpLabels.map utf8Text) literal_dumpLabels ++
      literals (utf8Text ['\n']) (by decide)) := by
  decide +kernel

theorem formatText_registerDump (strings : BitVec 64 → CString) (cpu : InterruptCpuState) :
    formatText strings registerDump (dumpedRegisters cpu) =
      .ok (fieldsText (dumpLabels.map utf8Text) (dumpedRegisters cpu) ++ utf8Text ['\n']) :=
  ((writes_fields literal_dumpLabels rfl).append (writes_literals _ _)).formatText registerDump_eq

theorem formatText_literal (strings : BitVec 64 → CString) (va : List (BitVec 64)) {cs : List Char}
    (h : '\x00' ∉ cs ∧ cs.length < 2 ^ 62) (hpercent : '%' ∉ cs) :
    formatText strings (literal cs h) va = .ok (utf8Text cs) :=
  (writes_literals _ (literal_utf8Text ⟨h.1, hpercent⟩)).formatText (render_literals _ _).symm

theorem formatText_isrNo (strings : BitVec 64 → CString) (n name : BitVec 64) :
    formatText strings (literal "⤷ ISR-No. %d: %s\n".toList (by decide)) [n, name] =
      .ok (utf8Text "⤷ ISR-No. ".toList ++ (decimalText (n.setWidth 32).toInt ++
        (utf8Text ": ".toList ++ ((strings name).bytes ++ utf8Text ['\n'])))) :=
  ((writes_literals _ (literal_utf8Text (by decide))).append ((writes_decimal n).append
    ((writes_literals _ (literal_utf8Text (by decide))).append ((writes_string name).append
      (writes_literals _ (literal_utf8Text (by decide))))))).formatText (by decide +kernel)

theorem formatText_errorCode (strings : BitVec 64 → CString) (code : BitVec 64) :
    formatText strings (literal "⤷ Error code: 0x%.16llx\n\n\n".toList (by decide)) [code] =
      .ok (utf8Text "⤷ Error code: 0x".toList ++ (hexText code ++ utf8Text "\n\n\n".toList)) :=
  ((writes_literals _ (literal_utf8Text (by decide))).append ((writes_hex code).append
    (writes_literals _ (literal_utf8Text (by decide))))).formatText (by decide +kernel)

/-- The texts of a report. -/
def reportTexts (vector : ℕ) (name : List Char) (code : Word) (dump : List Byte) : List (List Byte) :=
  [utf8Text "\n────────────────────────\n".toList, utf8Text "⚠ EXCEPTION OCCURRED! ⚠\n\n".toList,
    utf8Text ("⤷ ISR-No. ".toList ++ (decimalChars vector ++ (": ".toList ++ (name ++ ['\n'])))),
    utf8Text "⤷ Error code: 0x".toList ++ (hexText code ++ utf8Text "\n\n\n".toList),
    utf8Text "ℹ Register dump:\n\n".toList, dump]

theorem exceptionReport_texts {exceptions : ℕ → Word} {cpu : InterruptCpuState} {vector : ℕ}
    {name : List Char} (hv : cpu.isrNumber = BitVec.ofNat 64 vector) (hlt : vector < 32)
    (hname : (strings (exceptions vector)).bytes = utf8Text name) :
    (exceptionReport exceptions cpu).mapM (fun call => formatText strings call.1 call.2) =
      .ok (reportTexts vector name cpu.errorCode
        (fieldsText (dumpLabels.map utf8Text) (dumpedRegisters cpu) ++ utf8Text ['\n'])) := by
  have hnat : cpu.isrNumber.toNat = vector := by
    rw [hv, BitVec.toNat_ofNat]
    omega
  have hint : (cpu.isrNumber.setWidth 32).toInt = vector := by
    rw [BitVec.toInt_eq_toNat_of_lt] <;> rw [BitVec.toNat_setWidth, hnat] <;> omega
  simp only [exceptionReport, List.mapM_cons, List.mapM_nil, formatText_registerDump,
    formatText_isrNo, formatText_errorCode, hnat, hint, hname]
  rw [formatText_literal _ _ _ (by decide +kernel), formatText_literal _ _ _ (by decide +kernel),
    formatText_literal _ _ _ (by decide +kernel)]
  simp only [reportTexts, utf8Text_append, utf8Text_decimalChars, bind, Except.bind, pure, Except.pure]

/-- The registers of the interrupted code in the order of the dump, with `rbp` and `rsi` in each
other's place. -/
def shownRegisters (m : Machine) : List Word :=
  [m.regs .rax, m.regs .rbx, m.regs .rcx, m.regs .rdx, m.regs .rbp, m.regs .rdi, m.regs .rsi,
    m.regs .r8, m.regs .r9, m.regs .r10, m.regs .r11, m.regs .r12, m.regs .r13, m.regs .r14,
    m.regs .r15, m.ss.setWidth 64, m.regs .rsp, m.rflags, m.cs.setWidth 64, m.rip]

/-- On an exception, all of the registers can be read off the report. -/
theorem exception_reported (m : Machine) (gate : Word) (vector : ℕ) (hlt : vector < 32) (code : Word)
    (strings : BitVec 64 → CString) (exceptions : ℕ → Word)
    (hnames : ∀ n < 32, (strings (exceptions n)).bytes = utf8Text (exceptionNames.getD n [])) :
    ∃ dump, (exceptionReport exceptions (interruptCpuState
        (Isr.atHandler gate vector (Isr.cpuErrorCode vector code) m).mem
        ((Isr.atHandler gate vector (Isr.cpuErrorCode vector code) m).regs .rdi))).mapM
          (fun call => formatText strings call.1 call.2) =
        .ok (reportTexts vector (exceptionNames.getD vector [])
          ((Isr.cpuErrorCode vector code).getD 0#64) dump) ∧
      readFields (dumpLabels.map utf8Text) dump = (shownRegisters m).map BitVec.toNat := by
  rw [Isr.atHandler_state]
  exact ⟨_, exceptionReport_texts rfl hlt (hnames vector hlt), readFields_fieldsText _ rfl⟩

theorem exceptionNames_literals : ∀ cs ∈ exceptionNames, '\x00' ∉ cs ∧ cs.length < 2 ^ 62 := by
  decide +kernel

/-- The name of each exception at its number. -/
def nameAt (a : BitVec 64) : CString :=
  if h : a.toNat < exceptionNames.length then
    literal exceptionNames[a.toNat] (exceptionNames_literals _ (List.getElem_mem h))
  else literal [] (by decide)

/-- A machine before the exception. -/
def sampleMachine : X86.Machine := ⟨fun _ => 0x9000#64, 0x4000#64, 0x202#64, 8#16, 16#16, fun _ => 0#8⟩

theorem exception_reported_pageFault :
    ∃ dump, (exceptionReport (BitVec.ofNat 64) (interruptCpuState
        (Isr.atHandler 0#64 14 (Isr.cpuErrorCode 14 2#64) sampleMachine).mem
        ((Isr.atHandler 0#64 14 (Isr.cpuErrorCode 14 2#64) sampleMachine).regs .rdi))).mapM
          (fun call => Kprintf.formatText nameAt call.1 call.2) =
        .ok (reportTexts 14 "#PF: Page Fault".toList 2#64 dump) ∧
      readFields (dumpLabels.map utf8Text) dump = (shownRegisters sampleMachine).map BitVec.toNat := by
  have hnames : ∀ n < 32, (nameAt (BitVec.ofNat 64 n)).bytes =
      utf8Text (exceptionNames.getD n []) := by
    intro n hn
    have hnat : (BitVec.ofNat 64 n).toNat = n := by
      rw [BitVec.toNat_ofNat]
      omega
    have hlt : n < exceptionNames.length := hn
    have hname : nameAt (BitVec.ofNat 64 n) = literal (exceptionNames[n]) (exceptionNames_literals _
        (List.getElem_mem hlt)) := by
      simp only [nameAt, hnat, dif_pos hlt]
    rw [hname, List.getD_eq_getElem _ _ hlt]
    rfl
  exact exception_reported sampleMachine 0#64 14 (by decide) 2#64 nameAt (BitVec.ofNat 64) hnames

end ExceptionReport

end KnutOS
