import KnutOS.Foundation.X86Segments
import KnutOS.Libk.Strings
import KnutOS.Memory.Mem

/-! The global descriptor table and the task state segment (`gdt/gdt.c`), and how `gdt/gdt_asm.s`
loads them. -/
namespace KnutOS

open Foundation Foundation.X86 Strings

/-- `struct GDT_Descriptor`. -/
structure GdtDescriptor where
  limit15_0 : BitVec 16
  base15_0 : BitVec 16
  base23_16 : BitVec 8
  type : BitVec 8
  limit19_16AndFlags : BitVec 8
  base31_24 : BitVec 8

/-- A `uint16_t` in memory. -/
def bytes16 (v : BitVec 16) : List Byte := [v.extractLsb' 0 8, v.extractLsb' 8 8]

def bytes64 (v : Word) : List Byte := (List.range 8).map fun k => v.extractLsb' (8 * k) 8

/-- The fields one after the other, as the struct is packed. -/
def GdtDescriptor.bytes (d : GdtDescriptor) : List Byte :=
  bytes16 d.limit15_0 ++ bytes16 d.base15_0 ++
    [d.base23_16, d.type, d.limit19_16AndFlags, d.base31_24]

/-- `struct GDT`. -/
structure Gdt where
  null : GdtDescriptor
  kernelCode : GdtDescriptor
  kernelData : GdtDescriptor
  null2 : GdtDescriptor
  userData : GdtDescriptor
  userCode : GdtDescriptor
  ovmfData : GdtDescriptor
  ovmfCode : GdtDescriptor
  tssLow : GdtDescriptor
  tssHigh : GdtDescriptor

def Gdt.bytes (g : Gdt) : List Byte :=
  [g.null, g.kernelCode, g.kernelData, g.null2, g.userData, g.userCode, g.ovmfData, g.ovmfCode,
    g.tssLow, g.tssHigh].flatMap GdtDescriptor.bytes

def createDescriptors : Gdt where
  null := ⟨0#16, 0#16, 0#8, 0x00#8, 0x00#8, 0#8⟩
  kernelCode := ⟨0#16, 0#16, 0#8, 0x9A#8, 0xA0#8, 0#8⟩
  kernelData := ⟨0#16, 0#16, 0#8, 0x92#8, 0xA0#8, 0#8⟩
  null2 := ⟨0#16, 0#16, 0#8, 0x00#8, 0x00#8, 0#8⟩
  userData := ⟨0#16, 0#16, 0#8, 0x92#8, 0xA0#8, 0#8⟩
  userCode := ⟨0#16, 0#16, 0#8, 0x9A#8, 0xA0#8, 0#8⟩
  ovmfData := ⟨0#16, 0#16, 0#8, 0x92#8, 0xA0#8, 0#8⟩
  ovmfCode := ⟨0#16, 0#16, 0#8, 0x9A#8, 0xA0#8, 0#8⟩
  tssLow := ⟨0#16, 0#16, 0#8, 0x89#8, 0xA0#8, 0#8⟩
  tssHigh := ⟨0#16, 0#16, 0#8, 0x00#8, 0x00#8, 0#8⟩

/-- `sizeof(tss)`. -/
def tssSize : ℕ := 104

/-- The table that `gdt_init` makes for a task state segment at `tssBase`. -/
def gdtOf (tssBase : Word) : Gdt :=
  { createDescriptors with
    tssLow := { createDescriptors.tssLow with
      base15_0 := (tssBase &&& 0xFFFF#64).setWidth 16
      base23_16 := ((tssBase >>> 16) &&& 0xFF#64).setWidth 8
      base31_24 := ((tssBase >>> 24) &&& 0xFF#64).setWidth 8
      limit15_0 := BitVec.ofNat 16 tssSize }
    tssHigh := { createDescriptors.tssHigh with
      limit15_0 := ((tssBase >>> 32) &&& 0xFFFF#64).setWidth 16
      base15_0 := ((tssBase >>> 48) &&& 0xFFFF#64).setWidth 16 } }

/-- `_load_gdt_and_tss_asm`. -/
def loadGdtAndTssAsm : List SystemInstr :=
  [.lgdt .rdi, .movImm16 .rax 0x40#16, .ltr .rax, .movImm16 .rax 0x10#16,
    .movSeg .ds .rax, .movSeg .es .rax, .movSeg .fs .rax, .movSeg .gs .rax, .movSs .rax,
    .plain (.pop .rdi), .movImm .rax 0x08#64, .plain (.push .rax), .plain (.push .rdi), .retfq]

/-- `gdt_init`, with its three variables at these addresses. The call of the assembly code leaves the
return address `ret` on the stack. -/
def gdtInit (tss gdt gdtPointer ret : Word) (s : System) : Option System :=
  let m := storeBytes s.core.mem tss (List.replicate tssSize 0#8)
  let m := storeBytes m gdt (gdtOf tss).bytes
  let m := storeBytes m gdtPointer (bytes16 79#16 ++ bytes64 gdt)
  let s := s.setMem m
  System.run { s with core := (s.core.setReg .rdi gdtPointer).push ret } loadGdtAndTssAsm

namespace Gdt

variable {tss gdt gdtPointer ret sp : Word} {s : System} {m : Bytes} {seg : SegReg}

/-- The variables of `gdt_init`, and the two words that the assembly code puts on the stack. -/
structure Placed (tss gdt gdtPointer sp : Word) : Prop where
  tss_gdt : Apart tss tssSize gdt 80
  tss_pointer : Apart tss tssSize gdtPointer 10
  gdt_pointer : Apart gdt 80 gdtPointer 10
  tss_stack : Apart tss tssSize (sp - 16#64) 16
  gdt_stack : Apart gdt 80 (sp - 16#64) 16
  pointer_stack : Apart gdtPointer 10 (sp - 16#64) 16

/-- The memory that the assembly code finds. -/
def prepared (tss gdt gdtPointer ret sp : Word) (m : Bytes) : Bytes :=
  let m := storeBytes m tss (List.replicate tssSize 0#8)
  let m := storeBytes m gdt (gdtOf tss).bytes
  store64 (storeBytes m gdtPointer (bytes16 79#16 ++ bytes64 gdt)) (sp - 8#64) ret

theorem below_stack {x : Word} (h : 16 ≤ (x - (sp - 16#64)).toNat) :
    8 ≤ (x - (sp - 8#64)).toNat := by
  bv_omega

/-- A byte of the table, whatever is stored after it. -/
theorem prepared_gdt (h : Placed tss gdt gdtPointer sp) (ret : Word) (m : Bytes) {k : ℕ}
    (hk : k < 80) : prepared tss gdt gdtPointer ret sp m (gdt + BitVec.ofNat 64 k) =
      (gdtOf tss).bytes.getD k 0#8 := by
  have hlen : (gdtOf tss).bytes.length = 80 := rfl
  have hpointer : (bytes16 79#16 ++ bytes64 gdt).length ≤ (gdt + BitVec.ofNat 64 k - gdtPointer).toNat :=
    h.gdt_pointer.far hk
  rw [prepared, store64_of_out (below_stack (h.gdt_stack.far hk)), storeBytes_of_out hpointer,
    storeBytes_at _ gdt (by rwa [hlen]) (by rw [hlen]; decide), List.getD_eq_getElem]

theorem prepared_pointer (h : Placed tss gdt gdtPointer sp) (ret : Word) (m : Bytes) {k : ℕ}
    (hk : k < 10) : prepared tss gdt gdtPointer ret sp m (gdtPointer + BitVec.ofNat 64 k) =
      (bytes16 79#16 ++ bytes64 gdt).getD k 0#8 := by
  have hlen : (bytes16 79#16 ++ bytes64 gdt).length = 10 := rfl
  rw [prepared, store64_of_out (below_stack (h.pointer_stack.far hk)),
    storeBytes_at _ gdtPointer (by rwa [hlen]) (by rw [hlen]; decide), List.getD_eq_getElem]

theorem prepared_tss (h : Placed tss gdt gdtPointer sp) (ret : Word) (m : Bytes) {k : ℕ}
    (hk : k < tssSize) : prepared tss gdt gdtPointer ret sp m (tss + BitVec.ofNat 64 k) = 0#8 := by
  have hpointer : (bytes16 79#16 ++ bytes64 gdt).length ≤ (tss + BitVec.ofNat 64 k - gdtPointer).toNat :=
    h.tss_pointer.far hk
  have hgdt : (gdtOf tss).bytes.length ≤ (tss + BitVec.ofNat 64 k - gdt).toNat := h.tss_gdt.far hk
  have hlen : (List.replicate tssSize 0#8).length = tssSize := List.length_replicate
  rw [prepared, store64_of_out (below_stack (h.tss_stack.far hk)), storeBytes_of_out hpointer,
    storeBytes_of_out hgdt, storeBytes_at _ tss (by rwa [hlen]) (by rw [hlen]; decide),
    List.getElem_replicate]

theorem load64_of_bytes {a v : Word} (h : ∀ k < 8, m (a + BitVec.ofNat 64 k) = v.extractLsb' (8 * k) 8) :
    load64 m a = v := by
  rw [load64, h 0 (by decide), h 1 (by decide), h 2 (by decide), h 3 (by decide), h 4 (by decide),
    h 5 (by decide), h 6 (by decide), h 7 (by decide)]
  exact append_extract v

/-- The bytes of the address of the task state segment, as they lie in its descriptor. -/
theorem systemBase_of_bytes {d : Word} (hm : ∀ k < 16, m (d + BitVec.ofNat 64 k) =
      ((gdtOf tss).tssLow.bytes ++ (gdtOf tss).tssHigh.bytes).getD k 0#8) :
    System.systemBase m d = tss := by
  have h₀ := setWidth_and_low tss 16 (by decide)
  have h₁ := setWidth_and_low (tss >>> 16) 8 (by decide)
  have h₂ := setWidth_and_low (tss >>> 24) 8 (by decide)
  have h₃ := setWidth_and_low (tss >>> 32) 16 (by decide)
  have h₄ := setWidth_and_low (tss >>> 48) 16 (by decide)
  simp only [Nat.reducePow, Nat.reduceSub] at h₀ h₁ h₂ h₃ h₄
  rw [System.systemBase, hm 11 (by decide), hm 10 (by decide), hm 9 (by decide), hm 8 (by decide),
    hm 7 (by decide), hm 4 (by decide), hm 3 (by decide), hm 2 (by decide)]
  simp only [gdtOf, createDescriptors, GdtDescriptor.bytes, bytes16, List.cons_append,
    List.nil_append, List.getD_cons_succ, List.getD_cons_zero, h₀, h₁, h₂, h₃, h₄]
  apply BitVec.eq_of_getLsbD_eq
  intro i hi
  simp only [BitVec.getLsbD_append, BitVec.getLsbD_setWidth, BitVec.getLsbD_extractLsb',
    BitVec.getLsbD_ushiftRight]
  grind

theorem descriptor_of_limit {selector : BitVec 16} {size : ℕ} (hbase : s.gdtrBase = gdt)
    (hlimit : s.gdtrLimit = 79#16) (hsel : selector.toNat ≠ 0 ∧ selector.toNat % 8 = 0 ∧
      selector.toNat + size ≤ 80) :
    s.descriptor selector size = some (gdt + BitVec.ofNat 64 selector.toNat) := by
  obtain ⟨hne, halign, hend⟩ := hsel
  have hno : ¬ (selector.toNat = 0 ∨ selector.toNat % 8 ≠ 0 ∨
      s.gdtrLimit.toNat + 1 < selector.toNat + size) := by
    rw [hlimit, show (79#16).toNat = 79 from rfl]
    omega
  rw [System.descriptor, if_neg hno, hbase]

/-- The kernel data segment has been loaded, at least once. -/
def withData (s : System) (gdt : Word) (segs : SegReg → BitVec 16) : System :=
  { s with core := { s.core with mem := setByte s.core.mem (gdt + 21#64) 0x93#8 }, segs := segs }

theorem withData_again (s : System) (gdt : Word) (segs segs' : SegReg → BitVec 16) :
    withData (withData s gdt segs) gdt segs' = withData s gdt segs' := by
  simp only [withData, setByte_idem]

theorem loadSegment_data {accepts : Byte → Byte → Bool} (hbase : s.gdtrBase = gdt)
    (hlimit : s.gdtrLimit = 79#16) (hdata : s.core.mem (gdt + 21#64) ||| 1#8 = 0x93#8)
    (haccepts : ∀ a f : Byte, a ||| 1#8 = 0x93#8 → accepts a f = true) :
    s.loadSegment 0x10#16 accepts = some (withData s gdt s.segs) := by
  have haddr : gdt + 16#64 + 5#64 = gdt + 21#64 := by rw [BitVec.add_assoc]; rfl
  have hd : s.descriptor 0x10#16 8 = some (gdt + 16#64) :=
    descriptor_of_limit hbase hlimit (by decide)
  rw [← haddr] at hdata
  have hload := System.loadSegment_eq hd hdata (haccepts _ _ hdata)
  rwa [haddr] at hload

theorem acceptsData_kernelData (a f : Byte) (h : a ||| 1#8 = 0x93#8) :
    System.acceptsData a f = true := by
  rw [System.acceptsData]
  decide +revert

theorem acceptsStack_kernelData (a f : Byte) (h : a ||| 1#8 = 0x93#8) :
    System.acceptsStack a f = true := by
  rw [System.acceptsStack]
  decide +revert

/-- A data segment register gets the kernel data segment. -/
theorem exec_movSeg (s : System) (seg : SegReg) (hbase : s.gdtrBase = gdt) (hlimit : s.gdtrLimit = 79#16)
    (hrax : (s.core.regs .rax).setWidth 16 = 0x10#16)
    (hdata : s.core.mem (gdt + 21#64) ||| 1#8 = 0x93#8) :
    s.exec (.movSeg seg .rax) = some (withData s gdt (Function.update s.segs seg 0x10#16)) := by
  have hload := loadSegment_data hbase hlimit hdata acceptsData_kernelData
  simp only [System.exec, hrax, hload, Option.bind_eq_bind, Option.bind_some]
  rfl

theorem exec_movSs (s : System) (hbase : s.gdtrBase = gdt) (hlimit : s.gdtrLimit = 79#16)
    (hrax : (s.core.regs .rax).setWidth 16 = 0x10#16)
    (hdata : s.core.mem (gdt + 21#64) ||| 1#8 = 0x93#8) :
    s.exec (.movSs .rax) = some { withData s gdt s.segs with
      core := { (withData s gdt s.segs).core with ss := 0x10#16 } } := by
  have hload := loadSegment_data hbase hlimit hdata acceptsStack_kernelData
  simp only [System.exec, hrax, hload, Option.bind_eq_bind, Option.bind_some]

/-- All the data segment registers get the kernel data segment, and nothing else changes but the mark
in its descriptor. -/
theorem run_segments (s : System) (hbase : s.gdtrBase = gdt) (hlimit : s.gdtrLimit = 79#16)
    (hrax : (s.core.regs .rax).setWidth 16 = 0x10#16)
    (hdata : s.core.mem (gdt + 21#64) ||| 1#8 = 0x93#8) :
    s.run [.movSeg .ds .rax, .movSeg .es .rax, .movSeg .fs .rax, .movSeg .gs .rax, .movSs .rax] =
      some { s with
        core := { s.core with mem := setByte s.core.mem (gdt + 21#64) 0x93#8, ss := 0x10#16 }
        segs := fun _ => 0x10#16 } := by
  have hmarked : ∀ segs, (withData s gdt segs).core.mem (gdt + 21#64) ||| 1#8 = 0x93#8 := by
    intro segs
    show setByte s.core.mem (gdt + 21#64) 0x93#8 (gdt + 21#64) ||| 1#8 = 0x93#8
    rw [setByte_self]
    rfl
  have hnext : ∀ seg segs, (withData s gdt segs).exec (.movSeg seg .rax) =
      some (withData s gdt (Function.update segs seg 0x10#16)) := by
    intro seg segs
    rw [exec_movSeg (withData s gdt segs) seg hbase hlimit hrax (hmarked segs), withData_again]
    rfl
  have hsegs : Function.update (Function.update (Function.update (Function.update s.segs .ds 0x10#16)
      .es 0x10#16) .fs 0x10#16) .gs 0x10#16 = fun _ => 0x10#16 := by
    funext seg
    cases seg <;> rfl
  rw [System.run_cons (exec_movSeg s .ds hbase hlimit hrax hdata), System.run_cons (hnext .es _),
    System.run_cons (hnext .fs _), System.run_cons (hnext .gs _), hsegs,
    System.run_cons (exec_movSs (withData s gdt _) hbase hlimit hrax (hmarked _)), withData_again]
  rfl

/-- The task register gets the task state segment, wherever it is. Its limit counts pages. -/
theorem exec_ltr (s : System) (hbase : s.gdtrBase = gdt) (hlimit : s.gdtrLimit = 79#16)
    (hrax : (s.core.regs .rax).setWidth 16 = 0x40#16)
    (hm : ∀ k < 16, s.core.mem (gdt + 64#64 + BitVec.ofNat 64 k) =
      ((gdtOf tss).tssLow.bytes ++ (gdtOf tss).tssHigh.bytes).getD k 0#8) :
    s.exec (.ltr .rax) = some { s.setMem (setByte s.core.mem (gdt + 69#64) 0x8B#8) with
      tr := 0x40#16
      trBase := tss
      trLimit := 0x68FFF#32 } := by
  have haddr : gdt + 64#64 + 5#64 = gdt + 69#64 := by rw [BitVec.add_assoc]; rfl
  have hd : s.descriptor 0x40#16 16 = some (gdt + 64#64) :=
    descriptor_of_limit hbase hlimit (by decide)
  have h0 : s.core.mem (gdt + 64#64) = 0x68#8 := by
    have hzero := hm 0 (by decide)
    rwa [BitVec.add_zero] at hzero
  have h1 : s.core.mem (gdt + 64#64 + 1#64) = 0x00#8 := by
    have hbyte : (BitVec.ofNat 16 tssSize).extractLsb' 8 8 = 0x00#8 := by decide
    exact (hm 1 (by decide)).trans hbyte
  have htype : s.core.mem (gdt + 64#64 + 5#64) = 0x89#8 := hm 5 (by decide)
  have hflags : s.core.mem (gdt + 64#64 + 6#64) = 0xA0#8 := hm 6 (by decide)
  have hupper : s.core.mem (gdt + 64#64 + 13#64) = 0x00#8 := hm 13 (by decide)
  have hlimit' : System.systemLimit s.core.mem (gdt + 64#64) = 0x68FFF#32 := by
    rw [System.systemLimit, h0, h1, hflags]
    rfl
  have haccepts : 0x89#8 &&& 0x9F#8 = 0x89#8 ∧ 0x00#8 &&& 0x1F#8 = 0#8 := by decide
  have hbusy : 0x89#8 ||| 2#8 = 0x8B#8 := rfl
  rw [System.exec, hrax, System.loadTask, hd, Option.bind_eq_bind, Option.bind_some]
  simp only [htype, hupper, systemBase_of_bytes hm, hlimit']
  rw [if_pos haccepts, hbusy, haddr]

/-- The far return goes back to the caller, with the kernel code segment. -/
theorem run_return (s : System) (hbase : s.gdtrBase = gdt) (hlimit : s.gdtrLimit = 79#16)
    (hsp : s.core.regs .rsp = sp - 8#64) (hret : load64 s.core.mem (sp - 8#64) = ret)
    (hcode : s.core.mem (gdt + 13#64) = 0x9A#8) (hflags : s.core.mem (gdt + 14#64) = 0xA0#8)
    (hstack : Apart gdt 80 (sp - 16#64) 16) :
    ∃ m', s.run [.plain (.pop .rdi), .movImm .rax 0x08#64, .plain (.push .rax), .plain (.push .rdi),
        .retfq] = some { s with
          core := { s.core with
            regs := Function.update (Function.update (Function.update s.core.regs .rdi ret) .rax 8#64)
              .rsp sp
            rip := ret
            cs := 0x08#16
            mem := m' } } ∧
      ∀ x : Word, 16 ≤ (x - (sp - 16#64)).toNat →
        m' x = setByte s.core.mem (gdt + 13#64) 0x9B#8 x := by
  let popped := (s.core.pop .rdi).setReg .rax 8#64
  let core := (popped.push 8#64).push ret
  have hpopped : popped.regs .rsp = sp := by
    rw [Machine.setReg_other _ _ (by decide), Machine.pop_rsp _ (by decide), hsp,
      BitVec.sub_add_cancel]
  have hrdi : (popped.push 8#64).regs .rdi = ret := by
    rw [Machine.push_regs _ _ (by decide), Machine.setReg_other _ _ (by decide), Machine.pop_self,
      hsp, hret]
  have hcore : core.regs .rsp = sp - 16#64 := by
    rw [Machine.push_rsp, Machine.push_rsp, hpopped, BitVec.sub_sub]
    rfl
  have hempty : popped.Holds [] := trivial
  obtain ⟨htop, hselector, -⟩ := (hempty.push (by simp) 8#64).push (by simp) ret
  rw [hcore] at htop hselector
  have hcall : s.run [.plain (.pop .rdi), .movImm .rax 0x08#64, .plain (.push .rax),
      .plain (.push .rdi), .retfq] = ({ s with core := core } : System).exec .retfq := by
    have hrax : popped.regs .rax = 8#64 := Machine.setReg_self _ .rax _
    have hpush : popped.exec (.push .rax) = popped.push 8#64 := by rw [Machine.exec, hrax]
    have hpush' : (popped.push 8#64).exec (.push .rdi) = core := by rw [Machine.exec, hrdi]
    rw [System.run_cons rfl, System.run_cons rfl, System.run_cons rfl, System.run_cons rfl]
    show ({ s with core := (popped.exec (.push .rax)).exec (.push .rdi) } : System).run [.retfq] = _
    rw [hpush, hpush', System.run_singleton]
  have hframe : ∀ x : Word, 16 ≤ (x - (sp - 16#64)).toNat → core.mem x = s.core.mem x := by
    intro x hx
    show store64 (store64 s.core.mem (popped.regs .rsp - 8#64) 8#64)
      ((popped.push 8#64).regs .rsp - 8#64) ret x = _
    have hsecond : sp - 8#64 - 8#64 = sp - 16#64 := by rw [BitVec.sub_sub]; rfl
    rw [Machine.push_rsp, hpopped, hsecond, store64_of_out (by omega),
      store64_of_out (below_stack hx)]
  have hd : ({ s with core := core } : System).descriptor 0x08#16 8 = some (gdt + 8#64) :=
    descriptor_of_limit hbase hlimit (by decide)
  have haddr : gdt + 8#64 + 5#64 = gdt + 13#64 := by rw [BitVec.add_assoc]; rfl
  have haddr' : gdt + 8#64 + 6#64 = gdt + 14#64 := by rw [BitVec.add_assoc]; rfl
  have hfar : 16 ≤ (gdt + 13#64 - (sp - 16#64)).toNat := hstack.far (show 13 < 80 by decide)
  have hfar' : 16 ≤ (gdt + 14#64 - (sp - 16#64)).toNat := hstack.far (show 14 < 80 by decide)
  have haccess : core.mem (gdt + 8#64 + 5#64) = 0x9A#8 := by rw [haddr, hframe _ hfar, hcode]
  have hlong : core.mem (gdt + 8#64 + 6#64) = 0xA0#8 := by rw [haddr', hframe _ hfar', hflags]
  have hmark : core.mem (gdt + 8#64 + 5#64) ||| 1#8 = 0x9B#8 := by
    rw [haccess]
    rfl
  have haccepts : System.acceptsCode (core.mem (gdt + 8#64 + 5#64)) (core.mem (gdt + 8#64 + 6#64)) =
      true := by
    rw [haccess, hlong]
    rfl
  have hload := System.loadSegment_eq hd hmark haccepts
  rw [haddr] at hload
  have hselector' : (load64 core.mem (core.regs .rsp + 8#64)).setWidth 16 = 0x08#16 := by
    rw [hcore, hselector]
    rfl
  have hback : core.regs .rsp + 16#64 = sp := by rw [hcore, BitVec.sub_add_cancel]
  have hregs : Function.update core.regs .rsp sp =
      Function.update (Function.update (Function.update s.core.regs .rdi ret) .rax 8#64) .rsp sp := by
    funext r
    rcases eq_or_ne r .rsp with rfl | hr
    · rw [Function.update_self, Function.update_self]
    · rw [Function.update_of_ne hr, Function.update_of_ne hr, Machine.push_regs _ _ hr,
        Machine.push_regs _ _ hr]
      show Function.update (Function.update (Function.update s.core.regs .rsp _) .rdi
        (load64 s.core.mem (s.core.regs .rsp))) .rax 8#64 r = _
      rw [hsp, hret]
      simp only [Function.update_apply, if_neg hr]
  refine ⟨setByte core.mem (gdt + 13#64) 0x9B#8, ?_, ?_⟩
  · rw [hcall, System.exec]
    simp only [hselector', hload, Option.bind_eq_bind, Option.bind_some]
    rw [← hregs, ← hback, ← htop, ← hcore]
    rfl
  · intro x hout
    rw [setByte, setByte, hframe x hout]

/-- A mark in a table. -/
theorem setByte_table {a : Word} {bs : List Byte} {j k : ℕ}
    (hm : m (a + BitVec.ofNat 64 k) = bs.getD k 0#8) (hj : j < bs.length) (hk : k < bs.length)
    (hlen : bs.length ≤ 2 ^ 64) (v : Byte) :
    setByte m (a + BitVec.ofNat 64 j) v (a + BitVec.ofNat 64 k) = (bs.set j v).getD k 0#8 := by
  rcases eq_or_ne k j with rfl | hne
  · rw [setByte_self, List.getD_eq_getElem _ _ (by simpa using hk), List.getElem_set_self]
  · have hother : a + BitVec.ofNat 64 k ≠ a + BitVec.ofNat 64 j := by
      intro heq
      have hnat := congrArg BitVec.toNat ((BitVec.add_right_inj a).mp heq)
      rw [BitVec.toNat_ofNat, BitVec.toNat_ofNat, Nat.mod_eq_of_lt (by omega),
        Nat.mod_eq_of_lt (by omega)] at hnat
      exact hne hnat
    rw [setByte_other _ _ hother, hm, List.getD_eq_getElem _ _ hk,
      List.getD_eq_getElem _ _ (by simpa using hk), List.getElem_set_ne hne.symm]

theorem exec_lgdt (s : System) (hrdi : s.core.regs .rdi = gdtPointer)
    (hm : ∀ k < 10, s.core.mem (gdtPointer + BitVec.ofNat 64 k) =
      (bytes16 79#16 ++ bytes64 gdt).getD k 0#8) :
    s.exec (.lgdt .rdi) = some { s with gdtrBase := gdt, gdtrLimit := 79#16 } := by
  have h0 : s.core.mem gdtPointer = 79#8 := by
    have hzero := hm 0 (by decide)
    rwa [BitVec.add_zero] at hzero
  have h1 : s.core.mem (gdtPointer + 1#64) = 0#8 := hm 1 (by decide)
  have hbase : load64 s.core.mem (gdtPointer + 2#64) = gdt := by
    apply load64_of_bytes
    intro k hk
    have hbyte := hm (2 + k) (by omega)
    rw [← add_ofNat_add_ofNat] at hbyte
    rw [hbyte, Nat.add_comm]
    show (bytes64 gdt).getD k 0#8 = _
    rw [bytes64, List.getD_eq_getElem _ _ (by simpa using hk), List.getElem_map, List.getElem_range]
  rw [System.exec, hrdi, h0, h1, hbase]
  rfl

/-- What `gdt_init` leaves: the caller goes on with the new segments and the new task register, and
the CPU has marked the three descriptors it loaded. -/
structure Loaded (tss gdt gdtPointer ret : Word) (s s' : System) : Prop where
  rip : s'.core.rip = ret
  regs : ∀ r, r ≠ .rax → r ≠ .rdi → s'.core.regs r = s.core.regs r
  cs : s'.core.cs = 0x08#16
  ss : s'.core.ss = 0x10#16
  segs : ∀ seg, s'.segs seg = 0x10#16
  table : s'.gdtrBase = gdt ∧ s'.gdtrLimit = 79#16
  task : s'.tr = 0x40#16 ∧ s'.trBase = tss ∧ s'.trLimit = 0x68FFF#32
  zeroed : ∀ k < tssSize, s'.core.mem (tss + BitVec.ofNat 64 k) = 0#8
  descriptors : ∀ k < 80, s'.core.mem (gdt + BitVec.ofNat 64 k) =
    ((((gdtOf tss).bytes.set 69 0x8B#8).set 21 0x93#8).set 13 0x9B#8).getD k 0#8
  frame : ∀ x : Word, tssSize ≤ (x - tss).toNat → 80 ≤ (x - gdt).toNat →
    10 ≤ (x - gdtPointer).toNat → 16 ≤ (x - (s.core.regs .rsp - 16#64)).toNat →
    s'.core.mem x = s.core.mem x

/-- The three marks. -/
def marked (gdt : Word) (m : Bytes) : Bytes :=
  setByte (setByte (setByte m (gdt + 69#64) 0x8B#8) (gdt + 21#64) 0x93#8) (gdt + 13#64) 0x9B#8

theorem marked_out {x : Word} (hx : 80 ≤ (x - gdt).toNat) (m : Bytes) : marked gdt m x = m x := by
  have hne : ∀ k : Word, k.toNat < 80 → x ≠ gdt + k := by
    rintro k hk rfl
    rw [BitVec.add_comm, BitVec.add_sub_cancel] at hx
    omega
  rw [marked, setByte_other _ _ (hne 13#64 (by decide)), setByte_other _ _ (hne 21#64 (by decide)),
    setByte_other _ _ (hne 69#64 (by decide))]

theorem prepared_out {x : Word} (htss : tssSize ≤ (x - tss).toNat) (hgdt : 80 ≤ (x - gdt).toNat)
    (hpointer : 10 ≤ (x - gdtPointer).toNat) (hstack : 16 ≤ (x - (sp - 16#64)).toNat) (ret : Word)
    (m : Bytes) : prepared tss gdt gdtPointer ret sp m x = m x := by
  have hzeros : (List.replicate tssSize 0#8).length ≤ (x - tss).toNat := by
    rwa [List.length_replicate]
  have htable : (gdtOf tss).bytes.length ≤ (x - gdt).toNat := hgdt
  have hlimit : (bytes16 79#16 ++ bytes64 gdt).length ≤ (x - gdtPointer).toNat := hpointer
  rw [prepared, store64_of_out (below_stack hstack), storeBytes_of_out hlimit,
    storeBytes_of_out htable, storeBytes_of_out hzeros]

theorem run_asm (s : System) (h : Placed tss gdt gdtPointer sp) (ret : Word) (m : Bytes)
    (hrdi : s.core.regs .rdi = gdtPointer) (hsp : s.core.regs .rsp = sp - 8#64)
    (hmem : s.core.mem = prepared tss gdt gdtPointer ret sp m) :
    ∃ m' rax, s.run loadGdtAndTssAsm = some
      { core := { s.core with
          regs := Function.update (Function.update (Function.update
            (Function.update s.core.regs .rax rax) .rdi ret) .rax 8#64) .rsp sp
          rip := ret
          cs := 0x08#16
          ss := 0x10#16
          mem := m' }
        gdtrBase := gdt
        gdtrLimit := 79#16
        segs := fun _ => 0x10#16
        tr := 0x40#16
        trBase := tss
        trLimit := 0x68FFF#32 } ∧
      ∀ x : Word, 16 ≤ (x - (sp - 16#64)).toNat → m' x = marked gdt s.core.mem x := by
  have hgdt : ∀ k < 80, s.core.mem (gdt + BitVec.ofNat 64 k) = (gdtOf tss).bytes.getD k 0#8 := by
    intro k hk
    rw [hmem]
    exact prepared_gdt h ret m hk
  have hpointer : ∀ k < 10, s.core.mem (gdtPointer + BitVec.ofNat 64 k) =
      (bytes16 79#16 ++ bytes64 gdt).getD k 0#8 := by
    intro k hk
    rw [hmem]
    exact prepared_pointer h ret m hk
  have hret : load64 s.core.mem (sp - 8#64) = ret := by
    rw [hmem]
    exact load64_store64 _ _ _
  let s₁ : System := { s with gdtrBase := gdt, gdtrLimit := 79#16 }
  let v : Word := (s₁.core.regs .rax).extractLsb' 16 48 ++ 0x40#16
  let s₂ : System := { s₁ with core := s₁.core.setReg .rax v }
  let s₃ : System := { s₂.setMem (setByte s₂.core.mem (gdt + 69#64) 0x8B#8) with
    tr := 0x40#16
    trBase := tss
    trLimit := 0x68FFF#32 }
  let w : Word := (s₃.core.regs .rax).extractLsb' 16 48 ++ 0x10#16
  let s₄ : System := { s₃ with core := s₃.core.setReg .rax w }
  have h₁ : s.exec (.lgdt .rdi) = some s₁ := exec_lgdt s hrdi hpointer
  have h₂ : s₁.exec (.movImm16 .rax 0x40#16) = some s₂ := rfl
  have h₃ : s₂.exec (.ltr .rax) = some s₃ := by
    refine exec_ltr s₂ rfl rfl ?_ ?_
    · rw [Machine.setReg_self]
      exact System.low_movImm16 _ _
    · intro k hk
      have hbyte := hgdt (64 + k) (by omega)
      rw [← add_ofNat_add_ofNat] at hbyte
      refine hbyte.trans ?_
      rw [Nat.add_comm]
      rfl
  have h₄ : s₃.exec (.movImm16 .rax 0x10#16) = some s₄ := rfl
  have hrax : (s₄.core.regs .rax).setWidth 16 = 0x10#16 := by
    rw [Machine.setReg_self]
    exact System.low_movImm16 _ _
  have hbusy : ∀ k < 80, s₄.core.mem (gdt + BitVec.ofNat 64 k) =
      ((gdtOf tss).bytes.set 69 0x8B#8).getD k 0#8 :=
    fun k hk => setByte_table (hgdt k hk) (show 69 < 80 by decide) hk (show 80 ≤ 2 ^ 64 by decide) _
  have hdata : s₄.core.mem (gdt + 21#64) ||| 1#8 = 0x93#8 := by
    rw [show s₄.core.mem (gdt + 21#64) = 0x92#8 from hbusy 21 (by decide)]
    rfl
  let s₅ : System := { s₄ with
    core := { s₄.core with mem := setByte s₄.core.mem (gdt + 21#64) 0x93#8, ss := 0x10#16 }
    segs := fun _ => 0x10#16 }
  have h₅ : s₄.run [.movSeg .ds .rax, .movSeg .es .rax, .movSeg .fs .rax, .movSeg .gs .rax,
      .movSs .rax] = some s₅ := run_segments s₄ rfl rfl hrax hdata
  have htable : ∀ k < 80, s₅.core.mem (gdt + BitVec.ofNat 64 k) =
      (((gdtOf tss).bytes.set 69 0x8B#8).set 21 0x93#8).getD k 0#8 :=
    fun k hk => setByte_table (hbusy k hk) (show 21 < 80 by decide) hk (show 80 ≤ 2 ^ 64 by decide) _
  have hsp₅ : s₅.core.regs .rsp = sp - 8#64 := by
    show (Function.update (Function.update s.core.regs .rax v) .rax w) .rsp = _
    rw [Function.update_of_ne (by decide), Function.update_of_ne (by decide), hsp]
  have hret₅ : load64 s₅.core.mem (sp - 8#64) = ret := by
    rw [← hret]
    apply load64_congr
    intro k hk
    have hne : ∀ j < 80, sp - 8#64 + BitVec.ofNat 64 k ≠ gdt + BitVec.ofNat 64 j := by
      intro j hj heq
      refine h.gdt_stack j hj (8 + k) (by omega) ?_
      rw [← heq, ← add_ofNat_add_ofNat]
      congr 1
      bv_omega
    exact (setByte_other _ _ (hne 21 (by decide))).trans (setByte_other _ _ (hne 69 (by decide)))
  obtain ⟨m', hrun, hm'⟩ := run_return s₅ rfl rfl hsp₅ hret₅
    (htable 13 (by decide)) (htable 14 (by decide)) h.gdt_stack
  refine ⟨m', w, ?_, hm'⟩
  show s.run ([.lgdt .rdi, .movImm16 .rax 0x40#16, .ltr .rax, .movImm16 .rax 0x10#16] ++
    ([.movSeg .ds .rax, .movSeg .es .rax, .movSeg .fs .rax, .movSeg .gs .rax, .movSs .rax] ++ _)) = _
  rw [List.cons_append, System.run_cons h₁, List.cons_append, System.run_cons h₂, List.cons_append,
    System.run_cons h₃, List.cons_append, System.run_cons h₄, List.nil_append,
    System.run_append h₅]
  have hregs : s₅.core.regs = Function.update s.core.regs .rax w := by
    show Function.update (Function.update s.core.regs .rax v) .rax w = _
    rw [Function.update_idem]
  refine Eq.trans hrun ?_
  rw [hregs]
  rfl

/-- `gdt_init` never faults, wherever its variables are. -/
theorem gdtInit_loads (s : System) (h : Placed tss gdt gdtPointer (s.core.regs .rsp)) (ret : Word) :
    ∃ s', gdtInit tss gdt gdtPointer ret s = some s' ∧ Loaded tss gdt gdtPointer ret s s' := by
  let sp := s.core.regs .rsp
  let start := prepared tss gdt gdtPointer ret sp s.core.mem
  let m := storeBytes (storeBytes (storeBytes s.core.mem tss (List.replicate tssSize 0#8)) gdt
    (gdtOf tss).bytes) gdtPointer (bytes16 79#16 ++ bytes64 gdt)
  let called : System := { s.setMem m with core := ((s.setMem m).core.setReg .rdi gdtPointer).push ret }
  have hrdi : called.core.regs .rdi = gdtPointer := by
    rw [Machine.push_regs _ _ (by decide), Machine.setReg_self]
  have hsp : called.core.regs .rsp = sp - 8#64 := by
    rw [Machine.push_rsp, Machine.setReg_other _ _ (by decide)]
    rfl
  have hmem : called.core.mem = start := by
    show store64 m (((s.setMem m).core.setReg .rdi gdtPointer).regs .rsp - 8#64) ret = _
    rw [Machine.setReg_other _ _ (by decide)]
    rfl
  obtain ⟨m', rax, hrun, hm'⟩ := run_asm called h ret s.core.mem hrdi hsp hmem
  rw [hmem] at hm'
  refine ⟨_, hrun, ?_⟩
  constructor
  case rip | cs | ss => rfl
  case segs => exact fun _ => rfl
  case table => exact ⟨rfl, rfl⟩
  case task => exact ⟨rfl, rfl, rfl⟩
  case regs =>
    intro r hrax hrdi
    show Function.update (Function.update (Function.update (Function.update called.core.regs .rax rax)
      .rdi ret) .rax 8#64) .rsp (s.core.regs .rsp) r = _
    rcases eq_or_ne r .rsp with rfl | hr
    · rw [Function.update_self]
    · rw [Function.update_of_ne hr, Function.update_of_ne hrax, Function.update_of_ne hrdi,
        Function.update_of_ne hrax, Machine.push_regs _ _ hr, Machine.setReg_other _ _ hrdi]
      rfl
  case zeroed =>
    intro k hk
    show m' _ = _
    rw [hm' _ (h.tss_stack.far hk), marked_out (h.tss_gdt.far hk)]
    exact prepared_tss h ret s.core.mem hk
  case descriptors =>
    intro k hk
    have hbyte : start (gdt + BitVec.ofNat 64 k) = (gdtOf tss).bytes.getD k 0#8 :=
      prepared_gdt h ret s.core.mem hk
    show m' _ = _
    rw [hm' _ (h.gdt_stack.far hk)]
    have hroom : 80 ≤ 2 ^ 64 := by decide
    have hbusy := setByte_table hbyte (show 69 < 80 by decide) hk hroom 0x8B#8
    have hdata := setByte_table hbusy (show 21 < 80 by decide) hk hroom 0x93#8
    exact setByte_table hdata (show 13 < 80 by decide) hk hroom 0x9B#8
  case frame =>
    intro x htss hgdt hpointer hstack
    show m' x = _
    rw [hm' x hstack, marked_out hgdt]
    exact prepared_out htss hgdt hpointer hstack ret s.core.mem

/-- A machine with its stack pointer at `0x9000`. -/
def sample : System where
  core := ⟨fun _ => 0x9000#64, 0#64, 0#64, 0#16, 0#16, fun _ => 0#8⟩
  gdtrBase := 0#64
  gdtrLimit := 0#16
  segs := fun _ => 0#16
  tr := 0#16
  trBase := 0#64
  trLimit := 0#32

theorem gdtInit_loads_sample :
    Placed 0x1000#64 0x2000#64 0x3000#64 (sample.core.regs .rsp) ∧
      ∃ s', gdtInit 0x1000#64 0x2000#64 0x3000#64 0x4000#64 sample = some s' ∧
        Loaded 0x1000#64 0x2000#64 0x3000#64 0x4000#64 sample s' := by
  have h : Placed 0x1000#64 0x2000#64 0x3000#64 (sample.core.regs .rsp) := by
    constructor <;> exact Apart.of_le (by decide) (by decide)
  exact ⟨h, gdtInit_loads sample h 0x4000#64⟩

end Gdt

end KnutOS
