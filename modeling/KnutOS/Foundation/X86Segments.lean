import KnutOS.Foundation.X86

/-! Segmentation in 64-bit mode and ring 0: the descriptor table in memory, and the instructions that
load from it. The bases and limits that 64-bit mode ignores are left out. -/
namespace Foundation.X86

/-- The data segment registers other than `ss`. -/
inductive SegReg
  | ds | es | fs | gs
deriving DecidableEq

/-- The machine with the registers for the descriptor table and the task state segment. -/
structure System where
  core : Machine
  gdtrBase : BitVec 64
  gdtrLimit : BitVec 16
  segs : SegReg → BitVec 16
  tr : BitVec 16
  trBase : BitVec 64
  trLimit : BitVec 32

inductive SystemInstr
  | plain (i : Instr)
  | movImm16 (r : Reg) (v : BitVec 16)
  | movImm (r : Reg) (v : BitVec 64)
  | lgdt (r : Reg)
  | ltr (r : Reg)
  | movSeg (s : SegReg) (r : Reg)
  | movSs (r : Reg)
  | retfq

def setByte (m : Bytes) (a : BitVec 64) (v : BitVec 8) : Bytes := fun x => if x = a then v else m x

theorem setByte_self (m : Bytes) (a : BitVec 64) (v : BitVec 8) : setByte m a v a = v := if_pos rfl

theorem setByte_other {a x : BitVec 64} (m : Bytes) (v : BitVec 8) (h : x ≠ a) :
    setByte m a v x = m x := if_neg h

theorem setByte_idem (m : Bytes) (a : BitVec 64) (v : BitVec 8) :
    setByte (setByte m a v) a v = setByte m a v := by
  funext x
  by_cases h : x = a <;> simp [setByte, h]

namespace System

def setMem (s : System) (m : Bytes) : System := { s with core := { s.core with mem := m } }

/-- The address of the descriptor for a selector of ring 0. The null selector is left out. -/
def descriptor (s : System) (selector : BitVec 16) (size : ℕ) : Option (BitVec 64) :=
  if selector.toNat = 0 ∨ selector.toNat % 8 ≠ 0 ∨
      s.gdtrLimit.toNat + 1 < selector.toNat + size then none
  else some (s.gdtrBase + BitVec.ofNat 64 selector.toNat)

/-- The CPU marks a descriptor that it loads as accessed. -/
def loadSegment (s : System) (selector : BitVec 16) (accepts : BitVec 8 → BitVec 8 → Bool) :
    Option System := do
  let d ← s.descriptor selector 8
  let access := s.core.mem (d + 5#64)
  if accepts access (s.core.mem (d + 6#64)) then
    some (s.setMem (setByte s.core.mem (d + 5#64) (access ||| 1#8)))
  else none

/-- Present data segments and readable code segments. -/
def acceptsData (access _flags : BitVec 8) : Bool :=
  access &&& 0x98#8 = 0x90#8 ∨ access &&& 0x9A#8 = 0x9A#8

/-- Present writable data segments of ring 0. -/
def acceptsStack (access _flags : BitVec 8) : Bool := access &&& 0xFA#8 = 0x92#8

/-- Present 64-bit code segments of ring 0. -/
def acceptsCode (access flags : BitVec 8) : Bool :=
  access &&& 0xF8#8 = 0x98#8 ∧ flags &&& 0x60#8 = 0x20#8

/-- The base in a descriptor of 16 bytes. -/
def systemBase (m : Bytes) (d : BitVec 64) : BitVec 64 :=
  m (d + 11#64) ++ m (d + 10#64) ++ m (d + 9#64) ++ m (d + 8#64) ++
    m (d + 7#64) ++ m (d + 4#64) ++ m (d + 3#64) ++ m (d + 2#64)

/-- The limit counts bytes, or pages if the granularity bit is set. -/
def systemLimit (m : Bytes) (d : BitVec 64) : BitVec 32 :=
  let limit := ((m (d + 6#64)).extractLsb' 0 4 ++ m (d + 1#64) ++ m d).setWidth 32
  if (m (d + 6#64)).getLsbD 7 then limit <<< 12 ||| 0xFFF#32 else limit

/-- A present and available task state segment, which is busy from now on. -/
def loadTask (s : System) (selector : BitVec 16) : Option System := do
  let d ← s.descriptor selector 16
  let m := s.core.mem
  if m (d + 5#64) &&& 0x9F#8 = 0x89#8 ∧ m (d + 13#64) &&& 0x1F#8 = 0#8 then
    some { s.setMem (setByte m (d + 5#64) (m (d + 5#64) ||| 2#8)) with
      tr := selector
      trBase := systemBase m d
      trLimit := systemLimit m d }
  else none

/-- One instruction, or `none` for a fault. -/
def exec (s : System) : SystemInstr → Option System
  | .plain i => some { s with core := s.core.exec i }
  | .movImm16 r v =>
    some { s with core := s.core.setReg r ((s.core.regs r).extractLsb' 16 48 ++ v) }
  | .movImm r v => some { s with core := s.core.setReg r v }
  | .lgdt r =>
    let a := s.core.regs r
    some { s with
      gdtrLimit := s.core.mem (a + 1#64) ++ s.core.mem a
      gdtrBase := load64 s.core.mem (a + 2#64) }
  | .ltr r => s.loadTask ((s.core.regs r).setWidth 16)
  | .movSeg seg r => do
    let selector := (s.core.regs r).setWidth 16
    let t ← s.loadSegment selector acceptsData
    some { t with segs := Function.update t.segs seg selector }
  | .movSs r => do
    let selector := (s.core.regs r).setWidth 16
    let t ← s.loadSegment selector acceptsStack
    some { t with core := { t.core with ss := selector } }
  | .retfq => do
    let sp := s.core.regs .rsp
    let selector := (load64 s.core.mem (sp + 8#64)).setWidth 16
    let t ← s.loadSegment selector acceptsCode
    some { t with
      core := { t.core.setReg .rsp (sp + 16#64) with
        rip := load64 s.core.mem sp
        cs := selector } }

def run (s : System) (code : List SystemInstr) : Option System := code.foldlM exec s

variable {s t : System} {code code' : List SystemInstr} {i : SystemInstr} {selector : BitVec 16}
  {accepts : BitVec 8 → BitVec 8 → Bool} {d : BitVec 64} {v : BitVec 8}

theorem run_singleton (s : System) (i : SystemInstr) : s.run [i] = s.exec i := by
  rw [run, List.foldlM_cons]
  simp only [List.foldlM_nil, bind_pure]

theorem run_cons (h : s.exec i = some t) : s.run (i :: code) = t.run code := by
  rw [run, List.foldlM_cons, h]
  rfl

theorem run_append (h : s.run code = some t) : s.run (code ++ code') = t.run code' := by
  rw [run, List.foldlM_append, show code.foldlM exec s = some t from h]
  rfl

theorem loadSegment_eq (hd : s.descriptor selector 8 = some d)
    (hv : s.core.mem (d + 5#64) ||| 1#8 = v)
    (haccepts : accepts (s.core.mem (d + 5#64)) (s.core.mem (d + 6#64)) = true) :
    s.loadSegment selector accepts = some (s.setMem (setByte s.core.mem (d + 5#64) v)) := by
  simp only [loadSegment, hd, Option.bind_eq_bind, Option.bind_some, haccepts, if_true, hv]

/-- The low half of a register. -/
theorem low_movImm16 (x : BitVec 48) (v : BitVec 16) : (x ++ v).setWidth 16 = v := by
  apply BitVec.eq_of_getLsbD_eq
  intro i hi
  simp only [BitVec.getLsbD_setWidth, BitVec.getLsbD_append]
  simp [hi]

end System

end Foundation.X86
