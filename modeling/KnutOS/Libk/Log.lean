import KnutOS.Devices.Serial
import KnutOS.Libk.KprintfPieces
import KnutOS.Libk.Stdio

/-! The log (`libk/log/log.c`) on the console and on the serial line, and `libk/debug/debug.c`. -/
namespace KnutOS

open Foundation Strings

/-- `STATUS`. -/
inductive Status
  | info
  | warning
  | error

namespace Status

/-- `GFX_CYAN`, `GFX_YELLOW` and `GFX_RED`. -/
def color : Status → BitVec 32
  | info => 0xFF88C0D0#32
  | warning => 0xFFEBCA8B#32
  | error => 0xFFBF616A#32

/-- `TERM_CYAN`, `TERM_YELLOW` and `TERM_RED`. -/
def termColor : Status → CString
  | info => literal "\x1b[0;36m".toList (by decide)
  | warning => literal "\x1b[0;33m".toList (by decide)
  | error => literal "\x1b[0;31m".toList (by decide)

def tagChars : Status → List Char
  | info => "[INFO]    | ".toList
  | warning => "[WARNING] | ".toList
  | error => "[ERROR]   | ".toList

def tag (status : Status) : CString :=
  literal status.tagChars (by cases status <;> decide)

end Status

def termColorReset : CString := literal "\x1b[0m".toList (by decide)

/-- `log_buffer`, `printk_buffer` and `debug_buffer`. -/
structure TextBuffers where
  log : BitVec 64
  printk : BitVec 64
  debug : BitVec 64
  log_ne_zero : log ≠ 0#64
  printk_ne_zero : printk ≠ 0#64
  debug_ne_zero : debug ≠ 0#64
  log_printk : Apart log textBufferSize printk textBufferSize
  log_debug : Apart log textBufferSize debug textBufferSize

/-- The `n` bytes at `a` are in none of the buffers. -/
structure TextBuffers.Outside (B : TextBuffers) (a : BitVec 64) (n : ℕ) : Prop where
  log : Apart a n B.log textBufferSize
  printk : Apart a n B.printk textBufferSize
  debug : Apart a n B.debug textBufferSize

/-- `debug`: the memory after it, and the string that it sends. -/
def debug (buffer : BitVec 64) (fmt : CString) (va : List (BitVec 64)) (m : Bytes) :
    Except Fault (Bytes × List Byte) := do
  let (m, _) ← vsnprintf (stringAt m) buffer (-1#64) fmt va m
  .ok (m, (stringAt m buffer).bytes)

/-- `serial_set_color`: the strings that it sends. -/
def serialSetColor (colorCode : CString) : List (List Byte) :=
  if colorCode.bytes.getD 0 0#8 ≠ 0x1B#8 ∨ colorCode.bytes.getD 1 0#8 ≠ ascii '[' then []
  else [colorCode.bytes]

/-- `serial_log_impl`: the memory after it, and the strings that it sends one after the other. -/
def serialLogImpl (B : TextBuffers) (description : BitVec 64) (lineNr : BitVec 32) (status : Status)
    (fmt : CString) (va : List (BitVec 64)) (m : Bytes) :
    Except Fault (Bytes × List (List Byte)) := do
  let (m, _) ← vsnprintf (stringAt m) B.log (-1#64) fmt va m
  let (m, tag) ← debug B.debug status.tag [] m
  let format := literal "%s:%d ─→ %s".toList (by decide)
  let (m, line) ← debug B.debug format [description, lineNr.signExtend 64, B.log] m
  .ok (m, serialSetColor status.termColor ++ [tag, line] ++ serialSetColor termColorReset)

namespace Log

open Kprintf Stdio

variable {σ : Type} {g : Gfx} {C : Canvas σ} {B : TextBuffers} {m m' : Bytes} {a buffer : BitVec 64}
  {t bs : List Byte} {n k : ℕ} {fmt : CString} {va : List (BitVec 64)} {status : Status}
  {description : BitVec 64} {lineNr : BitVec 32}

/-! What a line of the log says -/

/-- The text around the file, the line number and the message. -/
def linePieces (tag : List Byte) (h : Literal tag) : List Piece :=
  literals tag h ++ ([stringPiece] ++ (literals [ascii ':'] (by decide) ++ ([decimalPiece] ++
    (literals (utf8Text " ─→ ".toList) (by decide) ++ [stringPiece]))))

def lineText (tag file : List Byte) (line : ℤ) (message : List Byte) : List Byte :=
  tag ++ (file ++ ([ascii ':'] ++ (decimalText line ++ (utf8Text " ─→ ".toList ++ message))))

/-- An `int` is the low half of its argument. -/
theorem setWidth_signExtend (line : BitVec 32) : (line.signExtend 64).setWidth 32 = line := by
  apply BitVec.eq_of_getLsbD_eq
  intro i hi
  have hlt : i < 64 := by omega
  rw [BitVec.getLsbD_setWidth, BitVec.getLsbD_signExtend, if_pos hi]
  simp [hi, hlt]

theorem writes_line (strings : BitVec 64 → CString) (tag : List Byte) (h : Literal tag)
    (description log : BitVec 64) (lineNr : BitVec 32) :
    Writes strings (linePieces tag h) [description, lineNr.signExtend 64, log]
      (lineText tag (strings description).bytes lineNr.toInt (strings log).bytes) [] := by
  have hline : ((lineNr.signExtend 64).setWidth 32).toInt = lineNr.toInt := by
    rw [setWidth_signExtend]
  rw [← hline]
  exact (writes_literals tag h).append ((writes_string _).append
    ((writes_literals _ _).append ((writes_decimal _).append
      ((writes_literals _ _).append (writes_string _)))))

theorem literal_tag (status : Status) : Literal status.tag.bytes := by
  cases status <;> decide

theorem zero_not_mem_lineText {fb message : List Byte} (line : ℤ) (hfb : 0#8 ∉ fb)
    (hmessage : 0#8 ∉ message) : 0#8 ∉ lineText [] fb line message := by
  have hline : 0#8 ∉ decimalText line := by
    rw [← utf8Text_decimalChars]
    exact zero_not_mem_utf8Text (null_not_mem_decimalChars line)
  have harrow : 0#8 ∉ utf8Text " ─→ ".toList := by decide
  simp only [lineText, List.nil_append, List.mem_append, not_or]
  exact ⟨hfb, by decide, hline, harrow, hmessage⟩

/-! The log -/

/-- The message has been formatted, for a file whose name is not in the way. -/
theorem exists_message {fb : List Byte} (hfile : Spelled m description (fb ++ [0#8]))
    (hout : B.Outside description (fb.length + 1))
    (ht : formatText (stringAt m) fmt va = .ok t) (hlen : t.length < textBufferSize) :
    ∃ m₁ length, vsnprintf (stringAt m) B.log (-1#64) fmt va m = .ok (m₁, length) ∧
      Holds m m₁ B.log t ∧ Spelled m₁ description (fb ++ [0#8]) := by
  have hsize : textBufferSize = 5120 := rfl
  obtain ⟨m₁, length, hv, hholds⟩ := vsnprintf_holds (stringAt m) m B.log_ne_zero ht (by omega)
  exact ⟨m₁, length, hv, hholds, hholds.spelled hlen hout.log hfile (by simp)⟩

/-- Buffers at `0x10000`, `0x20000` and `0x30000`. -/
def sampleBuffers : TextBuffers where
  log := 0x10000#64
  printk := 0x20000#64
  debug := 0x30000#64
  log_ne_zero := by decide
  printk_ne_zero := by decide
  debug_ne_zero := by decide
  log_printk := Apart.of_le (by decide) (by decide)
  log_debug := Apart.of_le (by decide) (by decide)

/-- The name of a file at `0x1000`. -/
def sampleFile : Bytes := storeBytes (fun _ => 0#8) 0x1000#64 [ascii 'k', ascii '.', ascii 'c']

theorem sampleBuffers_outside : sampleBuffers.Outside 0x1000#64 4 := by
  constructor <;> exact Apart.of_le (by decide) (by decide)

theorem spelled_sampleFile : Spelled sampleFile 0x1000#64 (utf8Text "k.c".toList ++ [0#8]) := by
  refine ⟨?_, ?_, ?_, ?_, trivial⟩ <;> decide +kernel

/-- What `debug` sends is its text up to the first zero byte. -/
theorem debug_holds (buffer : BitVec 64) (m : Bytes) (hbuffer : buffer ≠ 0#64)
    (ht : formatText (stringAt m) fmt va = .ok t) (hlen : t.length < textBufferSize) :
    ∃ m', debug buffer fmt va m = .ok (m', shown t) ∧ Holds m m' buffer t := by
  have hsize : textBufferSize = 5120 := rfl
  obtain ⟨m', length, hv, hholds⟩ := vsnprintf_holds (stringAt m) m hbuffer ht (by omega)
  refine ⟨m', ?_, hholds⟩
  rw [debug, hv]
  simp only [bind, Except.bind, hholds.stringAt (by omega)]

theorem formatText_tag (strings : BitVec 64 → CString) (status : Status) :
    formatText strings status.tag [] = .ok status.tag.bytes :=
  Writes.formatText (writes_literals _ (literal_tag status)) (render_literals _ _).symm

theorem serialSetColor_status (status : Status) :
    serialSetColor status.termColor = [status.termColor.bytes] := by
  cases status <;> rfl

theorem serialSetColor_reset : serialSetColor termColorReset = [termColorReset.bytes] := rfl

/-- What `serial_log` sends: the line, in the color of its status. -/
def serialLine (status : Status) (file : List Byte) (line : ℤ) (message : List Byte) :
    List (List Byte) :=
  [status.termColor.bytes, status.tag.bytes, lineText [] file line message, termColorReset.bytes]

/-- `serial_log` sends the status, the file, the line and the message, and writes to its buffers
only. -/
theorem serialLogImpl_eq (B : TextBuffers) (status : Status) (lineNr : BitVec 32) {fb : List Byte}
    (hnull : 0#8 ∉ fb) (hfile : Spelled m description (fb ++ [0#8]))
    (hout : B.Outside description (fb.length + 1))
    (ht : formatText (stringAt m) fmt va = .ok t) (hlen : t.length < textBufferSize)
    (hfit : (lineText [] fb lineNr.toInt (shown t)).length < textBufferSize) :
    ∃ m', serialLogImpl B description lineNr status fmt va m =
        .ok (m', serialLine status fb lineNr.toInt (shown t)) ∧
      ∀ a : BitVec 64, textBufferSize ≤ (a - B.log).toNat → textBufferSize ≤ (a - B.debug).toNat →
        m' a = m a := by
  have hsize : textBufferSize = 5120 := rfl
  have htag : status.tag.bytes.length < textBufferSize := by cases status <;> decide
  have hshown := length_shown_le t
  obtain ⟨m₁, length, hv, hholds₁, hfile₁⟩ := exists_message hfile hout ht hlen
  obtain ⟨m₂, hd₂, hholds₂⟩ := debug_holds B.debug m₁ B.debug_ne_zero
    (formatText_tag (stringAt m₁) status) htag
  have hfile₂ := hholds₂.spelled htag hout.debug hfile₁ (by simp)
  have hlog₂ := hholds₂.spelled htag B.log_debug hholds₁.reads (by
    rw [List.length_append, List.length_singleton]
    omega)
  have hfb : (stringAt m₂ description).bytes = fb := by
    refine stringAt_eq hfile₂ hnull ?_
    rw [lineText, List.nil_append, List.length_append] at hfit
    omega
  have hlog : (stringAt m₂ B.log).bytes = shown t :=
    stringAt_eq hlog₂ (zero_not_mem_shown t) (by omega)
  have hwrites := writes_line (stringAt m₂) [] (by decide) description B.log lineNr
  have htext : formatText (stringAt m₂) (literal "%s:%d ─→ %s".toList (by decide)) _ = _ :=
    hwrites.formatText rfl
  rw [hfb, hlog] at htext
  obtain ⟨m₃, hd₃, hholds₃⟩ := debug_holds B.debug m₂ B.debug_ne_zero htext hfit
  refine ⟨m₃, ?_, ?_⟩
  · have htagShown := shown_eq_self status.tag.noTerminator
    have hlineShown := shown_eq_self (zero_not_mem_lineText lineNr.toInt hnull (zero_not_mem_shown t))
    simp only [serialLogImpl, hv, bind, Except.bind, hd₂, hd₃, serialSetColor_status,
      serialSetColor_reset, htagShown, hlineShown]
    rfl
  · intro a ha ha'
    rw [hholds₃.behind a (by omega), hholds₂.behind a (by omega), hholds₁.behind a (by omega)]

theorem serialLogImpl_eq_sample :
    ∃ m', serialLogImpl sampleBuffers 0x1000#64 12#32 .error (literal "%x".toList (by decide))
        [0xFF#64] sampleFile =
      .ok (m', serialLine .error (utf8Text "k.c".toList) 12 [ascii 'f', ascii 'f']) := by
  have ht : formatText (stringAt sampleFile) (literal "%x".toList (by decide)) [0xFF#64] =
      .ok [ascii 'f', ascii 'f'] := by decide +kernel
  obtain ⟨m', hlog, -⟩ := serialLogImpl_eq sampleBuffers .error 12#32
    (show 0#8 ∉ utf8Text "k.c".toList by decide +kernel) spelled_sampleFile sampleBuffers_outside ht
    (by decide) (by decide +kernel)
  exact ⟨m', hlog⟩

end Log

end KnutOS
