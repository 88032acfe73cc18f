import KnutOS.Foundation.Bytes
import KnutOS.Foundation.Sink
import KnutOS.Foundation.Words

/-! Formatted output (`libk/kprintf/kprintf.c`). The floating-point conversions are compiled out. -/
namespace KnutOS

open Foundation

/-- A `char`. -/
abbrev Byte := BitVec 8

def ascii (c : Char) : Byte := BitVec.ofNat 8 c.toNat

/-- A C string in memory, up to its terminator. -/
structure CString where
  bytes : List Byte
  noTerminator : 0#8 ∉ bytes
  inMemory : bytes.length < 2 ^ 64

/-- One `FLAGS_` bit each. -/
structure Flags where
  zeropad : Bool
  left : Bool
  plus : Bool
  space : Bool
  hash : Bool
  uppercase : Bool
  char : Bool
  short : Bool
  long : Bool
  longLong : Bool
  precision : Bool
  deriving DecidableEq

def noFlags : Flags :=
  ⟨false, false, false, false, false, false, false, false, false, false, false⟩

/-- `out_fct_type`: the character, the buffer, the index and `maxlen`, and what is written to. -/
abbrev OutFct (σ : Type) := Byte → BitVec 64 → ℕ → BitVec 64 → σ → σ

def outBuffer : OutFct Bytes := fun character buffer idx maxlen m =>
  if idx < maxlen.toNat then Function.update m (buffer + BitVec.ofNat 64 idx) character else m

def outNull {σ : Type} : OutFct σ := fun _ _ _ _ m => m

/-- `fct` is the function in the `out_fct_wrap_type` that `buffer` points to. -/
def outFct {σ : Type} (fct : Byte → σ → σ) : OutFct σ := fun character _ _ _ m =>
  if character ≠ 0#8 then fct character m else m

/-- The arguments that every function hands on to the next. -/
structure Stream (σ : Type) where
  out : OutFct σ
  buffer : BitVec 64
  maxlen : BitVec 64

/-- `out(c, buffer, idx++, maxlen)`. -/
def Stream.write {σ : Type} (o : Stream σ) : Byte → ℕ → σ → σ := fun c idx m =>
  o.out c o.buffer idx o.maxlen m

def Stream.pad {σ : Type} (o : Stream σ) (n : ℕ) (s : Sink σ) : Sink σ :=
  (fun s => s.put o.write (ascii ' '))^[n] s

/-- `PRINTF_NTOA_BUFFER_SIZE`. -/
def ntoaBufferSize : ℕ := 32

/-- `char buf[PRINTF_NTOA_BUFFER_SIZE]`, as far as it is in use: there are `len` characters. -/
structure NtoaBuffer where
  chars : List Byte
  fits : chars.length ≤ ntoaBufferSize

namespace NtoaBuffer

def len (b : NtoaBuffer) : ℕ := b.chars.length

/-- `buf[len++] = c`. -/
def push (b : NtoaBuffer) (c : Byte) (h : b.len < ntoaBufferSize) : NtoaBuffer where
  chars := b.chars ++ [c]
  fits := by
    rw [List.length_append]
    exact h

/-- `len--`. -/
def pop (b : NtoaBuffer) : NtoaBuffer where
  chars := b.chars.dropLast
  fits := by
    rw [List.length_dropLast]
    exact Nat.le_trans (Nat.sub_le _ _) b.fits

/-- `while (len < n && len < PRINTF_NTOA_BUFFER_SIZE) buf[len++] = '0'`. -/
def fill (b : NtoaBuffer) (n : ℕ) : NtoaBuffer where
  chars := b.chars ++ List.replicate (min n ntoaBufferSize - b.len) (ascii '0')
  fits := by
    have := b.fits
    rw [List.length_append, List.length_replicate, len]
    omega

end NtoaBuffer

/-- The result is an `unsigned int`. -/
def strnlenS (str : List Byte) (maxsize : ℕ) : ℕ := go str maxsize % 2 ^ 32
where
  go : List Byte → ℕ → ℕ
    | [], _ => 0
    | _ :: _, 0 => 0
    | _ :: s, maxsize + 1 => go s maxsize + 1

def isDigit (ch : Byte) : Bool := decide (ascii '0' ≤ ch ∧ ch ≤ ascii '9')

/-- The number read so far is an `unsigned int`; also the rest of the string is returned. -/
def atoi (i : ℕ) : List Byte → ℕ × List Byte
  | [] => (i, [])
  | c :: str =>
    if isDigit c then atoi ((i * 10 + (c - ascii '0').toNat) % 2 ^ 32) str else (i, c :: str)

section

variable {σ : Type} (o : Stream σ)

def outRev (s : Sink σ) (buf : List Byte) (width : ℕ) (flags : Flags) : Sink σ :=
  let startIdx := s.idx
  let s := if ¬ flags.left ∧ ¬ flags.zeropad then o.pad (width - buf.length) s else s
  let s := buf.foldr (fun c s => s.put o.write c) s
  if flags.left then o.pad (width - (s.idx - startIdx)) s else s

/-- The part of `_ntoa_format` that pads with zeros, and the width that is left. -/
def ntoaZeros (b : NtoaBuffer) (negative : Bool) (prec width : ℕ) (flags : Flags) :
    NtoaBuffer × ℕ :=
  if flags.left then (b, width)
  else
    let width :=
      if width ≠ 0 ∧ flags.zeropad ∧ (negative ∨ flags.plus ∨ flags.space) then width - 1 else width
    let b := b.fill prec
    (if flags.zeropad then b.fill width else b, width)

/-- For `FLAGS_HASH`: room for the prefix in a field that is full. -/
def ntoaShorten (b : NtoaBuffer) (base prec width : ℕ) (flags : Flags) : NtoaBuffer :=
  if ¬ flags.precision ∧ b.len ≠ 0 ∧ (b.len = prec ∨ b.len = width) then
    if b.pop.len ≠ 0 ∧ base = 16 then b.pop.pop else b.pop
  else b

/-- For `FLAGS_HASH`: the prefix. -/
def ntoaPrefix (b : NtoaBuffer) (base : ℕ) (flags : Flags) : NtoaBuffer :=
  let b :=
    if h : b.len < ntoaBufferSize then
      if base = 16 ∧ ¬ flags.uppercase then b.push (ascii 'x') h
      else if base = 16 ∧ flags.uppercase then b.push (ascii 'X') h
      else if base = 2 then b.push (ascii 'b') h
      else b
    else b
  if h : b.len < ntoaBufferSize then b.push (ascii '0') h else b

/-- The part for the sign. -/
def ntoaSign (b : NtoaBuffer) (negative : Bool) (flags : Flags) : NtoaBuffer :=
  if h : b.len < ntoaBufferSize then
    if negative then b.push (ascii '-') h
    else if flags.plus then b.push (ascii '+') h
    else if flags.space then b.push (ascii ' ') h
    else b
  else b

def ntoaFormat (s : Sink σ) (b : NtoaBuffer) (negative : Bool) (base prec width : ℕ)
    (flags : Flags) : Sink σ :=
  let (b, width) := ntoaZeros b negative prec width flags
  let b := if flags.hash then ntoaPrefix (ntoaShorten b base prec width flags) base flags else b
  outRev o s (ntoaSign b negative flags).chars width flags

def ntoaDigit (uppercase : Bool) (digit : ℕ) : Byte :=
  if digit < 10 then ascii '0' + BitVec.ofNat 8 digit
  else (if uppercase then ascii 'A' else ascii 'a') + BitVec.ofNat 8 digit - 10#8

/-- The `do` loop, with room for so many digits, the lowest of which comes first. -/
def ntoaDigits (base : ℕ) (uppercase : Bool) : ℕ → ℕ → List Byte
  | 0, _ => []
  | room + 1, value =>
    ntoaDigit uppercase (value % base) ::
      if value / base ≠ 0 then ntoaDigits base uppercase room (value / base) else []

theorem length_ntoaDigits_le (base : ℕ) (uppercase : Bool) (room value : ℕ) :
    (ntoaDigits base uppercase room value).length ≤ room := by
  induction room generalizing value with
  | zero => rfl
  | succ room ih =>
    have hrest := ih (value / base)
    rw [ntoaDigits, List.length_cons]
    split
    · omega
    · exact Nat.succ_le_succ (Nat.zero_le room)

/-- `_ntoa_long` and `_ntoa_long_long` after their types. -/
def ntoa (s : Sink σ) (value : ℕ) (negative : Bool) (base prec width : ℕ) (flags : Flags) : Sink σ :=
  let flags := if value = 0 then { flags with hash := false } else flags
  let b : NtoaBuffer :=
    if ¬ flags.precision ∨ value ≠ 0 then
      ⟨ntoaDigits base flags.uppercase ntoaBufferSize value, length_ntoaDigits_le _ _ _ _⟩
    else ⟨[], Nat.zero_le _⟩
  ntoaFormat o s b negative base prec width flags

def ntoaLong (s : Sink σ) (value : BitVec 64) : Bool → ℕ → ℕ → ℕ → Flags → Sink σ :=
  ntoa o s value.toNat

def ntoaLongLong (s : Sink σ) (value : BitVec 64) : Bool → ℕ → ℕ → ℕ → Flags → Sink σ :=
  ntoa o s value.toNat

end

/-- What the code relies on its callers for: a format string that does not end within a directive,
and as many arguments as it asks for. -/
inductive Fault
  | formatOverrun
  | noArgument
  deriving DecidableEq

/-- Each argument is one word. -/
def vaArg : List (BitVec 64) → Except Fault (BitVec 64 × List (BitVec 64))
  | [] => .error .noArgument
  | w :: va => .ok (w, va)

/-- The variables of `_vsnprintf` within a directive. -/
structure Directive where
  format : List Byte
  va : List (BitVec 64)
  flags : Flags
  width : ℕ
  precision : ℕ
  deriving DecidableEq

/-- The character at `format`, which is the terminator at the end. -/
def current : List Byte → Byte
  | [] => 0#8
  | c :: _ => c

/-- The cases of the switch on a flag. -/
def setFlag (flags : Flags) (c : Byte) : Option Flags :=
  if c = ascii '0' then some { flags with zeropad := true }
  else if c = ascii '-' then some { flags with left := true }
  else if c = ascii '+' then some { flags with plus := true }
  else if c = ascii ' ' then some { flags with space := true }
  else if c = ascii '#' then some { flags with hash := true }
  else none

/-- "evaluate flags" -/
def evalFlags (flags : Flags) : List Byte → Flags × List Byte
  | [] => (flags, [])
  | c :: format =>
    match setFlag flags c with
    | some flags => evalFlags flags format
    | none => (flags, c :: format)

/-- "evaluate width field" -/
def evalWidth (d : Directive) : Except Fault Directive :=
  if isDigit (current d.format) then
    let (width, format) := atoi 0 d.format
    .ok { d with width := width, format := format }
  else if current d.format = ascii '*' then do
    let (w, va) ← vaArg d.va
    if cInt w < 0 then
      -- reverse padding
      .ok { d with
        flags := { d.flags with left := true }
        width := (-w.setWidth 32).toNat
        format := d.format.tail
        va := va }
    else .ok { d with width := (w.setWidth 32).toNat, format := d.format.tail, va := va }
  else .ok { d with width := 0 }

/-- "evaluate precision field" -/
def evalPrecision (d : Directive) : Except Fault Directive :=
  if current d.format = ascii '.' then
    let d := { d with
      flags := { d.flags with precision := true }
      format := d.format.tail
      precision := 0 }
    if isDigit (current d.format) then
      let (precision, format) := atoi 0 d.format
      .ok { d with precision := precision, format := format }
    else if current d.format = ascii '*' then do
      let (w, va) ← vaArg d.va
      .ok { d with
        precision := if cInt w > 0 then (w.setWidth 32).toNat else 0
        format := d.format.tail
        va := va }
    else .ok d
  else .ok { d with precision := 0 }

/-- "evaluate length field", where `ptrdiff_t`, `intmax_t` and `size_t` are as long as `long`. -/
def evalLength (d : Directive) : Directive :=
  let c := current d.format
  if c = ascii 'l' then
    let d := { d with flags := { d.flags with long := true }, format := d.format.tail }
    if current d.format = ascii 'l' then
      { d with flags := { d.flags with longLong := true }, format := d.format.tail }
    else d
  else if c = ascii 'h' then
    let d := { d with flags := { d.flags with short := true }, format := d.format.tail }
    if current d.format = ascii 'h' then
      { d with flags := { d.flags with char := true }, format := d.format.tail }
    else d
  else if c = ascii 't' ∨ c = ascii 'j' ∨ c = ascii 'z' then
    { d with flags := { d.flags with long := true }, format := d.format.tail }
  else d

/-- `value > 0 ? value : 0 - value`, where the least `int` and the least `long` are their own
negation. -/
def magnitude {w : ℕ} (value : BitVec w) : BitVec w := if value.toInt > 0 then value else 0#w - value

/-- "set the base" -/
def integerBase (c : Byte) : ℕ :=
  if c = ascii 'x' ∨ c = ascii 'X' then 16
  else if c = ascii 'o' then 8
  else if c = ascii 'b' then 2
  else 10

/-- The flags that go with the conversion. -/
def integerFlags (flags : Flags) (c : Byte) : Flags :=
  -- no hash for dec format
  let flags := if integerBase c = 10 then { flags with hash := false } else flags
  let flags := if c = ascii 'X' then { flags with uppercase := true } else flags
  let flags :=
    if c ≠ ascii 'i' ∧ c ≠ ascii 'd' then { flags with plus := false, space := false } else flags
  -- ignore '0' flag when precision is given
  if flags.precision then { flags with zeropad := false } else flags

/-- The specifiers of integers. -/
abbrev IsInteger (c : Byte) : Prop :=
  c ∈ [ascii 'd', ascii 'i', ascii 'u', ascii 'x', ascii 'X', ascii 'o', ascii 'b']

instance (c : Byte) : Decidable (IsInteger c) := inferInstanceAs (Decidable (_ ∈ _))

section

variable {σ : Type} (strings : BitVec 64 → CString) (o : Stream σ) (s : Sink σ) (d : Directive)

/-- The cases for `d`, `i`, `u`, `x`, `X`, `o` and `b`. -/
def convertInteger (c : Byte) : Except Fault (Sink σ × List (BitVec 64)) := do
  let base := integerBase c
  let flags := integerFlags d.flags c
  let (w, va) ← vaArg d.va
  let s :=
    if c = ascii 'i' ∨ c = ascii 'd' then
      if flags.longLong then
        ntoaLongLong o s (magnitude w) (w.toInt < 0) base d.precision d.width flags
      else if flags.long then
        ntoaLong o s (magnitude w) (w.toInt < 0) base d.precision d.width flags
      else
        let value : BitVec 32 :=
          if flags.char then (w.setWidth 8).signExtend 32
          else if flags.short then (w.setWidth 16).signExtend 32 else w.setWidth 32
        ntoaLong o s ((magnitude value).setWidth 64) (value.toInt < 0) base d.precision d.width flags
    else
      if flags.longLong then ntoaLongLong o s w false base d.precision d.width flags
      else if flags.long then ntoaLong o s w false base d.precision d.width flags
      else
        let value : BitVec 32 :=
          if flags.char then (w.setWidth 8).setWidth 32
          else if flags.short then (w.setWidth 16).setWidth 32 else w.setWidth 32
        ntoaLong o s (value.setWidth 64) false base d.precision d.width flags
  .ok (s, va)

def convertChar : Except Fault (Sink σ × List (BitVec 64)) := do
  let s := if d.flags.left then s else o.pad (d.width - 1) s
  let (w, va) ← vaArg d.va
  let s := s.put o.write (w.setWidth 8)
  .ok (if d.flags.left then o.pad (d.width - 1) s else s, va)

/-- The loop under "string output". -/
def outString (flags : Flags) (s : Sink σ) (precision : ℕ) : List Byte → Sink σ
  | [] => s
  | c :: p =>
    if flags.precision then
      match precision with
      | 0 => s
      | precision + 1 => outString flags (s.put o.write c) precision p
    else outString flags (s.put o.write c) precision p

def convertString : Except Fault (Sink σ × List (BitVec 64)) := do
  let (w, va) ← vaArg d.va
  let p := (strings w).bytes
  let l := strnlenS p (if d.precision ≠ 0 then d.precision else 2 ^ 64 - 1)
  let l := if d.flags.precision then (if l < d.precision then l else d.precision) else l
  let s := if d.flags.left then s else o.pad (d.width - l) s
  let s := outString o d.flags s d.precision p
  .ok (if d.flags.left then o.pad (d.width - l) s else s, va)

def convertPointer : Except Fault (Sink σ × List (BitVec 64)) := do
  let (w, va) ← vaArg d.va
  .ok (ntoaLongLong o s w false 16 d.precision 16 { d.flags with zeropad := true, uppercase := true }, va)

/-- "evaluate specifier". A format string that ends here has its terminator written out, and is
then read on behind it. -/
def convert : Except Fault (Sink σ × List Byte × List (BitVec 64)) :=
  match d.format with
  | [] => .error .formatOverrun
  | c :: format =>
    if IsInteger c then do
      let (s, va) ← convertInteger o s d c
      .ok (s, format, va)
    else if c = ascii 'c' then do
      let (s, va) ← convertChar o s d
      .ok (s, format, va)
    else if c = ascii 's' then do
      let (s, va) ← convertString strings o s d
      .ok (s, format, va)
    else if c = ascii 'p' then do
      let (s, va) ← convertPointer o s d
      .ok (s, format, va)
    else .ok (s.put o.write c, format, d.va)

end

section

variable {σ : Type} (strings : BitVec 64 → CString)

/-- One directive, from behind its `%` on. -/
def directive (o : Stream σ) (s : Sink σ) (format : List Byte) (va : List (BitVec 64)) :
    Except Fault (Sink σ × List Byte × List (BitVec 64)) := do
  let (flags, format) := evalFlags noFlags format
  let d ← evalWidth ⟨format, va, flags, 0, 0⟩
  let d ← evalPrecision d
  convert strings o s (evalLength d)

/-- The loop over the format string, which gets shorter in each round: its length is enough
`fuel`. -/
def formatLoop (o : Stream σ) : ℕ → Sink σ → List Byte → List (BitVec 64) → Except Fault (Sink σ)
  | _, s, [], _ => .ok s
  | 0, _, _ :: _, _ => .error .formatOverrun
  | fuel + 1, s, c :: format, va =>
    if c ≠ ascii '%' then formatLoop o fuel (s.put o.write c) format va
    else do
      let (s, format, va) ← directive strings o s format va
      formatLoop o fuel s format va

/-- `_vsnprintf`, on the state `m` of what `out` writes to. -/
def internalVsnprintf (out : OutFct σ) (buffer maxlen : BitVec 64) (format : CString)
    (va : List (BitVec 64)) (m : σ) : Except Fault (σ × ℤ) := do
  let out := if buffer = 0#64 then outNull else out
  let s ← formatLoop strings ⟨out, buffer, maxlen⟩ format.bytes.length ⟨m, 0⟩ format.bytes va
  let last := if s.idx < maxlen.toNat then s.idx else (maxlen - 1#64).toNat
  .ok (out 0#8 buffer last maxlen s.target, cInt (BitVec.ofNat 64 s.idx))

def vsnprintf (buffer count : BitVec 64) (format : CString) (va : List (BitVec 64)) (m : Bytes) :
    Except Fault (Bytes × ℤ) := internalVsnprintf strings outBuffer buffer count format va m

def snprintf (buffer count : BitVec 64) (format : CString) (va : List (BitVec 64)) (m : Bytes) :
    Except Fault (Bytes × ℤ) := internalVsnprintf strings outBuffer buffer count format va m

def sprintf (buffer : BitVec 64) (format : CString) (va : List (BitVec 64)) (m : Bytes) :
    Except Fault (Bytes × ℤ) := internalVsnprintf strings outBuffer buffer (-1#64) format va m

/-- `wrap` is the address of `out_fct_wrap`. -/
def fctprintf (fct : Byte → σ → σ) (wrap : BitVec 64) (format : CString) (va : List (BitVec 64))
    (m : σ) : Except Fault (σ × ℤ) :=
  internalVsnprintf strings (outFct fct) wrap (-1#64) format va m

end

end KnutOS
