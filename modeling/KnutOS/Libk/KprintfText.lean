import KnutOS.Libk.Kprintf
import Mathlib.Tactic.SplitIfs

/-! What the conversions of `_vsnprintf` write, whatever they write it to. -/
namespace KnutOS.Kprintf

open Foundation

variable {σ : Type} {o : Stream σ} {s : Sink σ} {d : Directive} {flags : Flags} {c : Byte}
  {w : BitVec 64} {strings : BitVec 64 → CString}

def spaces (n : ℕ) : List Byte := List.replicate n (ascii ' ')

@[simp] theorem length_spaces (n : ℕ) : (spaces n).length = n := List.length_replicate

theorem pad_eq (n : ℕ) : o.pad n s = s.emit o.write (spaces n) := Sink.iterate_put

/-- So many spaces to the right of the text, or to its left. -/
def justify (left : Bool) (n : ℕ) (text : List Byte) : List Byte :=
  if left then text ++ spaces n else spaces n ++ text

/-- What `_out_rev` writes. -/
def revText (buf : List Byte) (width : ℕ) (flags : Flags) : List Byte :=
  if flags.left ∨ ¬ flags.zeropad then justify flags.left (width - buf.length) buf.reverse
  else buf.reverse

theorem outRev_eq (buf : List Byte) (width : ℕ) :
    outRev o s buf width flags = s.emit o.write (revText buf width flags) := by
  cases hl : flags.left with
  | true =>
    have hlen : s.idx + buf.length - s.idx = buf.length := Nat.add_sub_cancel_left _ _
    simp [outRev, revText, justify, hl, pad_eq, Sink.foldr_put, hlen]
  | false =>
    cases hz : flags.zeropad with
    | true => simp [outRev, revText, hl, hz, Sink.foldr_put]
    | false => simp [outRev, revText, justify, hl, hz, pad_eq, Sink.foldr_put]

/-- The buffer that `_ntoa_format` hands to `_out_rev`, with the width. -/
def formatted (b : NtoaBuffer) (negative : Bool) (base prec width : ℕ) (flags : Flags) :
    NtoaBuffer × ℕ :=
  let (b, width) := ntoaZeros b negative prec width flags
  let b := if flags.hash then ntoaPrefix (ntoaShorten b base prec width flags) base flags else b
  (ntoaSign b negative flags, width)

/-- The digits that `_ntoa_long` puts into the buffer. -/
def digitBuffer (value base : ℕ) (flags : Flags) : NtoaBuffer :=
  if ¬ flags.precision ∨ value ≠ 0 then
    ⟨ntoaDigits base flags.uppercase ntoaBufferSize value, length_ntoaDigits_le _ _ _ _⟩
  else ⟨[], Nat.zero_le _⟩

/-- What `_ntoa_long` writes. -/
def ntoaText (value : ℕ) (negative : Bool) (base prec width : ℕ) (flags : Flags) : List Byte :=
  let flags := if value = 0 then { flags with hash := false } else flags
  let (b, width) := formatted (digitBuffer value base flags) negative base prec width flags
  revText b.chars width flags

theorem ntoa_eq (value : ℕ) (negative : Bool) (base prec width : ℕ) :
    ntoa o s value negative base prec width flags =
      s.emit o.write (ntoaText value negative base prec width flags) := outRev_eq _ _

/-! The integer conversions -/

/-- The argument of `%d` and `%i`. -/
def signedArg (flags : Flags) (w : BitVec 64) : ℤ :=
  if flags.longLong ∨ flags.long then w.toInt
  else if flags.char then (w.setWidth 8).toInt
  else if flags.short then (w.setWidth 16).toInt
  else (w.setWidth 32).toInt

/-- The argument of `%u`, `%x`, `%X`, `%o` and `%b`. -/
def unsignedArg (flags : Flags) (w : BitVec 64) : ℕ :=
  if flags.longLong ∨ flags.long then w.toNat
  else if flags.char then w.toNat % 2 ^ 8
  else if flags.short then w.toNat % 2 ^ 16
  else w.toNat % 2 ^ 32

def integerText (d : Directive) (c : Byte) (w : BitVec 64) : List Byte :=
  if c = ascii 'i' ∨ c = ascii 'd' then
    ntoaText (signedArg d.flags w).natAbs (signedArg d.flags w < 0) (integerBase c) d.precision
      d.width (integerFlags d.flags c)
  else
    ntoaText (unsignedArg d.flags w) false (integerBase c) d.precision d.width
      (integerFlags d.flags c)

/-- The conversion leaves the length and the alignment alone. -/
theorem integerFlags_keeps (flags : Flags) (c : Byte) :
    (integerFlags flags c).longLong = flags.longLong ∧ (integerFlags flags c).long = flags.long ∧
      (integerFlags flags c).char = flags.char ∧ (integerFlags flags c).short = flags.short := by
  rw [integerFlags]
  split_ifs <;> exact ⟨rfl, rfl, rfl, rfl⟩

/-- The least integer of a type is its own negation, and has its magnitude as an unsigned one. -/
theorem toNat_magnitude {n : ℕ} (x : BitVec n) : (magnitude x).toNat = x.toInt.natAbs := by
  have hlt := x.isLt
  have hint := BitVec.toInt_eq_toNat_cond x
  rw [magnitude]
  by_cases hpos : x.toInt > 0
  · rw [if_pos hpos]
    split_ifs at hint <;> omega
  · rw [if_neg hpos, BitVec.zero_sub, BitVec.toNat_neg]
    by_cases hzero : x.toNat = 0
    · obtain rfl : x = 0#n := BitVec.eq_of_toNat_eq (by simpa using hzero)
      simp
    · rw [Nat.mod_eq_of_lt (by omega)]
      split_ifs at hint <;> omega

theorem toNat_magnitude_setWidth (x : BitVec 32) :
    ((magnitude x).setWidth 64).toNat = x.toInt.natAbs := by
  have hlt := (magnitude x).isLt
  rw [BitVec.toNat_setWidth, Nat.mod_eq_of_lt (by omega), toNat_magnitude]

/-- An `int` that comes from a narrower type has its value. -/
theorem toInt_narrow (char short : Bool) (w : BitVec 64) :
    (if char then (w.setWidth 8).signExtend 32
      else if short then (w.setWidth 16).signExtend 32 else w.setWidth 32).toInt =
    if char then (w.setWidth 8).toInt else if short then (w.setWidth 16).toInt
      else (w.setWidth 32).toInt := by
  cases char with
  | true => exact BitVec.toInt_signExtend_of_le (by decide)
  | false =>
    cases short with
    | true => exact BitVec.toInt_signExtend_of_le (by decide)
    | false => rfl

theorem toNat_narrow (char short : Bool) (w : BitVec 64) :
    ((if char then (w.setWidth 8).setWidth 32
      else if short then (w.setWidth 16).setWidth 32 else w.setWidth 32).setWidth 64).toNat =
    if char then w.toNat % 2 ^ 8 else if short then w.toNat % 2 ^ 16 else w.toNat % 2 ^ 32 := by
  cases char with
  | true =>
    simp only [if_true, BitVec.toNat_setWidth]
    omega
  | false =>
    cases short with
    | true =>
      simp only [if_true, Bool.false_eq_true, if_false, BitVec.toNat_setWidth]
      omega
    | false =>
      simp only [Bool.false_eq_true, if_false, BitVec.toNat_setWidth]
      omega

theorem convertInteger_eq (c : Byte) :
    convertInteger o s d c =
      (vaArg d.va).map fun r => (s.emit o.write (integerText d c r.1), r.2) := by
  obtain ⟨hll, hl, hc, hs⟩ := integerFlags_keeps d.flags c
  cases hva : vaArg d.va with
  | error e => simp [convertInteger, hva, Except.map, bind, Except.bind]
  | ok r =>
    simp only [convertInteger, hva, bind, Except.bind, Except.map, hll, hl, hc, hs, ntoaLong,
      ntoaLongLong, ntoa_eq, integerText, signedArg, unsignedArg, toNat_magnitude,
      toNat_magnitude_setWidth, toInt_narrow, toNat_narrow]
    by_cases hlongLong : d.flags.longLong = true
    · simp only [hlongLong, if_true, true_or]
      split <;> rfl
    · by_cases hlong : d.flags.long = true
      · simp only [hlongLong, hlong, Bool.false_eq_true, if_true, if_false, or_true]
        split <;> rfl
      · simp only [hlongLong, hlong, Bool.false_eq_true, if_false, or_false]
        split <;> rfl

/-! The other conversions -/

/-- What `%s` writes of a string. Its length is an `unsigned int`. -/
def stringText (d : Directive) (text : List Byte) : List Byte :=
  let shown := if d.flags.precision then text.take d.precision else text
  justify d.flags.left (d.width - shown.length % 2 ^ 32) shown

theorem go_eq (str : List Byte) (maxsize : ℕ) : strnlenS.go str maxsize = min str.length maxsize := by
  induction str generalizing maxsize with
  | nil => simp [strnlenS.go]
  | cons c str ih =>
    cases maxsize with
    | zero => simp [strnlenS.go]
    | succ maxsize =>
      rw [strnlenS.go, ih, List.length_cons]
      omega

/-- What the precision is, once it has been read: an `unsigned int`, which is 0 where there is
none. -/
structure HasPrecision (d : Directive) : Prop where
  lt : d.precision < 2 ^ 32
  none : d.flags.precision = false → d.precision = 0

/-- The length that the padding is counted from is the one of what is shown. -/
theorem length_shown (str : CString) (hp : HasPrecision d) {l : ℕ}
    (hl : l = strnlenS str.bytes (if d.precision ≠ 0 then d.precision else 2 ^ 64 - 1)) :
    (if d.flags.precision then (if l < d.precision then l else d.precision) else l) =
      (if d.flags.precision then str.bytes.take d.precision else str.bytes).length % 2 ^ 32 := by
  have hlt := hp.lt
  have hmem := str.inMemory
  rw [strnlenS, go_eq] at hl
  cases hf : d.flags.precision with
  | false =>
    rw [hp.none hf] at hl
    simp only [Bool.false_eq_true, if_false, ne_eq, not_true_eq_false] at hl ⊢
    omega
  | true =>
    rw [if_pos rfl, if_pos rfl, List.length_take]
    by_cases hzero : d.precision = 0
    · rw [hzero, if_neg (Nat.not_lt_zero l), Nat.zero_min, Nat.zero_mod]
    · rw [if_pos hzero] at hl
      split <;> omega

theorem outString_eq (precision : ℕ) (text : List Byte) :
    outString o flags s precision text =
      s.emit o.write (if flags.precision then text.take precision else text) := by
  induction text generalizing s precision with
  | nil => simp [outString]
  | cons c text ih =>
    cases hp : flags.precision with
    | false => simp [outString, hp, ih, Sink.emit_cons]
    | true =>
      cases precision with
      | zero => simp [outString, hp]
      | succ precision => simp [outString, hp, ih, Sink.emit_cons]

theorem convertChar_eq :
    convertChar o s d =
      (vaArg d.va).map fun r =>
        (s.emit o.write (justify d.flags.left (d.width - 1) [r.1.setWidth 8]), r.2) := by
  cases hva : vaArg d.va with
  | error e => simp [convertChar, hva, Except.map, bind, Except.bind]
  | ok r =>
    cases hl : d.flags.left with
    | true => simp [convertChar, hva, bind, Except.bind, Except.map, hl, pad_eq, justify, Sink.emit_cons]
    | false => simp [convertChar, hva, bind, Except.bind, Except.map, hl, pad_eq, justify, Sink.emit_cons]

theorem convertString_eq (hp : HasPrecision d) :
    convertString strings o s d =
      (vaArg d.va).map fun r => (s.emit o.write (stringText d (strings r.1).bytes), r.2) := by
  cases hva : vaArg d.va with
  | error e => simp [convertString, hva, Except.map, bind, Except.bind]
  | ok r =>
    have hl := length_shown (strings r.1) hp rfl
    simp only [convertString, hva, bind, Except.bind, Except.map, hl, outString_eq, pad_eq,
      stringText, justify]
    cases hleft : d.flags.left with
    | true => simp
    | false => simp

theorem convertPointer_eq :
    convertPointer o s d =
      (vaArg d.va).map fun r =>
        (s.emit o.write (ntoaText r.1.toNat false 16 d.precision 16
          { d.flags with zeropad := true, uppercase := true }), r.2) := by
  cases hva : vaArg d.va with
  | error e => simp [convertPointer, hva, Except.map, bind, Except.bind]
  | ok r =>
    simp only [convertPointer, hva, bind, Except.bind, Except.map, ntoaLongLong, ntoa_eq]

/-- What a directive writes that ends with the conversion `c`, and the arguments after it. -/
def conversionText (strings : BitVec 64 → CString) (d : Directive) (c : Byte) :
    Except Fault (List Byte × List (BitVec 64)) :=
  if IsInteger c then
    (vaArg d.va).map fun r => (integerText d c r.1, r.2)
  else if c = ascii 'c' then
    (vaArg d.va).map fun r => (justify d.flags.left (d.width - 1) [r.1.setWidth 8], r.2)
  else if c = ascii 's' then
    (vaArg d.va).map fun r => (stringText d (strings r.1).bytes, r.2)
  else if c = ascii 'p' then
    (vaArg d.va).map fun r =>
      (ntoaText r.1.toNat false 16 d.precision 16
        { d.flags with zeropad := true, uppercase := true }, r.2)
  else .ok ([c], d.va)

theorem convert_eq (hp : HasPrecision d) {c : Byte} {format : List Byte} (hf : d.format = c :: format) :
    convert strings o s d =
      (conversionText strings d c).map fun r => (s.emit o.write r.1, format, r.2) := by
  simp only [convert, hf, conversionText, convertInteger_eq, convertChar_eq, convertString_eq hp,
    convertPointer_eq, Sink.put_eq_emit]
  cases vaArg d.va with
  | error e => split_ifs <;> rfl
  | ok r => split_ifs <;> rfl

end KnutOS.Kprintf
