import KnutOS.Foundation.Numeral
import KnutOS.Libk.KprintfText

/-! The language of format strings: `_vsnprintf` takes every string apart in the one way in which
each field of a directive is as long as it can be. -/
namespace KnutOS.Kprintf

open Foundation

variable {σ : Type} {o : Stream σ} {s : Sink σ} {strings : BitVec 64 → CString} {flags : Flags}
  {va : List (BitVec 64)} {c : Byte} {format rest : List Byte} {width precision : ℕ}

@[simp] theorem current_nil : current [] = 0#8 := rfl

@[simp] theorem current_cons : current (c :: rest) = c := rfl

inductive FlagChar
  | zero
  | minus
  | plus
  | space
  | hash

namespace FlagChar

def char : FlagChar → Byte
  | zero => ascii '0'
  | minus => ascii '-'
  | plus => ascii '+'
  | space => ascii ' '
  | hash => ascii '#'

def set (flags : Flags) : FlagChar → Flags
  | zero => { flags with zeropad := true }
  | minus => { flags with left := true }
  | plus => { flags with plus := true }
  | space => { flags with space := true }
  | hash => { flags with hash := true }

end FlagChar

theorem setFlag_char (f : FlagChar) : setFlag flags f.char = some (f.set flags) := by
  cases f <;> rfl

theorem setFlag_eq_none (hc : ∀ f : FlagChar, c ≠ f.char) : setFlag flags c = none := by
  have hzero : c ≠ ascii '0' := hc .zero
  have hminus : c ≠ ascii '-' := hc .minus
  have hplus : c ≠ ascii '+' := hc .plus
  have hspace : c ≠ ascii ' ' := hc .space
  have hhash : c ≠ ascii '#' := hc .hash
  simp only [setFlag, hzero, hminus, hplus, hspace, hhash, if_false]

theorem evalFlags_render (fs : List FlagChar) (hrest : ∀ f : FlagChar, current rest ≠ f.char) :
    evalFlags flags (fs.map FlagChar.char ++ rest) = (fs.foldl FlagChar.set flags, rest) := by
  induction fs generalizing flags with
  | nil =>
    cases rest with
    | nil => rfl
    | cons c rest =>
      have hc : ∀ f : FlagChar, c ≠ f.char := hrest
      simp [evalFlags, setFlag_eq_none hc]
  | cons f fs ih => simp [evalFlags, setFlag_char, ih]

/-! Decimal numbers -/

def digitChar (d : Fin 10) : Byte := ascii '0' + BitVec.ofNat 8 d

theorem isDigit_iff : isDigit c = true ↔ ∃ d, c = digitChar d := by
  have hzero : ascii '0' = 48#8 := rfl
  have hbounds : isDigit c = true ↔ 48 ≤ c.toNat ∧ c.toNat ≤ 57 := decide_eq_true_iff
  rw [hbounds]
  constructor
  · rintro ⟨hlo, hhi⟩
    refine ⟨⟨c.toNat - 48, by omega⟩, BitVec.eq_of_toNat_eq ?_⟩
    simp only [digitChar, hzero, BitVec.toNat_add, BitVec.toNat_ofNat]
    omega
  · rintro ⟨d, rfl⟩
    decide +revert

def number (ds : List (Fin 10)) : ℕ := horner 10 0 (ds.map Fin.val) % 2 ^ 32

theorem atoi_render (ds : List (Fin 10)) (hrest : isDigit (current rest) = false) :
    atoi 0 (ds.map digitChar ++ rest) = (number ds, rest) := by
  have hread : ∀ i, atoi i (ds.map digitChar ++ rest) =
      ((ds.map Fin.val).foldl (fun v d => (v * 10 + d) % 2 ^ 32) i, rest) := by
    induction ds with
    | nil =>
      intro i
      cases rest with
      | nil => rfl
      | cons c rest => simp [atoi, show isDigit c = false from hrest]
    | cons d ds ih =>
      intro i
      have hd : isDigit (digitChar d) = true := isDigit_iff.mpr ⟨d, rfl⟩
      have hval : (digitChar d - ascii '0').toNat = d := by decide +revert
      simp only [List.map_cons, List.cons_append, atoi, hd, if_true, hval, ih, List.foldl_cons]
  rw [hread, number, ← foldl_mod, Nat.zero_mod]

theorem exists_flags (format : List Byte) :
    ∃ (fs : List FlagChar) (rest : List Byte), format = fs.map FlagChar.char ++ rest ∧
      ∀ f : FlagChar, current rest ≠ f.char := by
  induction format with
  | nil => exact ⟨[], [], rfl, fun f => by cases f <;> decide⟩
  | cons c format ih =>
    by_cases hc : ∃ f : FlagChar, c = f.char
    · obtain ⟨f, rfl⟩ := hc
      obtain ⟨fs, rest, rfl, hrest⟩ := ih
      exact ⟨f :: fs, rest, rfl, hrest⟩
    · exact ⟨[], c :: format, rfl, fun f hf => hc ⟨f, hf⟩⟩

theorem exists_digits (format : List Byte) :
    ∃ (ds : List (Fin 10)) (rest : List Byte), format = ds.map digitChar ++ rest ∧
      isDigit (current rest) = false := by
  induction format with
  | nil => exact ⟨[], [], rfl, rfl⟩
  | cons c format ih =>
    cases hc : isDigit c with
    | false => exact ⟨[], c :: format, rfl, hc⟩
    | true =>
      obtain ⟨d, rfl⟩ := isDigit_iff.mp hc
      obtain ⟨ds, rest, rfl, hrest⟩ := ih
      exact ⟨d :: ds, rest, rfl, hrest⟩

/-! The fields of a directive. `Ends` says that the field is not continued by what follows. -/

inductive Width
  | none
  | digits (first : Fin 10) (more : List (Fin 10))
  | star

namespace Width

def render : Width → List Byte
  | none => []
  | digits first more => (first :: more).map digitChar
  | star => [ascii '*']

def Ends (next : Byte) : Width → Prop
  | none => isDigit next = false ∧ next ≠ ascii '*'
  | digits _ _ => isDigit next = false
  | star => True

instance (next : Byte) : (f : Width) → Decidable (f.Ends next)
  | none => inferInstanceAs (Decidable (_ ∧ _))
  | digits _ _ => inferInstanceAs (Decidable (_ = _))
  | star => inferInstanceAs (Decidable True)

/-- A negative argument is for the left side. -/
def eval (flags : Flags) (va : List (BitVec 64)) :
    Width → Except Fault (Flags × ℕ × List (BitVec 64))
  | none => .ok (flags, 0, va)
  | digits first more => .ok (flags, number (first :: more), va)
  | star => (vaArg va).map fun r =>
    ({ flags with left := flags.left || decide (cInt r.1 < 0) }, (cInt r.1).natAbs, r.2)

end Width

inductive Precision
  | none
  | empty
  | digits (first : Fin 10) (more : List (Fin 10))
  | star

namespace Precision

def render : Precision → List Byte
  | none => []
  | empty => [ascii '.']
  | digits first more => ascii '.' :: (first :: more).map digitChar
  | star => [ascii '.', ascii '*']

def Ends (next : Byte) : Precision → Prop
  | none => next ≠ ascii '.'
  | empty => isDigit next = false ∧ next ≠ ascii '*'
  | digits _ _ => isDigit next = false
  | star => True

instance (next : Byte) : (f : Precision) → Decidable (f.Ends next)
  | none => inferInstanceAs (Decidable (_ ≠ _))
  | empty => inferInstanceAs (Decidable (_ ∧ _))
  | digits _ _ => inferInstanceAs (Decidable (_ = _))
  | star => inferInstanceAs (Decidable True)

/-- A negative argument is as good as 0. -/
def eval (flags : Flags) (va : List (BitVec 64)) :
    Precision → Except Fault (Flags × ℕ × List (BitVec 64))
  | none => .ok (flags, 0, va)
  | empty => .ok ({ flags with precision := true }, 0, va)
  | digits first more => .ok ({ flags with precision := true }, number (first :: more), va)
  | star => (vaArg va).map fun r => ({ flags with precision := true }, (cInt r.1).toNat, r.2)

end Precision

inductive Length
  | none
  | l
  | ll
  | h
  | hh
  | t
  | j
  | z

namespace Length

def render : Length → List Byte
  | none => []
  | l => [ascii 'l']
  | ll => [ascii 'l', ascii 'l']
  | h => [ascii 'h']
  | hh => [ascii 'h', ascii 'h']
  | t => [ascii 't']
  | j => [ascii 'j']
  | z => [ascii 'z']

def Ends (next : Byte) : Length → Prop
  | none => next ∉ [ascii 'l', ascii 'h', ascii 't', ascii 'j', ascii 'z']
  | l => next ≠ ascii 'l'
  | h => next ≠ ascii 'h'
  | _ => True

instance (next : Byte) : (f : Length) → Decidable (f.Ends next)
  | none => inferInstanceAs (Decidable (_ ∉ _))
  | l => inferInstanceAs (Decidable (_ ≠ _))
  | h => inferInstanceAs (Decidable (_ ≠ _))
  | ll => inferInstanceAs (Decidable True)
  | hh => inferInstanceAs (Decidable True)
  | t => inferInstanceAs (Decidable True)
  | j => inferInstanceAs (Decidable True)
  | z => inferInstanceAs (Decidable True)

def set (flags : Flags) : Length → Flags
  | none => flags
  | l => { flags with long := true }
  | ll => { flags with long := true, longLong := true }
  | h => { flags with short := true }
  | hh => { flags with short := true, char := true }
  | t => { flags with long := true }
  | j => { flags with long := true }
  | z => { flags with long := true }

end Length

theorem toNat_setWidth_of_nonneg {w : BitVec 64} (h : ¬ cInt w < 0) :
    (w.setWidth 32).toNat = (cInt w).toNat := by
  rw [cInt, BitVec.toInt_eq_toNat_cond] at *
  split_ifs at * <;> omega

theorem toNat_neg_setWidth {w : BitVec 64} (h : cInt w < 0) :
    (-w.setWidth 32).toNat = (cInt w).natAbs := by
  have hlt := (w.setWidth 32).isLt
  rw [cInt, BitVec.toInt_eq_toNat_cond] at *
  rw [BitVec.toNat_neg]
  split_ifs at * <;> omega

theorem isDigit_digitChar (d : Fin 10) : isDigit (digitChar d) = true := isDigit_iff.mpr ⟨d, rfl⟩

/-- Reading digits where there is one. -/
theorem current_digits (first : Fin 10) (more : List (Fin 10)) (rest : List Byte) :
    isDigit (current ((first :: more).map digitChar ++ rest)) = true := isDigit_digitChar first

theorem evalWidth_render (f : Width) (hf : f.Ends (current rest)) :
    evalWidth ⟨f.render ++ rest, va, flags, width, precision⟩ =
      (f.eval flags va).map fun r => ⟨rest, r.2.2, r.1, r.2.1, precision⟩ := by
  cases f with
  | none => simp [evalWidth, Width.render, Width.eval, hf.1, hf.2, Except.map]
  | digits first more =>
    simp only [evalWidth, Width.render, Width.eval, current_digits, if_true, atoi_render _ hf,
      Except.map]
  | star =>
    have hd : isDigit (ascii '*') = false := rfl
    cases va with
    | nil => simp [evalWidth, Width.render, Width.eval, hd, vaArg, bind, Except.bind, Except.map]
    | cons w va =>
      by_cases hw : cInt w < 0
      · simp [evalWidth, Width.render, Width.eval, hd, vaArg, bind, Except.bind, Except.map,
          hw, toNat_neg_setWidth hw]
      · have hle : 0 ≤ cInt w := by omega
        have habs : (cInt w).toNat = (cInt w).natAbs := by omega
        simp [evalWidth, Width.render, Width.eval, hd, vaArg, bind, Except.bind, Except.map,
          hw, toNat_setWidth_of_nonneg hw, habs]

theorem evalPrecision_render (f : Precision) (hf : f.Ends (current rest)) :
    evalPrecision ⟨f.render ++ rest, va, flags, width, precision⟩ =
      (f.eval flags va).map fun r => ⟨rest, r.2.2, r.1, width, r.2.1⟩ := by
  cases f with
  | none => simp [evalPrecision, Precision.render, Precision.eval, show current rest ≠ _ from hf, Except.map]
  | empty => simp [evalPrecision, Precision.render, Precision.eval, hf.1, hf.2, Except.map]
  | digits first more =>
    simp only [evalPrecision, Precision.render, Precision.eval, List.cons_append, current_cons, List.tail_cons,
      current_digits, if_true, atoi_render _ hf, Except.map]
  | star =>
    have hd : isDigit (ascii '*') = false := rfl
    cases va with
    | nil => simp [evalPrecision, Precision.render, Precision.eval, hd, vaArg, bind, Except.bind, Except.map]
    | cons w va =>
      by_cases hw : cInt w > 0
      · simp [evalPrecision, Precision.render, Precision.eval, hd, vaArg, bind, Except.bind, Except.map,
          hw, toNat_setWidth_of_nonneg (show ¬ cInt w < 0 by omega)]
      · have hzero : (cInt w).toNat = 0 := by omega
        simp [evalPrecision, Precision.render, Precision.eval, hd, vaArg, bind, Except.bind, Except.map,
          hw, hzero]

theorem evalLength_render (f : Length) (hf : f.Ends (current rest)) :
    evalLength ⟨f.render ++ rest, va, flags, width, precision⟩ =
      ⟨rest, va, f.set flags, width, precision⟩ := by
  cases f with
  | none =>
    obtain ⟨hl, hh, ht, hj, hz⟩ : current rest ≠ ascii 'l' ∧ current rest ≠ ascii 'h' ∧
        current rest ≠ ascii 't' ∧ current rest ≠ ascii 'j' ∧ current rest ≠ ascii 'z' := by
      simpa [Length.Ends] using hf
    simp [evalLength, Length.render, Length.set, hl, hh, ht, hj, hz]
  | l => simp [evalLength, Length.render, Length.set, show current rest ≠ _ from hf]
  | h =>
    have hne : ascii 'h' ≠ ascii 'l' := by decide
    simp [evalLength, Length.render, Length.set, hne, show current rest ≠ _ from hf]
  | ll => rfl
  | hh => rfl
  | t => rfl
  | j => rfl
  | z => rfl

/-! Directives -/

/-- What stands between the `%` and the conversion character. -/
structure Fields where
  flags : List FlagChar
  width : Width
  precision : Precision
  length : Length

namespace Fields

variable (f : Fields)

def render : List Byte :=
  f.flags.map FlagChar.char ++ (f.width.render ++ (f.precision.render ++ f.length.render))

/-- No field is continued by what follows it, which is `next` behind the last. -/
structure Fits (next : Byte) : Prop where
  flags : ∀ c : FlagChar,
    current (f.width.render ++ (f.precision.render ++ (f.length.render ++ [next]))) ≠ c.char
  width : f.width.Ends (current (f.precision.render ++ (f.length.render ++ [next])))
  precision : f.precision.Ends (current (f.length.render ++ [next]))
  length : f.length.Ends next

/-- What the fields say, with what they take from the arguments. -/
def eval (rest : List Byte) (va : List (BitVec 64)) : Except Fault Directive := do
  let (flags, width, va) ← f.width.eval (f.flags.foldl FlagChar.set noFlags) va
  let (flags, precision, va) ← f.precision.eval flags va
  .ok ⟨rest, va, f.length.set flags, width, precision⟩

end Fields

/-- The next character is all that a field knows of the rest. -/
theorem current_append (l rest : List Byte) : current (l ++ [current rest]) = current (l ++ rest) := by
  cases l with
  | nil => rfl
  | cons c l => rfl

theorem current_append_append (l₁ l₂ rest : List Byte) :
    current (l₁ ++ (l₂ ++ [current rest])) = current (l₁ ++ (l₂ ++ rest)) := by
  rw [← List.append_assoc, current_append, List.append_assoc]

theorem current_append_append_append (l₁ l₂ l₃ rest : List Byte) :
    current (l₁ ++ (l₂ ++ (l₃ ++ [current rest]))) = current (l₁ ++ (l₂ ++ (l₃ ++ rest))) := by
  rw [← List.append_assoc, current_append_append, List.append_assoc]

theorem directive_render (strings : BitVec 64 → CString) (o : Stream σ) (s : Sink σ)
    (va : List (BitVec 64)) (rest : List Byte) (f : Fields) (hf : f.Fits (current rest)) :
    directive strings o s (f.render ++ rest) va = (f.eval rest va).bind (convert strings o s) := by
  obtain ⟨hflags, hwidth, hprec, hlen⟩ := hf
  simp only [current_append_append_append, current_append_append, current_append] at hflags hwidth hprec
  simp only [directive, Fields.render, List.append_assoc, evalFlags_render f.flags hflags,
    evalWidth_render f.width hwidth, Fields.eval, bind]
  cases f.width.eval (f.flags.foldl FlagChar.set noFlags) va with
  | error e => rfl
  | ok r =>
    simp only [Except.map, Except.bind, evalPrecision_render f.precision hprec]
    cases f.precision.eval r.1 r.2.2 with
    | error e => rfl
    | ok r' => simp only [evalLength_render f.length hlen]

/-! Every string begins with fields that are as long as they can be. -/

theorem eq_cons_of_current {h : Byte} (hh : h ≠ 0#8) (hc : current format = h) :
    ∃ rest, format = h :: rest := by
  cases format with
  | nil => exact absurd hc.symm hh
  | cons c format => exact ⟨format, by rw [← hc]; rfl⟩

theorem exists_width (format : List Byte) :
    ∃ (f : Width) (rest : List Byte), format = f.render ++ rest ∧ f.Ends (current rest) := by
  obtain ⟨ds, rest, rfl, hrest⟩ := exists_digits format
  cases ds with
  | cons first more => exact ⟨.digits first more, rest, rfl, hrest⟩
  | nil =>
    by_cases hstar : current rest = ascii '*'
    · obtain ⟨rest, rfl⟩ := eq_cons_of_current (by decide) hstar
      exact ⟨.star, rest, rfl, trivial⟩
    · exact ⟨.none, rest, rfl, hrest, hstar⟩

theorem exists_precision (format : List Byte) :
    ∃ (f : Precision) (rest : List Byte), format = f.render ++ rest ∧ f.Ends (current rest) := by
  by_cases hdot : current format = ascii '.'
  · obtain ⟨rest, rfl⟩ := eq_cons_of_current (by decide) hdot
    -- behind the dot it is as with a width
    obtain ⟨f, rest, rfl, hrest⟩ := exists_width rest
    cases f with
    | none => exact ⟨.empty, rest, rfl, hrest⟩
    | digits first more => exact ⟨.digits first more, rest, rfl, hrest⟩
    | star => exact ⟨.star, rest, rfl, trivial⟩
  · exact ⟨.none, format, rfl, hdot⟩

theorem exists_length (format : List Byte) :
    ∃ (f : Length) (rest : List Byte), format = f.render ++ rest ∧ f.Ends (current rest) := by
  by_cases hl : current format = ascii 'l'
  · obtain ⟨rest, rfl⟩ := eq_cons_of_current (by decide) hl
    by_cases hll : current rest = ascii 'l'
    · obtain ⟨rest, rfl⟩ := eq_cons_of_current (by decide) hll
      exact ⟨.ll, rest, rfl, trivial⟩
    · exact ⟨.l, rest, rfl, hll⟩
  by_cases hh : current format = ascii 'h'
  · obtain ⟨rest, rfl⟩ := eq_cons_of_current (by decide) hh
    by_cases hhh : current rest = ascii 'h'
    · obtain ⟨rest, rfl⟩ := eq_cons_of_current (by decide) hhh
      exact ⟨.hh, rest, rfl, trivial⟩
    · exact ⟨.h, rest, rfl, hhh⟩
  by_cases ht : current format = ascii 't'
  · obtain ⟨rest, rfl⟩ := eq_cons_of_current (by decide) ht
    exact ⟨.t, rest, rfl, trivial⟩
  by_cases hj : current format = ascii 'j'
  · obtain ⟨rest, rfl⟩ := eq_cons_of_current (by decide) hj
    exact ⟨.j, rest, rfl, trivial⟩
  by_cases hz : current format = ascii 'z'
  · obtain ⟨rest, rfl⟩ := eq_cons_of_current (by decide) hz
    exact ⟨.z, rest, rfl, trivial⟩
  exact ⟨.none, format, rfl, by simp [Length.Ends, hl, hh, ht, hj, hz]⟩

theorem exists_fields (format : List Byte) :
    ∃ (f : Fields) (rest : List Byte), format = f.render ++ rest ∧ f.Fits (current rest) := by
  obtain ⟨flags, rest₁, rfl, hflags⟩ := exists_flags format
  obtain ⟨width, rest₂, rfl, hwidth⟩ := exists_width rest₁
  obtain ⟨precision, rest₃, rfl, hprecision⟩ := exists_precision rest₂
  obtain ⟨length, rest, rfl, hlength⟩ := exists_length rest₃
  refine ⟨⟨flags, width, precision, length⟩, rest, by simp [Fields.render], ?_⟩
  constructor
  · simpa only [current_append_append_append] using hflags
  · simpa only [current_append_append] using hwidth
  · simpa only [current_append] using hprecision
  · exact hlength

/-! Format strings -/

/-- A part of a format string. A directive is one with its conversion character. -/
inductive Piece
  | literal (c : Byte) (hc : c ≠ 0#8 ∧ c ≠ ascii '%')
  | directive (f : Fields) (c : Byte) (hc : c ≠ 0#8) (hf : f.Fits c)

def Piece.render : Piece → List Byte
  | literal c _ => [c]
  | directive f c _ _ => ascii '%' :: (f.render ++ [c])

def render (ps : List Piece) : List Byte := ps.flatMap Piece.render

theorem render_cons (p : Piece) (ps : List Piece) (rest : List Byte) :
    render (p :: ps) ++ rest = p.render ++ (render ps ++ rest) := by
  rw [render, List.flatMap_cons, List.append_assoc, render]

/-- What is written for a part, and the arguments after it. -/
def Piece.text (strings : BitVec 64 → CString) (va : List (BitVec 64)) :
    Piece → Except Fault (List Byte × List (BitVec 64))
  | literal c _ => .ok ([c], va)
  | directive f c _ _ => (f.eval [] va).bind fun d => conversionText strings d c

/-- What is written for the parts in turn. -/
def text (strings : BitVec 64 → CString) :
    List Piece → List (BitVec 64) → Except Fault (List Byte × List (BitVec 64))
  | [], va => .ok ([], va)
  | p :: ps, va => do
    let (t, va) ← p.text strings va
    let (t', va) ← text strings ps va
    .ok (t ++ t', va)

/-- The beginning of a directive at the end of the string. -/
structure Cut where
  fields : Fields
  fits : fields.Fits 0#8

def renderCut : Option Cut → List Byte
  | none => []
  | some cut => ascii '%' :: cut.fields.render

/-- What the loop does there. -/
def endsWith (cut : Option Cut) (s : Sink σ) (va : List (BitVec 64)) : Except Fault (Sink σ) :=
  match cut with
  | none => .ok s
  | some cut => (cut.fields.eval [] va).bind fun _ => .error .formatOverrun

/-! What has been read does not depend on what follows. -/

theorem eval_rest (f : Fields) (rest : List Byte) :
    f.eval rest va = (f.eval [] va).map fun d => { d with format := rest } := by
  simp only [Fields.eval, bind]
  cases f.width.eval (f.flags.foldl FlagChar.set noFlags) va with
  | error e => rfl
  | ok r =>
    simp only [Except.bind]
    cases f.precision.eval r.1 r.2.2 with
    | error e => rfl
    | ok r' => rfl

theorem format_eval {f : Fields} {d : Directive} (h : f.eval rest va = .ok d) : d.format = rest := by
  rw [eval_rest] at h
  cases hd : f.eval [] va with
  | error e => simp [hd, Except.map] at h
  | ok d' =>
    simp only [hd, Except.map] at h
    cases h
    rfl

theorem number_lt (ds : List (Fin 10)) : number ds < 2 ^ 32 := Nat.mod_lt _ (by decide)

theorem precision_length (f : Length) : (f.set flags).precision = flags.precision := by
  cases f <;> rfl

theorem cInt_toNat_lt (w : BitVec 64) : (cInt w).toNat < 2 ^ 32 := by
  have hlt := (w.setWidth 32).isLt
  rw [cInt, BitVec.toInt_eq_toNat_cond]
  split_ifs <;> omega

theorem hasPrecision_precision {f : Precision} {r : Flags × ℕ × List (BitVec 64)}
    (h : f.eval flags va = .ok r) : r.2.1 < 2 ^ 32 ∧ (r.1.precision = false → r.2.1 = 0) := by
  cases f with
  | none =>
    cases h
    exact ⟨Nat.two_pow_pos 32, fun _ => rfl⟩
  | empty =>
    cases h
    exact ⟨Nat.two_pow_pos 32, fun _ => rfl⟩
  | digits first more =>
    cases h
    exact ⟨number_lt _, fun hfalse => absurd hfalse (by simp)⟩
  | star =>
    cases va with
    | nil => cases h
    | cons w va =>
      cases h
      exact ⟨cInt_toNat_lt w, fun hfalse => absurd hfalse (by simp)⟩

theorem hasPrecision_eval {f : Fields} {d : Directive} (h : f.eval rest va = .ok d) :
    HasPrecision d := by
  simp only [Fields.eval, bind] at h
  cases hw : f.width.eval (f.flags.foldl FlagChar.set noFlags) va with
  | error e => simp [hw, Except.bind] at h
  | ok r =>
    simp only [hw, Except.bind] at h
    cases hp : f.precision.eval r.1 r.2.2 with
    | error e => simp [hp] at h
    | ok r' =>
      obtain ⟨hlt, hnone⟩ := hasPrecision_precision hp
      simp only [hp] at h
      cases h
      exact ⟨hlt, fun hfalse => hnone (by rwa [precision_length] at hfalse)⟩

theorem directive_piece (f : Fields) (hc : c ≠ 0#8) (hf : f.Fits c) :
    directive strings o s (f.render ++ c :: rest) va =
      ((Piece.directive f c hc hf).text strings va).map fun r => (s.emit o.write r.1, rest, r.2) := by
  rw [directive_render strings o s va (c :: rest) f hf, eval_rest, Piece.text]
  cases hd : f.eval [] va with
  | error e => rfl
  | ok d =>
    have hp := hasPrecision_eval hd
    exact convert_eq (d := { d with format := c :: rest }) ⟨hp.lt, hp.none⟩ rfl

theorem formatLoop_nil (fuel : ℕ) : formatLoop strings o fuel s [] va = .ok s := by
  cases fuel <;> rfl

theorem formatLoop_renderCut (cut : Option Cut) {fuel : ℕ} (hfuel : (renderCut cut).length ≤ fuel) :
    formatLoop strings o fuel s (renderCut cut) va = endsWith cut s va := by
  cases cut with
  | none => exact formatLoop_nil fuel
  | some cut =>
    cases fuel with
    | zero => simp [renderCut] at hfuel
    | succ fuel =>
      have hrender := directive_render strings o s va [] cut.fields cut.fits
      rw [List.append_nil] at hrender
      simp only [renderCut, formatLoop, ne_eq, not_true_eq_false, if_false, hrender, bind, endsWith]
      cases hd : cut.fields.eval [] va with
      | error e => rfl
      | ok d =>
        simp only [Except.bind, convert, format_eval hd]

/-- What the loop makes of the parts of the string. -/
theorem formatLoop_render (strings : BitVec 64 → CString) (o : Stream σ) (s : Sink σ)
    (va : List (BitVec 64)) (ps : List Piece) (cut : Option Cut) {fuel : ℕ}
    (hfuel : (render ps ++ renderCut cut).length ≤ fuel) :
    formatLoop strings o fuel s (render ps ++ renderCut cut) va =
      (text strings ps va).bind fun r => endsWith cut (s.emit o.write r.1) r.2 := by
  induction ps generalizing fuel s va with
  | nil => exact formatLoop_renderCut cut hfuel
  | cons p ps ih =>
    cases fuel with
    | zero => cases p <;> simp [render, Piece.render] at hfuel
    | succ fuel =>
      cases p with
      | literal c hc =>
        have hlen : (render ps ++ renderCut cut).length ≤ fuel := by
          simp [render, Piece.render] at hfuel ⊢
          omega
        simp only [render_cons, Piece.render, List.cons_append, List.nil_append, formatLoop, ne_eq,
          hc.2, not_false_eq_true, if_true, ih _ _ hlen, text, Piece.text, bind, Except.bind]
        cases text strings ps va with
        | error e => rfl
        | ok r => simp [Sink.emit_cons]
      | directive f c hc hf =>
        have hlen : (render ps ++ renderCut cut).length ≤ fuel := by
          simp [render, Piece.render] at hfuel ⊢
          omega
        simp only [render_cons, Piece.render, List.cons_append, List.append_assoc, List.nil_append,
          formatLoop, ne_eq, not_true_eq_false, if_false, directive_piece f hc hf, text, bind]
        cases (Piece.directive f c hc hf).text strings va with
        | error e => rfl
        | ok r =>
          simp only [Except.map, Except.bind, ih _ _ hlen]
          cases text strings ps r.2 with
          | error e => rfl
          | ok r' => simp

/-- Every string can be taken apart. -/
theorem exists_render (format : List Byte) (h0 : 0#8 ∉ format) :
    ∃ (ps : List Piece) (cut : Option Cut), format = render ps ++ renderCut cut := by
  induction hn : format.length using Nat.strong_induction_on generalizing format with
  | _ n ih =>
    cases format with
    | nil => exact ⟨[], none, rfl⟩
    | cons c format =>
      rw [List.mem_cons, not_or] at h0
      by_cases hc : c = ascii '%'
      · obtain ⟨f, rest, rfl, hf⟩ := exists_fields format
        cases rest with
        | nil => exact ⟨[], some ⟨f, hf⟩, by simp [render, renderCut, hc]⟩
        | cons c' rest =>
          have h0' : 0#8 ∉ rest ∧ c' ≠ 0#8 := by
            have := h0.2
            simp only [List.mem_append, List.mem_cons, not_or] at this
            exact ⟨this.2.2, fun h => this.2.1 h.symm⟩
          obtain ⟨ps, cut, rfl⟩ := ih rest.length (by simp at hn; omega) rest h0'.1 rfl
          exact ⟨.directive f c' h0'.2 hf :: ps, cut, by simp [render, Piece.render, hc]⟩
      · obtain ⟨ps, cut, rfl⟩ := ih format.length (by simp at hn; omega) format h0.2 rfl
        exact ⟨.literal c ⟨fun h => h0.1 h.symm, hc⟩ :: ps, cut, by simp [render, Piece.render]⟩

end KnutOS.Kprintf
