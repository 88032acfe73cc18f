import KnutOS.Libk.KprintfNumbers
import KnutOS.Libk.Strings

/-! The format strings of the kernel, put together from literal text and directives. -/
namespace KnutOS.Kprintf

open Foundation Strings

variable {strings : BitVec 64 → CString} {ps qs : List Piece} {va va' va'' : List (BitVec 64)}
  {t t' : List Byte} {w w' : BitVec 64}

/-- The parts write `t`, and leave the arguments `va'`. -/
def Writes (strings : BitVec 64 → CString) (ps : List Piece) (va : List (BitVec 64)) (t : List Byte)
    (va' : List (BitVec 64)) : Prop := text strings ps va = .ok (t, va')

theorem Writes.formatText {format : CString} (h : Writes strings ps va t va')
    (hf : format.bytes = render ps) : formatText strings format va = .ok t := by
  rw [formatText_render hf, show text strings ps va = _ from h]
  rfl

theorem writes_nil : Writes strings [] va [] va := rfl

theorem Writes.cons {p : Piece} (hp : p.text strings va = .ok (t, va'))
    (h : Writes strings ps va' t' va'') : Writes strings (p :: ps) va (t ++ t') va'' := by
  simp only [Writes, text, hp, bind, Except.bind, show text strings ps va' = _ from h]

theorem Writes.append (h : Writes strings ps va t va') (h' : Writes strings qs va' t' va'') :
    Writes strings (ps ++ qs) va (t ++ t') va'' := by
  induction ps generalizing va t with
  | nil =>
    cases h
    exact h'
  | cons p ps ih =>
    cases hp : p.text strings va with
    | error e => simp [Writes, text, hp, bind, Except.bind] at h
    | ok r =>
      cases hps : text strings ps r.2 with
      | error e => simp [Writes, text, hp, hps, bind, Except.bind] at h
      | ok r' =>
        simp only [Writes, text, hp, hps, bind, Except.bind, Except.ok.injEq, Prod.mk.injEq] at h
        obtain ⟨rfl, rfl⟩ := h
        rw [List.cons_append, List.append_assoc]
        exact Writes.cons hp (ih hps)

/-! Literal text -/

def Literal (bs : List Byte) : Prop := ∀ b ∈ bs, b ≠ 0#8 ∧ b ≠ ascii '%'

instance (bs : List Byte) : Decidable (Literal bs) := inferInstanceAs (Decidable (∀ b ∈ bs, _))

theorem literal_utf8Text {cs : List Char} (h : '\x00' ∉ cs ∧ '%' ∉ cs) : Literal (utf8Text cs) := by
  intro b hb
  obtain ⟨c, hc, hbc⟩ := List.mem_flatMap.mp hb
  constructor
  · rintro rfl
    exact Ssfn.zero_not_mem_utf8 (fun heq => h.1 (heq ▸ hc)) hbc
  · rintro rfl
    exact h.2 (Char.toNat_inj.mp (Ssfn.toNat_of_mem_utf8 (by decide) hbc) ▸ hc)

def literals (bs : List Byte) (h : Literal bs) : List Piece := bs.pmap Piece.literal h

theorem render_literals (bs : List Byte) (h : Literal bs) : render (literals bs h) = bs := by
  induction bs with
  | nil => rfl
  | cons b bs ih =>
    have htail : Literal bs := fun c hc => h c (List.mem_cons_of_mem b hc)
    exact congrArg (b :: ·) (ih htail)

theorem writes_literals (bs : List Byte) (h : Literal bs) :
    Writes strings (literals bs h) va bs va := by
  induction bs with
  | nil => exact writes_nil
  | cons b bs ih =>
    have htail : Literal bs := fun c hc => h c (List.mem_cons_of_mem b hc)
    exact Writes.cons (t := [b]) rfl (ih htail)

/-! Directives -/

/-- `%s`, `%d` and others without any fields. -/
def plain : Fields := ⟨[], .none, .none, .none⟩

/-- `%.4s`. -/
def upToFour : Fields := ⟨[], .none, .digits 4 [], .none⟩

/-- `%.16llx`. -/
def sixteenDigits : Fields := ⟨[], .none, .digits 1 [6], .ll⟩

theorem plain_fits_s : plain.Fits (ascii 's') :=
  ⟨fun c => by cases c <;> decide, by decide, by decide, by decide⟩

theorem plain_fits_d : plain.Fits (ascii 'd') :=
  ⟨fun c => by cases c <;> decide, by decide, by decide, by decide⟩

theorem upToFour_fits : upToFour.Fits (ascii 's') :=
  ⟨fun c => by cases c <;> decide, by decide, by decide, by decide⟩

theorem sixteenDigits_fits : sixteenDigits.Fits (ascii 'x') :=
  ⟨fun c => by cases c <;> decide, by decide, by decide, trivial⟩

def stringPiece : Piece := .directive plain (ascii 's') (by decide) plain_fits_s

def decimalPiece : Piece := .directive plain (ascii 'd') (by decide) plain_fits_d

def fourCharsPiece : Piece := .directive upToFour (ascii 's') (by decide) upToFour_fits

def hexPiece : Piece := .directive sixteenDigits (ascii 'x') (by decide) sixteenDigits_fits

theorem writes_piece {p : Piece} (hp : p.text strings va = .ok (t, va')) :
    Writes strings [p] va t va' := by
  simpa using Writes.cons hp writes_nil

theorem writes_string (w : BitVec 64) :
    Writes strings [stringPiece] (w :: va) (strings w).bytes va := by
  apply writes_piece
  simp [stringPiece, Piece.text, plain, Fields.eval, Width.eval, Precision.eval, Length.set, bind,
    Except.bind, conversionText, vaArg, Except.map, stringText, justify, spaces, noFlags, ascii]

theorem writes_fourChars (w : BitVec 64) :
    Writes strings [fourCharsPiece] (w :: va) ((strings w).bytes.take 4) va := by
  apply writes_piece
  have hfour : number [4] = 4 := rfl
  simp [fourCharsPiece, Piece.text, upToFour, Fields.eval, Width.eval, Precision.eval, Length.set, bind,
    Except.bind, conversionText, vaArg, Except.map, stringText, justify, spaces, noFlags, ascii, hfour]

/-- The decimal numeral of an `int`. -/
def decimalText (v : ℤ) : List Byte :=
  (if v < 0 then [ascii '-'] else []) ++ digitsText false 10 v.natAbs

/-- A directive for an integer. -/
theorem text_integer {f : Fields} {c : Byte} {hc : c ≠ 0#8} {hf : f.Fits c} {d : Directive}
    (hd : f.eval [] (w :: va) = .ok d) (hva : d.va = w :: va)
    (hmem : c ∈ [ascii 'd', ascii 'i', ascii 'u', ascii 'x', ascii 'X', ascii 'o', ascii 'b']) :
    (Piece.directive f c hc hf).text strings (w :: va) = .ok (integerText d c w, va) := by
  simp only [Piece.text, hd, Except.bind, conversionText, if_pos hmem, hva, vaArg, Except.map]

def decimalChars (v : ℤ) : List Char :=
  (if v < 0 then ['-'] else []) ++ (numeral 10 v.natAbs).map Nat.digitChar

theorem utf8Text_digits {ds : List ℕ} (h : ∀ d ∈ ds, d < 10) :
    utf8Text (ds.map Nat.digitChar) = ds.map (ntoaDigit false) := by
  induction ds with
  | nil => rfl
  | cons d ds ih =>
    have hall : ∀ d : Fin 10, Ssfn.utf8 (Nat.digitChar d) = [ntoaDigit false d] := by decide
    have hd : Ssfn.utf8 (Nat.digitChar d) = [ntoaDigit false d] :=
      hall ⟨d, h d List.mem_cons_self⟩
    rw [List.map_cons, List.map_cons, utf8Text_cons, hd, ih fun e he => h e (List.mem_cons_of_mem d he)]
    rfl

theorem utf8Text_decimalChars (v : ℤ) : utf8Text (decimalChars v) = decimalText v := by
  have hsign : utf8Text (if v < 0 then ['-'] else []) = if v < 0 then [ascii '-'] else [] := by
    split <;> rfl
  rw [decimalChars, utf8Text_append, hsign,
    utf8Text_digits fun d hd => lt_of_mem_numeral (by decide) hd]
  rfl

theorem null_not_mem_decimalChars (v : ℤ) : '\x00' ∉ decimalChars v := by
  rw [decimalChars, List.mem_append, not_or]
  constructor
  · split <;> decide
  · intro hmem
    obtain ⟨d, hd, hz⟩ := List.mem_map.mp hmem
    have hall : ∀ d : Fin 10, Nat.digitChar d ≠ '\x00' := by decide
    exact hall ⟨d, lt_of_mem_numeral (by decide) hd⟩ hz

theorem numberText_decimal (va : List (BitVec 64)) (w : BitVec 64) :
    numberText ⟨[], w :: va, noFlags, 0, 0⟩ (ascii 'd') w = decimalText (w.setWidth 32).toInt := by
  have hsigned : signedArg noFlags w = (w.setWidth 32).toInt := rfl
  have hflags : integerFlags noFlags (ascii 'd') = noFlags := rfl
  simp only [numberText, argumentSign, argumentDigits, hsigned, hflags]
  generalize (w.setWidth 32).toInt = v
  simp [standardText, decimalText, signText, significant, justify, spaces, zeros, noFlags]

theorem writes_decimal (w : BitVec 64) :
    Writes strings [decimalPiece] (w :: va) (decimalText (w.setWidth 32).toInt) va := by
  have hstandard := integerText_standard (d := ⟨[], w :: va, noFlags, 0, 0⟩) (c := ascii 'd') (w := w)
    (by decide) nofun (Nat.zero_le _) (Nat.zero_le _) nofun
  apply writes_piece
  rw [← numberText_decimal va w, ← hstandard]
  exact text_integer rfl rfl (by decide)

/-- All sixteen digits of a word. -/
def hexText (w : BitVec 64) : List Byte :=
  zeros (16 - (significant w.toNat 16 { noFlags with precision := true }).length) ++
    significant w.toNat 16 { noFlags with precision := true }

theorem writes_hex (w : BitVec 64) : Writes strings [hexPiece] (w :: va) (hexText w) va := by
  have hstandard := integerText_standard (c := ascii 'x') (w := w)
    (d := ⟨[], w :: va, { noFlags with precision := true, long := true, longLong := true }, 0, 16⟩)
    (by decide) nofun (Nat.zero_le _) (Nat.le_of_ble_eq_true rfl) nofun
  have hnumber : numberText
      ⟨[], w :: va, { noFlags with precision := true, long := true, longLong := true }, 0, 16⟩
      (ascii 'x') w = hexText w := by
    simp [numberText, standardText, argumentSign, argumentDigits, hexText, significant,
      unsignedArg, integerFlags, integerBase, justify, spaces, zeros, noFlags, ascii]
  apply writes_piece
  rw [← hnumber, ← hstandard]
  exact text_integer rfl rfl (by decide)

theorem length_hexText (w : BitVec 64) : (hexText w).length = 16 := by
  have hle : (significant w.toNat 16 { noFlags with precision := true }).length ≤ 16 :=
    length_significant_le (by decide) (by decide) w.isLt
  rw [hexText, List.length_append, length_zeros]
  omega

theorem readNumber_hexText (w : BitVec 64) : readNumber 16 (hexText w) = w.toNat := by
  rw [hexText, readNumber_zeros, significant]
  split
  case isTrue hzero => rw [hzero.2]; rfl
  case isFalse => exact readNumber_digitsText _ (by decide) le_rfl _

theorem hexText_injective (h : hexText w = hexText w') : w = w' := by
  apply BitVec.eq_of_toNat_eq
  rw [← readNumber_hexText, h, readNumber_hexText]

end KnutOS.Kprintf
