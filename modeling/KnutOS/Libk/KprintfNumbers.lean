import KnutOS.Libk.KprintfOutput

/-! The numbers that `_vsnprintf` writes, and where its buffer is too small for them. -/
namespace KnutOS.Kprintf

open Foundation

variable {σ : Type} {o : Stream σ} {s : Sink σ} {d : Directive} {flags : Flags} {c : Byte}
  {b : NtoaBuffer} {value base prec width n room : ℕ} {negative uppercase : Bool}

/-- The numeral, most significant digit first. -/
def digitsText (uppercase : Bool) (base value : ℕ) : List Byte :=
  (numeral base value).map (ntoaDigit uppercase)

def zeros (n : ℕ) : List Byte := List.replicate n (ascii '0')

@[simp] theorem length_zeros (n : ℕ) : (zeros n).length = n := List.length_replicate

theorem ntoaDigits_eq_map (base : ℕ) (uppercase : Bool) (room value : ℕ) :
    ntoaDigits base uppercase room value =
      (lowDigits base room value).map (ntoaDigit uppercase) := by
  induction room generalizing value with
  | zero => rfl
  | succ room ih =>
    rw [ntoaDigits, lowDigits, List.map_cons, ih]
    split <;> rfl

/-- The buffer takes as many digits as it has room for, the lowest ones. -/
theorem ntoaDigits_eq_take (hb : 1 < base) (uppercase : Bool) (room value : ℕ) :
    ntoaDigits base uppercase room value = (digitsText uppercase base value).reverse.take room := by
  rw [ntoaDigits_eq_map, lowDigits_eq_take hb, digitsText, ← List.map_reverse, List.map_take]

/-! The buffer is read from its end. -/

def bufferText (b : NtoaBuffer) : List Byte := b.chars.reverse

theorem len_eq (b : NtoaBuffer) : b.len = (bufferText b).length := List.length_reverse.symm

@[simp] theorem bufferText_push (h : b.len < ntoaBufferSize) :
    bufferText (b.push c h) = c :: bufferText b := List.reverse_concat

@[simp] theorem bufferText_fill (n : ℕ) :
    bufferText (b.fill n) = zeros (min n ntoaBufferSize - (bufferText b).length) ++ bufferText b := by
  rw [← len_eq]
  simp [bufferText, NtoaBuffer.fill, zeros]

@[simp] theorem bufferText_pop : bufferText b.pop = (bufferText b).tail :=
  (List.tail_reverse).symm

/-- A sign, a space in its place, or nothing. -/
def signText (negative : Bool) (flags : Flags) : List Byte :=
  if negative then [ascii '-']
  else if flags.plus then [ascii '+']
  else if flags.space then [ascii ' ']
  else []

theorem bufferText_ntoaSign (b : NtoaBuffer) (negative : Bool) (flags : Flags)
    (h : (bufferText b).length + (signText negative flags).length ≤ 32) :
    bufferText (ntoaSign b negative flags) = signText negative flags ++ bufferText b := by
  rw [← len_eq] at h
  by_cases hroom : b.len < ntoaBufferSize
  · rw [ntoaSign, dif_pos hroom, signText]
    split_ifs <;> simp
  · have hnone : signText negative flags = [] := by
      rw [← List.length_eq_zero_iff]
      have : ntoaBufferSize = 32 := rfl
      omega
    rw [ntoaSign, dif_neg hroom, hnone, List.nil_append]

theorem length_signText_le (negative : Bool) (flags : Flags) :
    (signText negative flags).length ≤ 1 := by
  rw [signText]
  split_ifs <;> decide

/-- The sign is what the width is made smaller for. -/
theorem signText_length :
    (signText negative flags).length = if negative ∨ flags.plus ∨ flags.space then 1 else 0 := by
  cases negative <;> cases hp : flags.plus <;> cases hs : flags.space <;> simp [signText, hp, hs]

/-- A number as the C standard has it: at least so many digits, led by a sign or a prefix, and
filled up to the width with zeros or with spaces. -/
def standardText (lead digits : List Byte) (prec width : ℕ) (flags : Flags) : List Byte :=
  let body := zeros (prec - digits.length) ++ digits
  let body :=
    if flags.zeropad ∧ ¬ flags.left then zeros (width - lead.length - body.length) ++ body else body
  justify flags.left (width - (lead ++ body).length) (lead ++ body)

/-- No digit is written for a zero with a precision, other than those of the precision. -/
def significant (value base : ℕ) (flags : Flags) : List Byte :=
  if flags.precision ∧ value = 0 then [] else digitsText flags.uppercase base value

theorem bufferText_digitBuffer (hb : 1 < base) (value : ℕ) (flags : Flags)
    (hfit : (significant value base flags).length ≤ 32) :
    bufferText (digitBuffer value base flags) = significant value base flags := by
  rw [significant] at hfit ⊢
  by_cases hnone : flags.precision = true ∧ value = 0
  · have : ¬ (¬ flags.precision = true ∨ value ≠ 0) := by tauto
    rw [digitBuffer, if_neg this, if_pos hnone]
    rfl
  · have : ¬ flags.precision = true ∨ value ≠ 0 := by tauto
    rw [if_neg hnone] at hfit ⊢
    rw [digitBuffer, if_pos this, bufferText]
    simp only [ntoaDigits_eq_take hb]
    rw [List.take_of_length_le (by rwa [List.length_reverse]), List.reverse_reverse]

/-- The buffer is large enough for the number. -/
structure Fits (digits lead : ℕ) (prec width : ℕ) (flags : Flags) : Prop where
  digits : digits + lead ≤ 32
  prec : prec + lead ≤ 32
  width : flags.zeropad = true → width ≤ 32

theorem noHash_eq (h : flags.hash = false) : { flags with hash := false } = flags := by
  cases flags
  cases h
  rfl

theorem revText_eq (b : NtoaBuffer) (width : ℕ) (flags : Flags) :
    revText b.chars width flags =
      if flags.left ∨ ¬ flags.zeropad then
        justify flags.left (width - (bufferText b).length) (bufferText b)
      else bufferText b := by
  rw [revText, ← len_eq]
  rfl

theorem ntoaZeros_left (h : flags.left = true) :
    ntoaZeros b negative prec width flags = (b, width) := if_pos h

/-- The sign takes one off the width that is filled up with zeros. -/
theorem ntoaZeros_right (h : flags.left = false) :
    ntoaZeros b negative prec width flags =
      if flags.zeropad then
        ((b.fill prec).fill (width - (signText negative flags).length),
          width - (signText negative flags).length)
      else (b.fill prec, width) := by
  rw [signText_length]
  simp only [ntoaZeros, h, Bool.false_eq_true, if_false]
  cases flags.zeropad with
  | false => simp
  | true =>
    by_cases hsign : negative = true ∨ flags.plus = true ∨ flags.space = true
    · by_cases hwidth : width = 0
      · simp [hwidth]
      · simp [hwidth, hsign]
    · simp [hsign]

/-- The zeros of the precision are left out in a field that is filled up on the right. -/
theorem ntoaText_standard (hb : 1 < base) (hhash : flags.hash = false)
    (hfit : Fits (significant value base flags).length (signText negative flags).length prec width flags)
    (hleft : flags.left = true → prec ≤ (significant value base flags).length) :
    ntoaText value negative base prec width flags =
      standardText (signText negative flags) (significant value base flags) prec width flags := by
  obtain ⟨hdigits, hprec, hwidth⟩ := hfit
  have hbuf := bufferText_digitBuffer hb value flags (by omega)
  have hsize : ntoaBufferSize = 32 := rfl
  have hflags : (if value = 0 then { flags with hash := false } else flags) = flags := by
    rw [noHash_eq hhash, ite_self]
  simp only [ntoaText, hflags, formatted, hhash, Bool.false_eq_true, if_false, standardText]
  cases hl : flags.left with
  | true =>
    have hnone : prec - (significant value base flags).length = 0 := Nat.sub_eq_zero_of_le (hleft hl)
    have hsign := bufferText_ntoaSign (digitBuffer value base flags) negative flags
      (by rw [hbuf]; exact hdigits)
    simp only [ntoaZeros_left hl, revText_eq, hsign, hbuf, hl, hnone, zeros, true_or, if_true,
      not_true_eq_false, and_false, if_false, List.replicate_zero, List.nil_append]
  | false =>
    have hp : min prec ntoaBufferSize = prec := by omega
    have hfill := bufferText_fill (b := digitBuffer value base flags) prec
    rw [hbuf, hp] at hfill
    generalize hbody : zeros (prec - (significant value base flags).length) ++
      significant value base flags = body at hfill
    have hlen : body.length + (signText negative flags).length ≤ 32 := by
      rw [← hbody, List.length_append, length_zeros]
      omega
    cases hz : flags.zeropad with
    | false =>
      have hsign := bufferText_ntoaSign ((digitBuffer value base flags).fill prec) negative flags
        (by rwa [hfill])
      simp only [ntoaZeros_right hl, hz, Bool.false_eq_true, if_false, revText_eq, hsign, hfill,
        false_and, not_false_eq_true, or_true, if_true, hl]
    | true =>
      have hone := length_signText_le negative flags
      have hlt := hwidth hz
      have hfull := bufferText_fill (b := (digitBuffer value base flags).fill prec)
        (width - (signText negative flags).length)
      rw [hfill, Nat.min_eq_left (show _ ≤ ntoaBufferSize by omega)] at hfull
      generalize hall : zeros (width - (signText negative flags).length - body.length) ++ body =
        full at hfull
      have hlen' : full.length + (signText negative flags).length ≤ 32 ∧
          width ≤ full.length + (signText negative flags).length := by
        rw [← hall, List.length_append, length_zeros]
        omega
      have hsign := bufferText_ntoaSign (((digitBuffer value base flags).fill prec).fill
        (width - (signText negative flags).length)) negative flags (by rw [hfull]; exact hlen'.1)
      have hspace : width - (signText negative flags ++ full).length = 0 := by
        rw [List.length_append]
        omega
      simp only [ntoaZeros_right hl, hz, if_true, revText_eq, hsign, hfull, hl, Bool.false_eq_true,
        not_true_eq_false, or_self, if_false, not_false_eq_true, and_self, hspace, justify, spaces,
        List.replicate_zero, List.nil_append]

/-! The prefix of the hash flag takes the place of two digits if the number without it has as many
characters as the field is wide. -/

def prefixText (uppercase : Bool) : List Byte :=
  [ascii '0', if uppercase then ascii 'X' else ascii 'x']

theorem bufferText_ntoaPrefix (hroom : (bufferText b).length + 2 ≤ 32) :
    bufferText (ntoaPrefix b 16 flags) = prefixText flags.uppercase ++ bufferText b := by
  have hsize : ntoaBufferSize = 32 := rfl
  have hlt : b.len < ntoaBufferSize := by
    rw [len_eq]
    omega
  have hlt' : ∀ c, (b.push c hlt).len < ntoaBufferSize := by
    intro c
    rw [len_eq, bufferText_push, List.length_cons]
    omega
  cases hu : flags.uppercase with
  | false => simp [ntoaPrefix, hlt, hu, hlt', prefixText]
  | true => simp [ntoaPrefix, hlt, hu, hlt', prefixText]

theorem bufferText_ntoaShorten (width : ℕ) (hprec : flags.precision = false)
    (hlen : (bufferText b).length ≠ 0) :
    bufferText (ntoaShorten b 16 0 width flags) =
      if (bufferText b).length = width then (bufferText b).drop 2 else bufferText b := by
  have hlt : b.len ≠ 0 := by rwa [len_eq]
  by_cases hw : (bufferText b).length = width
  · have hfull : ¬ flags.precision = true ∧ b.len ≠ 0 ∧ (b.len = 0 ∨ b.len = width) :=
      ⟨by simp [hprec], hlt, .inr (by rwa [len_eq])⟩
    rw [ntoaShorten, if_pos hfull, if_pos hw]
    cases ht : bufferText b with
    | nil => simp [ht] at hlen
    | cons c t =>
      by_cases hone : b.pop.len = 0
      · have hnil : t = [] := by simpa [len_eq, ht] using hone
        simp [hone, ht, hnil]
      · simp [hone, ht]
  · have hnot : ¬ (¬ flags.precision = true ∧ b.len ≠ 0 ∧ (b.len = 0 ∨ b.len = width)) := by
      rw [len_eq] at hlt ⊢
      tauto
    rw [ntoaShorten, if_neg hnot, if_neg hw]

/-- The value is not zero, and is written without a sign and without a precision. -/
structure Prefixed (value : ℕ) (flags : Flags) : Prop where
  value : value ≠ 0
  hash : flags.hash = true
  plus : flags.plus = false
  space : flags.space = false
  precision : flags.precision = false

theorem length_digitsText_pos (uppercase : Bool) (base value : ℕ) :
    0 < (digitsText uppercase base value).length := by
  rw [digitsText, List.length_map]
  exact List.length_pos_iff.mpr (numeral_ne_nil base value)

/-- The digits with the zeros in front of them. -/
def zeroFilled (digits : List Byte) (width : ℕ) (flags : Flags) : List Byte :=
  if flags.zeropad ∧ ¬ flags.left then zeros (width - digits.length) ++ digits else digits

theorem length_zeroFilled (digits : List Byte) (width : ℕ) (flags : Flags) :
    (zeroFilled digits width flags).length =
      if flags.zeropad ∧ ¬ flags.left then max digits.length width else digits.length := by
  rw [zeroFilled]
  split_ifs
  · rw [List.length_append, length_zeros]
    omega
  · rfl

theorem exists_ntoaZeros (h : Prefixed value flags) (hwidth : flags.zeropad = true → width ≤ 32)
    (hfit : (digitsText flags.uppercase 16 value).length + 2 ≤ 32) :
    ∃ b, ntoaZeros (digitBuffer value 16 flags) false 0 width flags = (b, width) ∧
      bufferText b = zeroFilled (digitsText flags.uppercase 16 value) width flags := by
  have hsign : signText false flags = [] := by simp [signText, h.plus, h.space]
  have hsize : ntoaBufferSize = 32 := rfl
  have hsig : significant value 16 flags = digitsText flags.uppercase 16 value := by
    simp [significant, h.precision]
  have hbuf := bufferText_digitBuffer (show 1 < 16 by decide) value flags
    (by rw [hsig]; omega)
  rw [hsig] at hbuf
  cases hl : flags.left with
  | true => exact ⟨_, ntoaZeros_left hl, by simp [hbuf, zeroFilled, hl]⟩
  | false =>
    rw [ntoaZeros_right hl, hsign]
    cases hz : flags.zeropad with
    | false => exact ⟨_, rfl, by simp [hbuf, zeroFilled, hz, zeros]⟩
    | true =>
      have hmin : min width ntoaBufferSize = width := Nat.min_eq_left (hwidth hz)
      exact ⟨_, rfl, by simp [hbuf, zeroFilled, hz, hl, zeros, hmin]⟩

theorem ntoaSign_none (h : signText false flags = []) : ntoaSign b false flags = b := by
  rw [signText] at h
  rw [ntoaSign]
  split_ifs at h ⊢ <;> rfl

theorem ntoaText_prefixed (h : Prefixed value flags) (hwidth : flags.zeropad = true → width ≤ 32)
    (hfit : (digitsText flags.uppercase 16 value).length + 2 ≤ 32) :
    ntoaText value false 16 0 width flags =
      let digits := zeroFilled (digitsText flags.uppercase 16 value) width flags
      let text := prefixText flags.uppercase ++
        if digits.length = width then digits.drop 2 else digits
      if flags.left ∨ ¬ flags.zeropad then justify flags.left (width - text.length) text else text := by
  have hsign : signText false flags = [] := by simp [signText, h.plus, h.space]
  obtain ⟨b, hb, htext⟩ := exists_ntoaZeros h hwidth hfit
  have hpos : (bufferText b).length ≠ 0 := by
    have := length_digitsText_pos flags.uppercase 16 value
    rw [htext, zeroFilled]
    split_ifs
    · rw [List.length_append]
      omega
    · omega
  have hshort := bufferText_ntoaShorten width h.precision hpos
  have hroom : (bufferText (ntoaShorten b 16 0 width flags)).length + 2 ≤ 32 := by
    have hlen := length_zeroFilled (digitsText flags.uppercase 16 value) width flags
    rw [hshort, htext]
    by_cases hfull : (zeroFilled (digitsText flags.uppercase 16 value) width flags).length = width
    · rw [if_pos hfull, List.length_drop]
      split_ifs at hlen with hz
      · have := hwidth hz.1
        omega
      · omega
    · rw [if_neg hfull]
      split_ifs at hlen <;> omega
  simp only [ntoaText, if_neg h.value, formatted, hb, h.hash, if_true, ntoaSign_none hsign, revText_eq,
    bufferText_ntoaPrefix hroom, hshort, htext]

theorem length_justify (left : Bool) (n : ℕ) (t : List Byte) :
    (justify left n t).length = n + t.length := by
  cases left with
  | false => simp [justify]
  | true => simp [justify, Nat.add_comm]

theorem justify_zero (left : Bool) (t : List Byte) : justify left 0 t = t := by
  cases left with
  | false => rfl
  | true => exact List.append_nil t

/-- Two of the digits are lost if the digits fill the field, or all of it but one place that a
zero goes into. -/
theorem prefixed_standard_iff (width : ℕ) (h : Prefixed value flags)
    (hwidth : flags.zeropad = true → width ≤ 32)
    (hfit : (digitsText flags.uppercase 16 value).length + 2 ≤ 32) :
    ntoaText value false 16 0 width flags =
        standardText (prefixText flags.uppercase) (digitsText flags.uppercase 16 value) 0 width flags ↔
      ¬ ((digitsText flags.uppercase 16 value).length = width ∨
        flags.zeropad = true ∧ flags.left = false ∧
          (digitsText flags.uppercase 16 value).length + 1 = width) := by
  have hpos := length_digitsText_pos flags.uppercase 16 value
  have hprefix : (prefixText flags.uppercase).length = 2 := rfl
  rw [ntoaText_prefixed h hwidth hfit, standardText]
  generalize digitsText flags.uppercase 16 value = digits at hpos ⊢
  generalize prefixText flags.uppercase = lead at hprefix ⊢
  have hnone : zeros (0 - digits.length) ++ digits = digits := by simp [zeros]
  simp only [hnone]
  by_cases hz : flags.zeropad = true ∧ flags.left = false
  · have hz' : flags.zeropad = true ∧ ¬ flags.left = true := by simp [hz]
    have hz'' : ¬ (flags.left = true ∨ ¬ flags.zeropad = true) := by simp [hz]
    rw [if_neg hz'', if_pos hz', zeroFilled, if_pos hz', hz.2]
    have hfield : width - (lead ++ (zeros (width - lead.length - digits.length) ++ digits)).length =
        0 := by
      simp only [List.length_append, length_zeros]
      omega
    rw [hfield, justify_zero, List.append_cancel_left_eq, List.length_append, length_zeros, hprefix]
    by_cases hroom : digits.length + 2 ≤ width
    · have hfull : width - digits.length + digits.length = width := by omega
      have hlen : width - digits.length = 2 + (width - 2 - digits.length) := by omega
      rw [if_pos hfull, hlen, zeros, List.replicate_add, List.append_assoc,
        List.drop_left' (by simp)]
      exact iff_of_true rfl (by omega)
    · by_cases hover : width < digits.length
      · have hfull : ¬ width - digits.length + digits.length = width := by omega
        have hwide : width - digits.length = 0 ∧ width - 2 - digits.length = 0 := by omega
        rw [if_neg hfull, hwide.1, hwide.2]
        exact iff_of_true rfl (by omega)
      · have hfull : width - digits.length + digits.length = width := by omega
        rw [if_pos hfull]
        refine iff_of_false (fun heq => ?_) (by simp only [hz, true_and]; omega)
        have := congrArg List.length heq
        simp only [List.length_drop, List.length_append, length_zeros] at this
        omega
  · have hz' : ¬ (flags.zeropad = true ∧ ¬ flags.left = true) := by simpa using hz
    have hz'' : flags.left = true ∨ ¬ flags.zeropad = true := by tauto
    rw [if_pos hz'', if_neg hz', zeroFilled, if_neg hz']
    by_cases hfull : digits.length = width
    · rw [if_pos hfull]
      refine iff_of_false (fun heq => ?_) (by tauto)
      have := congrArg List.length heq
      simp only [length_justify, List.length_drop, List.length_append] at this
      omega
    · rw [if_neg hfull]
      exact iff_of_true rfl (by tauto)

/-! The conversions of integers -/

/-- The digits of the argument `w`, without any zeros in front of them. -/
def argumentDigits (d : Directive) (c : Byte) (w : BitVec 64) : List Byte :=
  if c = ascii 'i' ∨ c = ascii 'd' then
    significant (signedArg d.flags w).natAbs 10 (integerFlags d.flags c)
  else significant (unsignedArg d.flags w) (integerBase c) (integerFlags d.flags c)

def argumentSign (d : Directive) (c : Byte) (w : BitVec 64) : List Byte :=
  if c = ascii 'i' ∨ c = ascii 'd' then
    signText (signedArg d.flags w < 0) (integerFlags d.flags c)
  else []

/-- What the standard has an integer conversion write for the argument `w`. -/
def numberText (d : Directive) (c : Byte) (w : BitVec 64) : List Byte :=
  standardText (argumentSign d c w) (argumentDigits d c w) d.precision d.width
    (integerFlags d.flags c)

theorem length_significant_le {k : ℕ} (hb : 1 < base) (hk : 0 < k) (hv : value < base ^ k) :
    (significant value base flags).length ≤ k := by
  rw [significant]
  split
  · exact Nat.zero_le k
  · rw [digitsText, List.length_map, numeral]
    split
    · exact hk
    · rw [List.length_reverse]
      exact (Nat.digits_length_le_iff hb value).mpr hv

theorem natAbs_signedArg_lt (flags : Flags) (w : BitVec 64) : (signedArg flags w).natAbs < 2 ^ 64 := by
  have h64 := w.isLt
  have h8 := (w.setWidth 8).isLt
  have h16 := (w.setWidth 16).isLt
  have h32 := (w.setWidth 32).isLt
  simp only [signedArg, BitVec.toInt_eq_toNat_cond]
  split_ifs <;> omega

theorem unsignedArg_lt (flags : Flags) (w : BitVec 64) : unsignedArg flags w < 2 ^ 64 := by
  have h64 := w.isLt
  rw [unsignedArg]
  split_ifs <;> omega

theorem integerFlags_left (flags : Flags) (c : Byte) : (integerFlags flags c).left = flags.left := by
  rw [integerFlags]
  split_ifs <;> rfl

theorem integerFlags_hash (h : flags.hash = true → integerBase c = 10) :
    (integerFlags flags c).hash = false := by
  cases hh : flags.hash with
  | true =>
    rw [integerFlags, if_pos (h hh)]
    split_ifs <;> rfl
  | false =>
    rw [integerFlags]
    split_ifs <;> first | rfl | exact hh

theorem integerFlags_unsigned (flags : Flags) (hc : ¬ (c = ascii 'i' ∨ c = ascii 'd')) :
    (integerFlags flags c).plus = false ∧ (integerFlags flags c).space = false := by
  have hne : c ≠ ascii 'i' ∧ c ≠ ascii 'd' := not_or.mp hc
  rw [integerFlags, if_pos hne]
  split_ifs <;> exact ⟨rfl, rfl⟩

theorem integerText_standard {w : BitVec 64}
    (hc : c ∈ [ascii 'd', ascii 'i', ascii 'u', ascii 'x', ascii 'X', ascii 'o'])
    (hhash : d.flags.hash = true → integerBase c = 10) (hwidth : d.width ≤ 32)
    (hprec : d.precision ≤ 31)
    (hleft : d.flags.left = true → d.precision ≤ (argumentDigits d c w).length) :
    integerText d c w = numberText d c w := by
  have hbase : 8 ≤ integerBase c := by
    simp only [List.mem_cons, List.not_mem_nil, or_false] at hc
    rcases hc with rfl | rfl | rfl | rfl | rfl | rfl <;> decide
  have hpow : 2 ^ 64 ≤ integerBase c ^ 22 :=
    Nat.le_trans (by decide) (Nat.pow_le_pow_left hbase 22)
  have hh := integerFlags_hash hhash
  simp only [integerText, numberText, argumentSign]
  rw [argumentDigits] at hleft ⊢
  by_cases hsigned : c = ascii 'i' ∨ c = ascii 'd'
  · have hten : integerBase c = 10 := by
      rcases hsigned with rfl | rfl <;> rfl
    have hdigits : (significant (signedArg d.flags w).natAbs 10 (integerFlags d.flags c)).length ≤ 22 :=
      length_significant_le (by decide) (by decide)
        (Nat.lt_of_lt_of_le (natAbs_signedArg_lt d.flags w) (by decide))
    have hone := length_signText_le (decide (signedArg d.flags w < 0)) (integerFlags d.flags c)
    simp only [if_pos hsigned] at hleft ⊢
    rw [hten, ntoaText_standard (by decide) hh ⟨by omega, by omega, fun _ => hwidth⟩]
    rwa [integerFlags_left]
  · have hdigits : (significant (unsignedArg d.flags w) (integerBase c)
        (integerFlags d.flags c)).length ≤ 22 :=
      length_significant_le (by omega) (by decide)
        (Nat.lt_of_lt_of_le (unsignedArg_lt d.flags w) hpow)
    obtain ⟨hplus, hspace⟩ := integerFlags_unsigned d.flags hsigned
    have hnone : signText false (integerFlags d.flags c) = [] := by simp [signText, hplus, hspace]
    simp only [if_neg hsigned] at hleft ⊢
    rw [ntoaText_standard (by omega) hh ⟨by rw [hnone]; simp only [List.length_nil]; omega,
      by rw [hnone]; simp only [List.length_nil]; omega, fun _ => hwidth⟩, hnone]
    rwa [integerFlags_left]

/-- All but the binary conversion are as the standard has them, for every argument, in fields that
the buffer has room for. -/
theorem convertInteger_standard {w : BitVec 64} {va : List (BitVec 64)}
    (hc : c ∈ [ascii 'd', ascii 'i', ascii 'u', ascii 'x', ascii 'X', ascii 'o'])
    (hhash : d.flags.hash = true → integerBase c = 10) (hwidth : d.width ≤ 32)
    (hprec : d.precision ≤ 31)
    (hleft : d.flags.left = true → d.precision ≤ (argumentDigits d c w).length)
    (hva : d.va = w :: va) :
    convertInteger o s d c = .ok (s.emit o.write (numberText d c w), va) := by
  rw [convertInteger_eq, hva]
  simp only [vaArg, Except.map, integerText_standard hc hhash hwidth hprec hleft]

/-- `%04d` with two arguments. -/
def paddedDecimal : Directive :=
  ⟨[], [BitVec.ofInt 64 (-7), 1#64],
    ⟨true, false, false, false, false, false, false, false, false, false, false⟩, 4, 0⟩

theorem convertInteger_standard_paddedDecimal :
    convertInteger collector ⟨[], 0⟩ paddedDecimal (ascii 'd') =
      .ok (Sink.emit collector.write ⟨[], 0⟩ ("-007".toList.map ascii), [1#64]) := by
  have htext : numberText paddedDecimal (ascii 'd') (BitVec.ofInt 64 (-7)) =
      "-007".toList.map ascii := by decide +kernel
  rw [← htext]
  exact convertInteger_standard (by decide) (by decide) (by decide) (by decide) (by decide) rfl

theorem integerFlags_hex (hc : c = ascii 'x' ∨ c = ascii 'X') (hprec : flags.precision = false) :
    integerFlags flags c =
      { flags with
        plus := false
        space := false
        uppercase := flags.uppercase || decide (c = ascii 'X') } := by
  have hflags : (flags.precision = true) = False := by simp [hprec]
  rcases hc with rfl | rfl
  · have hX : (ascii 'x' = ascii 'X') = False := by simp; decide
    have hbase : (integerBase (ascii 'x') = 10) = False := by simp; decide
    have hne : (ascii 'x' ≠ ascii 'i' ∧ ascii 'x' ≠ ascii 'd') = True := by simp; decide
    simp only [integerFlags, hX, hbase, hne, if_false, if_true, hflags, decide_false, Bool.or_false]
  · have hbase : (integerBase (ascii 'X') = 10) = False := by simp; decide
    have hne : (ascii 'X' ≠ ascii 'i' ∧ ascii 'X' ≠ ascii 'd') = True := by simp; decide
    simp only [integerFlags, hbase, hne, if_false, if_true, hflags, decide_true, Bool.or_true]

/-- The collector tells texts apart. -/
theorem emit_collector_inj {t t' : List Byte} :
    Sink.emit collector.write ⟨[], 0⟩ t = Sink.emit collector.write ⟨[], 0⟩ t' ↔ t = t' := by
  constructor
  · intro h
    have htarget := congrArg Sink.target h
    rwa [emit_collector, emit_collector, List.nil_append, List.nil_append] at htarget
  · rintro rfl
    rfl

/-- With a hash, the two digits in front are lost if and only if the digits fill the field, or leave
one place of it that a zero goes into. -/
theorem convertInteger_prefixed_iff {w : BitVec 64} {va : List (BitVec 64)}
    (hc : c = ascii 'x' ∨ c = ascii 'X') (hhash : d.flags.hash = true)
    (hnone : d.flags.precision = false) (hprec : d.precision = 0)
    (hvalue : unsignedArg d.flags w ≠ 0) (hwidth : d.flags.zeropad = true → d.width ≤ 32)
    (hva : d.va = w :: va) :
    convertInteger collector ⟨[], 0⟩ d c =
        .ok (Sink.emit collector.write ⟨[], 0⟩
          (standardText (prefixText (integerFlags d.flags c).uppercase) (argumentDigits d c w) 0
            d.width (integerFlags d.flags c)), va) ↔
      ¬ ((argumentDigits d c w).length = d.width ∨
        d.flags.zeropad = true ∧ d.flags.left = false ∧
          (argumentDigits d c w).length + 1 = d.width) := by
  have hsigned : ¬ (c = ascii 'i' ∨ c = ascii 'd') := by
    rcases hc with rfl | rfl <;> decide
  have hbase : integerBase c = 16 := by
    rcases hc with rfl | rfl <;> rfl
  have hflags := integerFlags_hex hc hnone
  have hprefixed : Prefixed (unsignedArg d.flags w) (integerFlags d.flags c) := by
    rw [hflags]
    exact ⟨hvalue, hhash, rfl, rfl, hnone⟩
  have hdigits : argumentDigits d c w =
      digitsText (integerFlags d.flags c).uppercase 16 (unsignedArg d.flags w) := by
    rw [argumentDigits, if_neg hsigned, hbase, significant, if_neg (fun h => hvalue h.2)]
  have hlen : (argumentDigits d c w).length ≤ 16 := by
    rw [argumentDigits, if_neg hsigned, hbase]
    exact length_significant_le (by decide) (by decide) (unsignedArg_lt d.flags w)
  have hkeep : (integerFlags d.flags c).zeropad = d.flags.zeropad ∧
      (integerFlags d.flags c).left = d.flags.left := by
    rw [hflags]
    exact ⟨rfl, rfl⟩
  have hiff := prefixed_standard_iff d.width hprefixed (by rwa [hkeep.1])
    (by rw [← hdigits]; omega)
  rw [← hdigits, hkeep.1, hkeep.2] at hiff
  rw [← hiff, convertInteger_eq, hva]
  simp only [vaArg, Except.map, integerText, if_neg hsigned, hbase, hprec, Except.ok.injEq,
    Prod.mk.injEq, and_true, emit_collector_inj]

/-- `%#2x` with one argument. -/
def narrowHex : Directive :=
  ⟨[], [0xAB#64], ⟨false, false, false, false, true, false, false, false, false, false, false⟩, 2, 0⟩

theorem convertInteger_prefixed_iff_narrowHex :
    convertInteger collector ⟨[], 0⟩ narrowHex (ascii 'x') ≠
      .ok (Sink.emit collector.write ⟨[], 0⟩
        (standardText (prefixText (integerFlags narrowHex.flags (ascii 'x')).uppercase)
          (argumentDigits narrowHex (ascii 'x') 0xAB#64) 0 2 (integerFlags narrowHex.flags (ascii 'x'))),
        []) := by
  intro hstandard
  have hfills : (argumentDigits narrowHex (ascii 'x') 0xAB#64).length = 2 := by decide +kernel
  exact (convertInteger_prefixed_iff (.inl rfl) rfl rfl rfl (by decide) (by decide) rfl).mp hstandard
    (.inl hfills)

/-! Numbers are read back as they have been written. -/

def digitValue (c : Byte) : ℕ :=
  if c < ascii 'A' then (c - ascii '0').toNat
  else if c < ascii 'a' then (c - ascii 'A').toNat + 10
  else (c - ascii 'a').toNat + 10

def readNumber (base : ℕ) (t : List Byte) : ℕ := horner base 0 (t.map digitValue)

theorem digitValue_ntoaDigit (uppercase : Bool) {n : ℕ} (hn : n < 16) :
    digitValue (ntoaDigit uppercase n) = n := by
  have hall : ∀ (u : Bool) (n : Fin 16), digitValue (ntoaDigit u n) = n := by decide
  exact hall uppercase ⟨n, hn⟩

theorem readNumber_digitsText (uppercase : Bool) {base : ℕ} (hb : 1 < base) (hb' : base ≤ 16)
    (value : ℕ) : readNumber base (digitsText uppercase base value) = value := by
  have hmap : (digitsText uppercase base value).map digitValue = numeral base value := by
    rw [digitsText, List.map_map]
    refine (List.map_congr_left fun n hn => ?_).trans (List.map_id _)
    have hlt := lt_of_mem_numeral hb hn
    exact digitValue_ntoaDigit uppercase (by omega)
  rw [readNumber, hmap, horner_numeral]

theorem readNumber_zeros (base n : ℕ) (t : List Byte) :
    readNumber base (zeros n ++ t) = readNumber base t := by
  induction n with
  | zero => rfl
  | succ n ih =>
    have hzero : digitValue (ascii '0') = 0 := rfl
    rw [zeros, List.replicate_succ, List.cons_append, readNumber, List.map_cons, horner_cons, hzero,
      Nat.zero_mul, Nat.zero_add]
    exact ih

/-- `_atoi` reads what `%u` has written. -/
theorem atoi_digitsText {n : ℕ} (hn : n < 2 ^ 32) {rest : List Byte}
    (hrest : isDigit (current rest) = false) :
    atoi 0 (digitsText false 10 n ++ rest) = (n, rest) := by
  have hval : ((numeral 10 n).map (Fin.ofNat 10)).map Fin.val = numeral 10 n := by
    rw [List.map_map]
    refine (List.map_congr_left fun k hk => ?_).trans (List.map_id _)
    exact Nat.mod_eq_of_lt (lt_of_mem_numeral (by decide) hk)
  have hchars : ((numeral 10 n).map (Fin.ofNat 10)).map digitChar = digitsText false 10 n := by
    rw [List.map_map, digitsText]
    refine List.map_congr_left fun k hk => ?_
    have hlt : k < 10 := lt_of_mem_numeral (by decide) hk
    have hall : ∀ k : Fin 10, digitChar k = ntoaDigit false k := by decide
    have hk' : Fin.ofNat 10 k = ⟨k, hlt⟩ := Fin.ext (Nat.mod_eq_of_lt hlt)
    rw [Function.comp_apply, hk']
    exact hall ⟨k, hlt⟩
  rw [← hchars, atoi_render _ hrest, number, hval, horner_numeral, Nat.mod_eq_of_lt hn]

end KnutOS.Kprintf
