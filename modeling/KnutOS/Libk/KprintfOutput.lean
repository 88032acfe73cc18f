import KnutOS.Libk.KprintfFormat

/-! One text for all the functions of `kprintf.c`: what they write depends on the format string and
the arguments only, and `count` cuts it off. -/
namespace KnutOS.Kprintf

open Foundation

variable {σ : Type} {strings : BitVec 64 → CString} {va : List (BitVec 64)}

/-- Collects the characters. -/
def collector : Stream (List Byte) where
  out := fun character _ _ _ text => text ++ [character]
  buffer := 1#64
  maxlen := -1#64

/-- The text for a format string and its arguments. -/
def formatText (strings : BitVec 64 → CString) (format : CString) (va : List (BitVec 64)) :
    Except Fault (List Byte) :=
  (formatLoop strings collector format.bytes.length ⟨[], 0⟩ format.bytes va).map Sink.target

theorem emit_collector (s : Sink (List Byte)) (t : List Byte) :
    (s.emit collector.write t).target = s.target ++ t := by
  induction t generalizing s with
  | nil => simp
  | cons c t ih =>
    have hput : (s.put collector.write c).target = s.target ++ [c] := rfl
    rw [Sink.emit_cons, ih, hput, List.append_assoc, List.singleton_append]

/-- Every stream is sent the same characters. -/
theorem formatLoop_eq (o : Stream σ) (s : Sink σ) (format : CString) (va : List (BitVec 64)) :
    formatLoop strings o format.bytes.length s format.bytes va =
      (formatText strings format va).map fun t => s.emit o.write t := by
  obtain ⟨ps, cut, hformat⟩ := exists_render format.bytes format.noTerminator
  have hloop := fun {τ : Type} (o : Stream τ) (s : Sink τ) =>
    formatLoop_render strings o s va ps cut le_rfl
  rw [formatText, hformat, hloop, hloop]
  cases text strings ps va with
  | error e => rfl
  | ok r =>
    cases cut with
    | none => simp [Except.map, Except.bind, endsWith, emit_collector]
    | some cut =>
      simp only [Except.bind, endsWith]
      cases cut.fields.eval [] r.2 with
      | error e => rfl
      | ok d => rfl

/-- What `_vsnprintf` leaves behind of a text. -/
def finish (out : OutFct σ) (buffer maxlen : BitVec 64) (m : σ) (t : List Byte) : σ × ℤ :=
  let out := if buffer = 0#64 then outNull else out
  let s := Sink.emit (Stream.mk out buffer maxlen).write ⟨m, 0⟩ t
  let last := if t.length < maxlen.toNat then t.length else (maxlen - 1#64).toNat
  (out 0#8 buffer last maxlen s.target, cInt (BitVec.ofNat 64 t.length))

theorem internalVsnprintf_eq (out : OutFct σ) (buffer maxlen : BitVec 64) (format : CString)
    (va : List (BitVec 64)) (m : σ) :
    internalVsnprintf strings out buffer maxlen format va m =
      (formatText strings format va).map (finish out buffer maxlen m) := by
  simp only [internalVsnprintf, formatLoop_eq]
  cases formatText strings format va with
  | error e => rfl
  | ok t => simp [Except.map, bind, Except.bind, finish]

/-- The text of the parts of a string, unless it ends within a directive. -/
theorem formatText_eq {format : CString} {ps : List Piece} {cut : Option Cut}
    (hf : format.bytes = render ps ++ renderCut cut) :
    formatText strings format va =
      (text strings ps va).bind fun r => (endsWith cut ⟨r.1, r.1.length⟩ r.2).map Sink.target := by
  rw [formatText, hf, formatLoop_render strings collector ⟨[], 0⟩ va ps cut le_rfl]
  cases text strings ps va with
  | error e => rfl
  | ok r =>
    cases cut with
    | none => simp [Except.map, Except.bind, endsWith, emit_collector]
    | some cut => rfl

theorem formatText_render {format : CString} {ps : List Piece} (hf : format.bytes = render ps) :
    formatText strings format va = (text strings ps va).map Prod.fst := by
  have hnone : format.bytes = render ps ++ renderCut none := by rw [hf, renderCut, List.append_nil]
  rw [formatText_eq hnone]
  rfl

/-! Arguments -/

/-- So many arguments are taken from `va`, or there are not that many. -/
def Takes {β : Type} (n : ℕ) (va : List (BitVec 64)) (r : Except Fault β)
    (left : β → List (BitVec 64)) : Prop :=
  if n ≤ va.length then ∃ b, r = .ok b ∧ left b = va.drop n else r = .error .noArgument

section

variable {β γ : Type} {n k : ℕ} {r : Except Fault β} {left : β → List (BitVec 64)}
  {left' : γ → List (BitVec 64)} {g : β → Except Fault γ}

theorem takes_zero {b : β} (hb : left b = va) : Takes 0 va (.ok b) left := ⟨b, rfl, hb⟩

theorem Takes.bind (h : Takes n va r left) (hg : ∀ b, Takes k (left b) (g b) left') :
    Takes (n + k) va (r.bind g) left' := by
  rw [Takes] at h ⊢
  by_cases hn : n ≤ va.length
  · rw [if_pos hn] at h
    obtain ⟨b, rfl, hb⟩ := h
    have hk := hg b
    rw [hb, Takes, List.length_drop, List.drop_drop] at hk
    by_cases hnk : n + k ≤ va.length
    · rw [if_pos (by omega)] at hk
      rwa [if_pos hnk]
    · rw [if_neg (by omega)] at hk
      rwa [if_neg hnk]
  · rw [if_neg hn] at h
    rw [if_neg (by omega), h]
    rfl

theorem Takes.map {f : β → γ} (h : Takes n va r left) (hf : ∀ b, left' (f b) = left b) :
    Takes n va (r.map f) left' := by
  rw [Takes] at h ⊢
  by_cases hn : n ≤ va.length
  · rw [if_pos hn] at h ⊢
    obtain ⟨b, rfl, hb⟩ := h
    exact ⟨f b, rfl, (hf b).trans hb⟩
  · rw [if_neg hn] at h ⊢
    rw [h]
    rfl

end

theorem takes_vaArg : Takes 1 va (vaArg va) Prod.snd := by
  cases va with
  | nil => rfl
  | cons w va => exact ⟨(w, va), rfl, rfl⟩

/-- How many arguments each field takes. -/
def Width.arguments : Width → ℕ
  | star => 1
  | _ => 0

def Precision.arguments : Precision → ℕ
  | star => 1
  | _ => 0

def conversionArguments (c : Byte) : ℕ :=
  if IsInteger c then 1
  else if c = ascii 'c' then 1
  else if c = ascii 's' then 1
  else if c = ascii 'p' then 1
  else 0

def Fields.arguments (f : Fields) : ℕ := f.width.arguments + f.precision.arguments

def Piece.arguments : Piece → ℕ
  | .literal _ _ => 0
  | .directive f c _ _ => f.arguments + conversionArguments c

def arguments (ps : List Piece) : ℕ := (ps.map Piece.arguments).sum

theorem takes_width (f : Width) (flags : Flags) :
    Takes f.arguments va (f.eval flags va) fun r => r.2.2 := by
  cases f with
  | none => exact takes_zero rfl
  | digits first more => exact takes_zero rfl
  | star => exact takes_vaArg.map fun _ => rfl

theorem takes_precision (f : Precision) (flags : Flags) :
    Takes f.arguments va (f.eval flags va) fun r => r.2.2 := by
  cases f with
  | none => exact takes_zero rfl
  | empty => exact takes_zero rfl
  | digits first more => exact takes_zero rfl
  | star => exact takes_vaArg.map fun _ => rfl

theorem takes_fields (va : List (BitVec 64)) (f : Fields) :
    Takes f.arguments va (f.eval [] va) Directive.va :=
  (takes_width f.width _).bind fun r => by
    rw [← Nat.add_zero f.precision.arguments]
    exact (takes_precision f.precision r.1).bind fun _ => takes_zero rfl

theorem takes_conversion (d : Directive) (c : Byte) :
    Takes (conversionArguments c) d.va (conversionText strings d c) Prod.snd := by
  rw [conversionArguments, conversionText]
  split_ifs
  · exact takes_vaArg.map fun _ => rfl
  · exact takes_vaArg.map fun _ => rfl
  · exact takes_vaArg.map fun _ => rfl
  · exact takes_vaArg.map fun _ => rfl
  · exact takes_zero rfl

theorem takes_piece (p : Piece) : Takes p.arguments va (p.text strings va) Prod.snd := by
  cases p with
  | literal c hc => exact takes_zero rfl
  | directive f c hc hf => exact (takes_fields va f).bind fun d => takes_conversion d c

theorem takes_text (strings : BitVec 64 → CString) (va : List (BitVec 64)) (ps : List Piece) :
    Takes (arguments ps) va (text strings ps va) Prod.snd := by
  induction ps generalizing va with
  | nil => exact takes_zero rfl
  | cons p ps ih =>
    rw [arguments, List.map_cons, List.sum_cons, ← arguments, text]
    refine (takes_piece p).bind fun r => ?_
    rw [← Nat.add_zero (arguments ps)]
    exact (ih r.2).bind fun _ => takes_zero rfl

theorem formatText_whole (strings : BitVec 64 → CString) (va : List (BitVec 64)) {format : CString}
    {ps : List Piece} (hf : format.bytes = render ps) :
    if arguments ps ≤ va.length then ∃ t, formatText strings format va = .ok t
    else formatText strings format va = .error .noArgument := by
  have htext := takes_text strings va ps
  rw [Takes] at htext
  rw [formatText_render hf]
  by_cases hle : arguments ps ≤ va.length
  · rw [if_pos hle] at htext ⊢
    obtain ⟨r, hr, -⟩ := htext
    exact ⟨r.1, by rw [hr]; rfl⟩
  · rw [if_neg hle] at htext ⊢
    rw [htext]
    rfl

theorem formatText_cut {format : CString} {ps : List Piece} {cut : Cut}
    (hf : format.bytes = render ps ++ renderCut (some cut)) :
    formatText strings format va =
      .error (if arguments ps + cut.fields.arguments ≤ va.length then .formatOverrun
        else .noArgument) := by
  have htext := takes_text strings va ps
  rw [formatText_eq hf]
  by_cases hle : arguments ps ≤ va.length
  · rw [Takes, if_pos hle] at htext
    obtain ⟨r, hr, hleft⟩ := htext
    have hcut := takes_fields r.2 cut.fields
    rw [Takes, hleft, List.length_drop] at hcut
    by_cases hall : arguments ps + cut.fields.arguments ≤ va.length
    · rw [if_pos (by omega)] at hcut
      obtain ⟨d, hd, -⟩ := hcut
      simp only [hr, Except.bind, endsWith, hleft, hd, Except.map, if_pos hall]
    · rw [if_neg (by omega)] at hcut
      simp only [hr, Except.bind, endsWith, hleft, hcut, Except.map, if_neg hall]
  · rw [Takes, if_neg hle] at htext
    rw [htext, if_neg (by omega)]
    rfl

/-- Every string is read as literal characters and directives, the last one of which may be cut off,
and what is written are the texts of these in turn. -/
theorem internalVsnprintf_parsed (strings : BitVec 64 → CString) (format : CString) :
    ∃ (ps : List Piece) (cut : Option Cut), format.bytes = render ps ++ renderCut cut ∧
      ∀ (out : OutFct σ) (buffer maxlen : BitVec 64) (va : List (BitVec 64)) (m : σ),
        internalVsnprintf strings out buffer maxlen format va m =
          (text strings ps va).bind fun r =>
            match cut with
            | none => .ok (finish out buffer maxlen m r.1)
            | some cut => (cut.fields.eval [] r.2).bind fun _ => .error .formatOverrun := by
  obtain ⟨ps, cut, hf⟩ := exists_render format.bytes format.noTerminator
  refine ⟨ps, cut, hf, fun out buffer maxlen va m => ?_⟩
  rw [internalVsnprintf_eq, formatText_eq hf]
  cases text strings ps va with
  | error e => rfl
  | ok r =>
    cases cut with
    | none => rfl
    | some cut =>
      simp only [Except.bind, endsWith]
      cases cut.fields.eval [] r.2 with
      | error e => rfl
      | ok d => rfl

/-- A string is written out if and only if it is made of whole directives, and there are arguments
for all of them. The code reads on behind the string if and only if it ends within a directive,
and there are arguments up to there. -/
theorem internalVsnprintf_outcome (strings : BitVec 64 → CString) (out : OutFct σ)
    (buffer maxlen : BitVec 64) (format : CString) (va : List (BitVec 64)) (m : σ) :
    ((∃ r, internalVsnprintf strings out buffer maxlen format va m = .ok r) ↔
      ∃ ps, format.bytes = render ps ∧ arguments ps ≤ va.length) ∧
    (internalVsnprintf strings out buffer maxlen format va m = .error .formatOverrun ↔
      ∃ ps cut, format.bytes = render ps ++ renderCut (some cut) ∧
        arguments ps + cut.fields.arguments ≤ va.length) := by
  rw [internalVsnprintf_eq]
  constructor
  · constructor
    · rintro ⟨r, hr⟩
      obtain ⟨ps, cut, hf⟩ := exists_render format.bytes format.noTerminator
      cases cut with
      | none =>
        rw [renderCut, List.append_nil] at hf
        refine ⟨ps, hf, ?_⟩
        by_contra hle
        have hwhole := formatText_whole strings va hf
        rw [if_neg hle] at hwhole
        simp [hwhole, Except.map] at hr
      | some cut => simp [formatText_cut hf, Except.map] at hr
    · rintro ⟨ps, hf, hle⟩
      have hwhole := formatText_whole strings va hf
      rw [if_pos hle] at hwhole
      obtain ⟨t, ht⟩ := hwhole
      exact ⟨_, by rw [ht]; rfl⟩
  · constructor
    · intro hr
      obtain ⟨ps, cut, hf⟩ := exists_render format.bytes format.noTerminator
      cases cut with
      | none =>
        rw [renderCut, List.append_nil] at hf
        have hwhole := formatText_whole strings va hf
        split at hwhole
        · obtain ⟨t, ht⟩ := hwhole
          simp [ht, Except.map] at hr
        · simp [hwhole, Except.map] at hr
      | some cut =>
        refine ⟨ps, cut, hf, ?_⟩
        by_contra hle
        simp [formatText_cut hf, if_neg hle, Except.map] at hr
    · rintro ⟨ps, cut, hf, hle⟩
      rw [formatText_cut hf, if_pos hle]
      rfl

/-! A buffer of `count` bytes -/

/-- What `snprintf` makes of the memory: the text as far as there is room for it and for a
terminator behind it. -/
structure Truncates (m m' : Bytes) (buffer count : BitVec 64) (t : List Byte) : Prop where
  text : ∀ i (hi : i < t.length), i + 1 < count.toNat → m' (buffer + BitVec.ofNat 64 i) = t[i]
  terminator : count ≠ 0#64 →
    m' (buffer + BitVec.ofNat 64 (min t.length (count.toNat - 1))) = 0#8
  outside : ∀ a : BitVec 64, count.toNat ≤ (a - buffer).toNat → m' a = m a
  behind : ∀ a : BitVec 64, t.length < (a - buffer).toNat → m' a = m a

/-- The memory cells of a buffer are different ones. -/
theorem injOn_cells (buffer count : BitVec 64) :
    Set.InjOn (fun i : ℕ => buffer + BitVec.ofNat 64 i) (Set.Iio count.toNat) := by
  intro i hi j hj h
  have hlt := count.isLt
  have hij : BitVec.ofNat 64 i = BitVec.ofNat 64 j := by simpa using h
  have hnat := congrArg BitVec.toNat hij
  simp only [BitVec.toNat_ofNat, Set.mem_Iio] at hnat hi hj
  omega

theorem toNat_cell (buffer : BitVec 64) {i : ℕ} (hi : i < 2 ^ 64) :
    (buffer + BitVec.ofNat 64 i - buffer).toNat = i := by
  rw [BitVec.add_comm, BitVec.add_sub_cancel, BitVec.toNat_ofNat, Nat.mod_eq_of_lt hi]

theorem toNat_pos_of_ne {count : BitVec 64} (h : count ≠ 0#64) : 0 < count.toNat := by
  have := mt (BitVec.eq_of_toNat_eq (x := count) (y := 0#64)) h
  rw [BitVec.toNat_zero] at this
  omega

/-- The terminator goes behind the text, or into the last byte of the buffer. -/
theorem last_eq {count : BitVec 64} (n : ℕ) (h : count ≠ 0#64) :
    (if n < count.toNat then n else (count - 1#64).toNat) = min n (count.toNat - 1) := by
  have hpos := toNat_pos_of_ne h
  have hsub : (count - 1#64).toNat = count.toNat - 1 :=
    BitVec.toNat_sub_of_le (BitVec.le_def.mpr hpos)
  rw [hsub]
  split <;> omega

/-- Without a buffer nothing is written. -/
theorem finish_null (out : OutFct σ) (maxlen : BitVec 64) (m : σ) (t : List Byte) :
    (finish out 0#64 maxlen m t).1 = m := by
  have hemit : ∀ s : Sink σ, (s.emit (Stream.mk outNull 0#64 maxlen).write t).target = s.target := by
    induction t with
    | nil => exact fun _ => rfl
    | cons c t ih => exact fun s => ih (s.put _ c)
  simp only [finish, if_true, outNull]
  exact hemit ⟨m, 0⟩

/-- Only the cells of the text and of its terminator are written. -/
theorem finish_of_ne {buffer count a : BitVec 64} {m : Bytes} {t : List Byte}
    (ha : ∀ i < count.toNat, i ≤ t.length → a ≠ buffer + BitVec.ofNat 64 i) :
    (finish outBuffer buffer count m t).1 a = m a := by
  by_cases hbuffer : buffer = 0#64
  · rw [hbuffer, finish_null]
  · have hemit : (Sink.emit (writeBelow (fun i => buffer + BitVec.ofNat 64 i) count.toNat)
        ⟨m, 0⟩ t).target a = m a :=
      emit_writeBelow_of_ne fun i _ hlt hn => ha i hn (by simp only [Nat.zero_add] at hlt; omega)
    by_cases hcount : count = 0#64
    · simp only [finish, if_neg hbuffer, outBuffer, hcount, BitVec.toNat_zero, Nat.not_lt_zero,
        if_false] at hemit ⊢
      exact hemit
    · have hpos := toNat_pos_of_ne hcount
      have hlt : min t.length (count.toNat - 1) < count.toNat := by omega
      simp only [finish, if_neg hbuffer, last_eq t.length hcount, outBuffer, if_pos hlt]
      rw [Function.update_of_ne (ha _ hlt (by omega))]
      exact hemit

theorem finish_truncates (buffer count : BitVec 64) (m : Bytes) (t : List Byte)
    (hbuffer : buffer ≠ 0#64) :
    Truncates m (finish outBuffer buffer count m t).1 buffer count t := by
  have hlt := count.isLt
  constructor
  · intro i hi hic
    have hcount : count ≠ 0#64 := by
      rintro rfl
      exact Nat.not_lt_zero _ hic
    have hlast : min t.length (count.toNat - 1) < count.toNat := by omega
    have hne : buffer + BitVec.ofNat 64 i ≠
        buffer + BitVec.ofNat 64 (min t.length (count.toNat - 1)) := by
      intro heq
      have := injOn_cells buffer count (show i < count.toNat by omega) hlast heq
      omega
    have hat := emit_writeBelow_at (s := ⟨m, 0⟩) (injOn_cells buffer count) hi
      (by simp only [Nat.zero_add]; omega)
    simp only [finish, if_neg hbuffer, last_eq t.length hcount, outBuffer, if_pos hlast]
    rw [Function.update_of_ne hne]
    rw [Nat.zero_add] at hat
    exact hat
  · intro hcount
    have hpos := toNat_pos_of_ne hcount
    have hlast : min t.length (count.toNat - 1) < count.toNat := by omega
    simp only [finish, if_neg hbuffer, last_eq t.length hcount, outBuffer, if_pos hlast]
    exact Function.update_self _ _ _
  · intro a ha
    apply finish_of_ne
    rintro i hi - rfl
    rw [toNat_cell buffer (by omega)] at ha
    omega
  · intro a ha
    apply finish_of_ne
    rintro i hi hle rfl
    rw [toNat_cell buffer (by omega)] at ha
    omega

/-- One text for a format string and its arguments: `snprintf` writes as much of it as fits, and
returns the length of all of it, also where there is no buffer. -/
def FormatsInto (strings : BitVec 64 → CString) (format : CString) (va : List (BitVec 64))
    (t : List Byte) : Prop :=
  ∀ (buffer count : BitVec 64) (m : Bytes), ∃ m',
    snprintf strings buffer count format va m = .ok (m', cInt (BitVec.ofNat 64 t.length)) ∧
      (buffer = 0#64 → m' = m) ∧ (buffer ≠ 0#64 → Truncates m m' buffer count t)

theorem snprintf_truncates (strings : BitVec 64 → CString) (format : CString)
    (va : List (BitVec 64)) :
    (∃ t, FormatsInto strings format va t) ∨
      ∃ e, ∀ buffer count m, snprintf strings buffer count format va m = .error e := by
  cases ht : formatText strings format va with
  | error e =>
    right
    refine ⟨e, fun buffer count m => ?_⟩
    rw [snprintf, internalVsnprintf_eq, ht]
    rfl
  | ok t =>
    left
    refine ⟨t, fun buffer count m => ⟨(finish outBuffer buffer count m t).1, ?_, ?_, ?_⟩⟩
    · rw [snprintf, internalVsnprintf_eq, ht]
      rfl
    · rintro rfl
      exact finish_null outBuffer count m t
    · exact finish_truncates buffer count m t

/-- `fctprintf` hands the same text to its function, without the zero bytes in it. -/
theorem fctprintf_eq (strings : BitVec 64 → CString) (fct : Byte → σ → σ) (wrap : BitVec 64)
    (hwrap : wrap ≠ 0#64) (format : CString) (va : List (BitVec 64)) (m : σ) :
    fctprintf strings fct wrap format va m =
      (formatText strings format va).map fun t =>
        ((t.filter (· ≠ 0#8)).foldl (fun m c => fct c m) m, cInt (BitVec.ofNat 64 t.length)) := by
  have hemit : ∀ (t : List Byte) (s : Sink σ),
      (s.emit (Stream.mk (outFct fct) wrap (-1#64)).write t).target =
        (t.filter (· ≠ 0#8)).foldl (fun m c => fct c m) s.target := by
    intro t
    induction t with
    | nil => exact fun _ => rfl
    | cons c t ih =>
      intro s
      rw [Sink.emit_cons, ih]
      by_cases hc : c = 0#8
      · simp [hc, Sink.put, Stream.write, outFct]
      · simp [hc, Sink.put, Stream.write, outFct]
  rw [fctprintf, internalVsnprintf_eq]
  cases formatText strings format va with
  | error e => rfl
  | ok t =>
    simp only [Except.map, finish, if_neg hwrap, outFct, hemit]
    simp

theorem fctprintf_eq_lengths :
    (1#64 : BitVec 64) ≠ 0#64 ∧
      fctprintf (fun _ => ⟨[], by decide, by decide⟩) (fun _ n => n + 1) 1#64
          ⟨"%d%%".toList.map ascii, by decide, by decide⟩ [7#64] 0 = .ok (2, 2) := by
  refine ⟨by decide, ?_⟩
  rw [fctprintf_eq _ _ _ (by decide)]
  decide +kernel

end KnutOS.Kprintf
