import KnutOS.Devices.Keyboard
import Mathlib.Logic.Function.Basic
import Mathlib.Data.List.Induction
import Mathlib.Tactic.SplitIfs

/-! The modifier flags against the keys that are held down. -/
namespace KnutOS

inductive Modifier
  | ctrl
  | alt
  | shift
deriving DecidableEq

def Keyboard.flag (k : Keyboard) : Modifier → Bool
  | .ctrl => k.ctrl
  | .alt => k.alt
  | .shift => k.shift

inductive ModifierKey
  | leftCtrl
  | rightCtrl
  | leftAlt
  | rightAlt
  | leftShift
  | rightShift
deriving DecidableEq

def ModifierKey.modifier : ModifierKey → Modifier
  | .leftCtrl | .rightCtrl => .ctrl
  | .leftAlt | .rightAlt => .alt
  | .leftShift | .rightShift => .shift

/-- What a byte of the keyboard stands for depends on the bytes before it: `0xE0` goes before the
code of an extended key, and `0xE1` before two bytes of the pause key, of which `left + 1` are still
to come. -/
inductive Decoding
  | plain
  | extended
  | pause (left : ℕ)
deriving DecidableEq

/-- The keys, by their make codes in scan code set 1. -/
def modifierKey (decoding : Decoding) (code : ℕ) : Option ModifierKey :=
  match decoding with
  | .plain =>
    if code = 0x1D then some .leftCtrl
    else if code = 0x38 then some .leftAlt
    else if code = 0x2A then some .leftShift
    else if code = 0x36 then some .rightShift
    else none
  | .extended =>
    if code = 0x1D then some .rightCtrl else if code = 0x38 then some .rightAlt else none
  | .pause _ => none

def isBreak (scancode : BitVec 8) : Bool := scancode &&& 0x80#8 != 0

/-- The keys that are held down: the last code of each was its make code. -/
structure HeldKeys where
  decoding : Decoding
  down : ModifierKey → Bool

namespace HeldKeys

def initial : HeldKeys := ⟨.plain, fun _ => false⟩

/-- The modifier key whose code ends with this byte. -/
def keyOf (s : HeldKeys) (scancode : BitVec 8) : Option ModifierKey :=
  if scancode = 0xE0#8 ∨ scancode = 0xE1#8 then none
  else modifierKey s.decoding (lookupIndex scancode)

def nextDecoding (s : HeldKeys) (scancode : BitVec 8) : Decoding :=
  match s.decoding with
  | .pause (left + 1) => .pause left
  | _ =>
    if scancode = 0xE0#8 then .extended else if scancode = 0xE1#8 then .pause 1 else .plain

def next (s : HeldKeys) (scancode : BitVec 8) : HeldKeys where
  decoding := s.nextDecoding scancode
  down :=
    match s.keyOf scancode with
    | some key => Function.update s.down key (!isBreak scancode)
    | none => s.down

def after (scancodes : List (BitVec 8)) : HeldKeys := scancodes.foldl next initial

end HeldKeys

/-- Each flag is set if and only if one of its keys is held down. -/
def FlagsRight (k : Keyboard) (s : HeldKeys) : Prop :=
  ∀ m, k.flag m = true ↔ ∃ key : ModifierKey, key.modifier = m ∧ s.down key = true

def keyboardStart : Keyboard := activateKeyboardProcessing Keyboard.initial

/-- Every lookup is inside the table, and after each byte the flags are right. -/
def ModifiersTracked (behind : ℕ → BitVec 32) (scancodes : List (BitVec 8)) : Prop :=
  ∀ pre b post, scancodes = pre ++ b :: post → lookupIndex b < standardKeycodes.length ∧
    FlagsRight (keyboardIrqs behind keyboardStart (pre ++ [b])) (HeldKeys.after (pre ++ [b]))

/-- The byte has an entry in the table, and releases no key while the other one of its flag is held
down. -/
structure Followed (s : HeldKeys) (scancode : BitVec 8) : Prop where
  inside : lookupIndex scancode < standardKeycodes.length
  alone : isBreak scancode = true → ∀ key other, s.keyOf scancode = some key → other ≠ key →
    other.modifier = key.modifier → s.down other = false

variable {behind : ℕ → BitVec 32} {k : Keyboard} {s : HeldKeys} {b : BitVec 8}
  {bytes : List (BitVec 8)} {m : Modifier}

/-- The flag of a key code. -/
def keyModifier (key : BitVec 32) : Option Modifier :=
  if key = Key.lctrl ∨ key = Key.rctrl then some .ctrl
  else if key = Key.lalt ∨ key = Key.ralt then some .alt
  else if key = Key.lshift ∨ key = Key.rshift then some .shift
  else none

theorem flag_breakFlags (key : BitVec 32) :
    (breakFlags k key).flag m = if keyModifier key = some m then false else k.flag m := by
  rw [breakFlags, keyModifier]
  split_ifs <;> cases m <;> simp_all [Keyboard.flag]

theorem flag_makeFlags (key : BitVec 32) :
    (makeFlags k key).flag m = if keyModifier key = some m then true else k.flag m := by
  rw [makeFlags, keyModifier]
  split_ifs <;> cases m <;> simp_all [Keyboard.flag]

theorem active_breakFlags (key : BitVec 32) :
    (breakFlags k key).isKeyboardActive = k.isKeyboardActive := by
  rw [breakFlags]
  split_ifs <;> rfl

theorem active_makeFlags (key : BitVec 32) :
    (makeFlags k key).isKeyboardActive = k.isKeyboardActive := by
  rw [makeFlags]
  split_ifs <;> rfl

theorem irqHandler_active (h : k.isKeyboardActive = true) :
    (keyboardIrqHandler behind k b).1 =
      if isBreak b then breakFlags k (keyAt behind (lookupIndex b))
      else makeFlags k (keyAt behind (lookupIndex b)) := by
  cases hbreak : isBreak b with
  | true =>
    have hb : ¬ b &&& 0x80#8 = 0#8 := by simpa [isBreak] using hbreak
    simp [keyboardIrqHandler, h, hb]
  | false =>
    have hb : b &&& 0x80#8 = 0#8 := by simpa [isBreak] using hbreak
    simp [keyboardIrqHandler, h, hb]

theorem active_irqHandler (h : k.isKeyboardActive = true) :
    (keyboardIrqHandler behind k b).1.isKeyboardActive = true := by
  rw [irqHandler_active h]
  split_ifs
  · rw [active_breakFlags, h]
  · rw [active_makeFlags, h]

theorem flag_irqHandler (h : k.isKeyboardActive = true) :
    (keyboardIrqHandler behind k b).1.flag m =
      if keyModifier (keyAt behind (lookupIndex b)) = some m then !isBreak b else k.flag m := by
  rw [irqHandler_active h]
  cases isBreak b with
  | true => exact flag_breakFlags _
  | false => exact flag_makeFlags _

/-- The entries of the table that change a flag are those of the modifier keys. -/
theorem keyModifier_standardKeycodes : ∀ j : Fin standardKeycodes.length,
    keyModifier (standardKeycodes.get j) = (modifierKey .plain j).map ModifierKey.modifier := by
  decide

theorem keyModifier_keyAt (behind : ℕ → BitVec 32) {i : ℕ} (hi : i < standardKeycodes.length) :
    keyModifier (keyAt behind i) = (modifierKey .plain i).map ModifierKey.modifier := by
  rw [keyAt, List.getElem?_eq_getElem hi]
  exact keyModifier_standardKeycodes ⟨i, hi⟩

/-- The prefix bytes have no entry. -/
theorem not_prefix (hi : lookupIndex b < standardKeycodes.length) : b ≠ 0xE0#8 ∧ b ≠ 0xE1#8 := by
  refine ⟨?_, ?_⟩ <;>
    · rintro rfl
      exact absurd hi (by decide)

theorem keyOf_eq (hs : s.decoding = .plain) (hi : lookupIndex b < standardKeycodes.length) :
    s.keyOf b = modifierKey .plain (lookupIndex b) := by
  obtain ⟨hE0, hE1⟩ := not_prefix hi
  rw [HeldKeys.keyOf, if_neg (by simp [hE0, hE1]), hs]

theorem decoding_next (hs : s.decoding = .plain) (hi : lookupIndex b < standardKeycodes.length) :
    (s.next b).decoding = .plain := by
  obtain ⟨hE0, hE1⟩ := not_prefix hi
  simp [HeldKeys.next, HeldKeys.nextDecoding, hs, hE0, hE1]

/-- A byte that the table does not know as a modifier key changes no flag, and the byte of one sets
or clears its flag. -/
theorem flag_next (hk : k.isKeyboardActive = true) (hs : s.decoding = .plain)
    (hi : lookupIndex b < standardKeycodes.length) :
    (keyboardIrqHandler behind k b).1.flag m =
      if (s.keyOf b).map ModifierKey.modifier = some m then !isBreak b else k.flag m := by
  rw [flag_irqHandler hk, keyModifier_keyAt behind hi, keyOf_eq hs hi]

theorem flagsRight_next (hk : k.isKeyboardActive = true) (hs : s.decoding = .plain)
    (hflags : FlagsRight k s) (h : Followed s b) :
    FlagsRight (keyboardIrqHandler behind k b).1 (s.next b) := by
  intro m
  rw [flag_next hk hs h.inside]
  cases hkey : s.keyOf b with
  | none =>
    rw [if_neg (by simp)]
    simpa [HeldKeys.next, hkey] using hflags m
  | some key =>
    have hdown : (s.next b).down = Function.update s.down key (!isBreak b) := by
      simp [HeldKeys.next, hkey]
    rw [hdown]
    by_cases hm : key.modifier = m
    · rw [if_pos (by simp [hm])]
      cases hbreak : isBreak b with
      | false =>
        exact ⟨fun _ => ⟨key, hm, by simp⟩, fun _ => rfl⟩
      | true =>
        refine ⟨fun hfalse => by simp at hfalse, ?_⟩
        rintro ⟨other, hother, hheld⟩
        by_cases he : other = key
        · simp [he] at hheld
        · rw [Function.update_of_ne he, h.alone hbreak key other hkey he (by rw [hother, hm])] at hheld
          cases hheld
    · rw [if_neg (by simp [hm]), hflags m]
      apply exists_congr
      intro other
      refine and_congr_right fun hother => ?_
      rw [Function.update_of_ne (by rintro rfl; exact hm hother)]

/-- A release that is not alone clears the flag of a key that is held down. -/
theorem followed_of_flagsRight (hk : k.isKeyboardActive = true) (hs : s.decoding = .plain)
    (hi : lookupIndex b < standardKeycodes.length)
    (h : FlagsRight (keyboardIrqHandler behind k b).1 (s.next b)) : Followed s b := by
  refine ⟨hi, ?_⟩
  intro hbreak key other hkey hne hmod
  have hflag : (keyboardIrqHandler behind k b).1.flag key.modifier = false := by
    rw [flag_next hk hs hi, hkey, hbreak]
    exact if_pos rfl
  by_contra hheld
  have hdown : (s.next b).down other = true := by
    simpa [HeldKeys.next, hkey, Function.update_of_ne hne] using hheld
  have hset := (h key.modifier).mpr ⟨other, hmod, hdown⟩
  rw [hflag] at hset
  cases hset

theorem keyboardIrqs_append :
    keyboardIrqs behind k (bytes ++ [b]) =
      (keyboardIrqHandler behind (keyboardIrqs behind k bytes) b).1 := by
  rw [keyboardIrqs, List.foldl_append]
  rfl

theorem HeldKeys.after_append : HeldKeys.after (bytes ++ [b]) = (HeldKeys.after bytes).next b := by
  rw [HeldKeys.after, List.foldl_append]
  rfl

theorem active_keyboardIrqs : (keyboardIrqs behind keyboardStart bytes).isKeyboardActive = true := by
  induction bytes using List.reverseRecOn with
  | nil => rfl
  | append_singleton bytes b ih =>
    rw [keyboardIrqs_append]
    exact active_irqHandler ih

/-- What holds after bytes that all have an entry in the table. -/
theorem decoding_after (h : ∀ b ∈ bytes, lookupIndex b < standardKeycodes.length) :
    (HeldKeys.after bytes).decoding = .plain := by
  induction bytes using List.reverseRecOn with
  | nil => rfl
  | append_singleton bytes b ih =>
    rw [HeldKeys.after_append]
    exact decoding_next (ih fun b hb => h b (List.mem_append_left _ hb)) (h b (by simp))

theorem flagsRight_after
    (h : ∀ pre b post, bytes = pre ++ b :: post → Followed (HeldKeys.after pre) b) :
    FlagsRight (keyboardIrqs behind keyboardStart bytes) (HeldKeys.after bytes) := by
  induction bytes using List.reverseRecOn with
  | nil =>
    intro m
    cases m <;> simp [keyboardIrqs, keyboardStart, activateKeyboardProcessing, Keyboard.initial,
      Keyboard.flag, HeldKeys.after, HeldKeys.initial]
  | append_singleton bytes b ih =>
    have hplain : (HeldKeys.after bytes).decoding = .plain := by
      apply decoding_after
      intro c hc
      obtain ⟨pre, post, rfl⟩ := List.append_of_mem hc
      exact (h pre c (post ++ [b]) (by simp)).inside
    rw [keyboardIrqs_append, HeldKeys.after_append]
    refine flagsRight_next active_keyboardIrqs hplain (ih ?_) (h bytes b [] rfl)
    rintro pre c post rfl
    exact h pre c (post ++ [b]) (by simp)

/-- The flags and the lookups are right in every run of bytes that have an entry, and in which no
shift key is released while the other one is held down, and in no other. -/
theorem modifiersTracked_iff (behind : ℕ → BitVec 32) (scancodes : List (BitVec 8)) :
    ModifiersTracked behind scancodes ↔
      ∀ pre b post, scancodes = pre ++ b :: post → Followed (HeldKeys.after pre) b := by
  constructor
  · intro h pre b post hsplit
    obtain ⟨hi, hflags⟩ := h pre b post hsplit
    have hplain : (HeldKeys.after pre).decoding = .plain := by
      apply decoding_after
      intro c hc
      obtain ⟨pre', post', rfl⟩ := List.append_of_mem hc
      exact (h pre' c (post' ++ b :: post) (by simp [hsplit])).1
    rw [keyboardIrqs_append, HeldKeys.after_append] at hflags
    exact followed_of_flagsRight active_keyboardIrqs hplain hi hflags
  · rintro h pre b post rfl
    refine ⟨(h pre b post rfl).inside, flagsRight_after ?_⟩
    intro pre' c post' hsplit
    refine h pre' c (post' ++ post) ?_
    rw [← List.cons_append, ← List.append_assoc, ← hsplit, List.append_assoc]
    rfl

/-- Both shift keys go down, and the left one comes up. -/
theorem shift_lost : ¬ ModifiersTracked (fun _ => 0) [0x2A#8, 0x36#8, 0xAA#8] := by
  intro h
  have hright := (h [0x2A#8, 0x36#8] 0xAA#8 [] rfl).2 .shift
  have hflag : ¬ (keyboardIrqs (fun _ => 0) keyboardStart [0x2A#8, 0x36#8, 0xAA#8]).flag .shift =
      true := by
    decide
  exact hflag (hright.mpr ⟨.rightShift, rfl, by decide⟩)

end KnutOS
