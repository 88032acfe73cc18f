import KnutOS.Devices.Framebuffer
import KnutOS.Foundation.Loop
import KnutOS.Libk.KprintfOutput
import KnutOS.Libk.Strings
import Mathlib.Data.List.TakeWhile

/-! Formatted text on the console (`libk/stdio/stdio.c`), down to the bytes of the string that
`framebuffer_print_string` in `devices/framebuffer/framebuffer.c` goes through. -/
namespace KnutOS

open Foundation

/-- The size of `printk_buffer`, and of the buffers in `debug.c` and `log.c`. -/
def textBufferSize : ℕ := 5120

section

variable {σ : Type} (g : Gfx) (C : Canvas σ)

end

namespace Stdio

open Kprintf Strings

variable {σ : Type} {g : Gfx} {C : Canvas σ} {c : Console σ} {fg : BitVec 32} {m m' : Bytes}
  {buffer a : BitVec 64} {format : CString} {va : List (BitVec 64)} {cs : List Char} {t : List Byte}

/-! A text in a buffer -/

/-- The buffer has the text in it, and nothing behind its terminator is written. -/
structure Holds (m m' : Bytes) (buffer : BitVec 64) (t : List Byte) : Prop where
  text : Spelled m' buffer (t ++ [0#8])
  behind : ∀ a : BitVec 64, t.length < (a - buffer).toNat → m' a = m a

/-- A text that fits has its terminator behind it. -/
theorem spelled_of_truncates {count : BitVec 64} (h : Truncates m m' buffer count t)
    (hlen : t.length < count.toNat) : Spelled m' buffer (t ++ [0#8]) := by
  have hcount : count ≠ 0#64 := by
    rintro rfl
    exact Nat.not_lt_zero _ hlen
  rw [spelled_iff]
  intro i hi
  rw [List.length_append, List.length_singleton] at hi
  by_cases hit : i < t.length
  · rw [List.getElem_append_left hit]
    exact h.text i hit (by omega)
  · obtain rfl : i = t.length := by omega
    have hend := h.terminator hcount
    rw [Nat.min_eq_left (by omega)] at hend
    rw [hend, List.getElem_append_right le_rfl]
    simp

/-- `vsnprintf` for a buffer that is taken to be without an end. -/
theorem vsnprintf_holds (strings : BitVec 64 → CString) (m : Bytes) (hbuffer : buffer ≠ 0#64)
    (ht : formatText strings format va = .ok t) (hlen : t.length < 2 ^ 64 - 1) :
    ∃ m' length, vsnprintf strings buffer (-1#64) format va m = .ok (m', length) ∧
      Holds m m' buffer t := by
  have htrunc := finish_truncates buffer (-1#64) m t hbuffer
  refine ⟨(Kprintf.finish outBuffer buffer (-1#64) m t).1, (Kprintf.finish outBuffer buffer (-1#64) m t).2, ?_,
    spelled_of_truncates htrunc hlen, htrunc.behind⟩
  rw [vsnprintf, internalVsnprintf_eq, ht]
  rfl

/-- What a reader of the text sees. -/
def shown (t : List Byte) : List Byte := t.takeWhile (· ≠ 0#8)

/-- A terminator follows on what is in front of the first zero byte. -/
theorem exists_shown (t : List Byte) :
    ∃ rest, t ++ [0#8] = shown t ++ [0#8] ++ rest := by
  induction t with
  | nil => exact ⟨[], rfl⟩
  | cons b t ih =>
    by_cases hb : b = 0#8
    · exact ⟨t ++ [0#8], by simp [shown, hb]⟩
    · obtain ⟨rest, hrest⟩ := ih
      rw [shown] at hrest
      exact ⟨rest, by simp [shown, hb, hrest]⟩

/-- A reader of the buffer stops at the first zero byte. -/
theorem Holds.reads (h : Holds m m' buffer t) :
    Spelled m' buffer (shown t ++ [0#8]) := by
  obtain ⟨rest, hrest⟩ := exists_shown t
  have htext := h.text
  rw [hrest] at htext
  exact (Spelled.append.mp htext).1

theorem zero_not_mem_shown (t : List Byte) : 0#8 ∉ shown t := by
  intro hz
  have hne := List.all_eq_true.mp (List.all_takeWhile (l := t)) _ hz
  simp at hne

theorem length_shown_le (t : List Byte) : (shown t).length ≤ t.length :=
  (List.takeWhile_prefix _).length_le

theorem shown_eq_self (h : 0#8 ∉ t) : shown t = t := by
  rw [shown, List.takeWhile_eq_self_iff]
  intro b hb
  simpa using fun hz : b = 0#8 => h (hz ▸ hb)

theorem Holds.stringAt (h : Holds m m' buffer t) (hlen : t.length < 2 ^ 64 - 1) :
    (stringAt m' buffer).bytes = shown t :=
  stringAt_eq h.reads (zero_not_mem_shown t)
    (Nat.lt_of_le_of_lt (length_shown_le t) hlen)

/-- Writing a buffer leaves what is apart from it alone. -/
theorem Holds.spelled {bs : List Byte} {n k : ℕ} (h : Holds m m' buffer t) (hlen : t.length < k)
    (hapart : Apart a n buffer k) (hs : Spelled m a bs) (hn : bs.length ≤ n) : Spelled m' a bs := by
  apply spelled_congr hs
  intro i hi
  have hfar := hapart.far (i := i) (by omega)
  exact h.behind _ (by omega)

/-! The loop over the characters -/

end Stdio

end KnutOS
