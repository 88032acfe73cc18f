import KnutOS.Foundation.Bytes
import KnutOS.Foundation.Words
import Mathlib.Tactic.Ring

/-! The characters of a string (`libk/ssfn.h`), and the UTF-8 encoding that they are read from. -/
namespace KnutOS

open Foundation

namespace Ssfn

variable {m : Bytes} {s : BitVec 64} {b : BitVec 8} {c : Char} {i k v : ℕ}

/-- The UTF-8 encoding of a character. -/
def utf8 (c : Char) : List (BitVec 8) := (String.utf8EncodeChar c).map UInt8.toBitVec

/-- The code point of a character. -/
def code (c : Char) : BitVec 32 := BitVec.ofNat 32 c.toNat

/-! The bits of a byte, when it is taken for an `int`. -/

theorem toNat_char_lt (c : Char) : c.toNat < 0x110000 := by
  have hv : c.toNat < 0xd800 ∨ 0xdfff < c.toNat ∧ c.toNat < 0x110000 := c.valid
  omega

theorem utf8_one (h : c.toNat ≤ 0x7F) : utf8 c = [BitVec.ofNat 8 c.toNat] := by
  exact congrArg (List.map UInt8.toBitVec) (if_pos h)

theorem utf8_two (h₁ : ¬ c.toNat ≤ 0x7F) (h : c.toNat ≤ 0x7FF) :
    utf8 c = [BitVec.ofNat 8 (c.toNat / 64 % 32 + 0xC0), BitVec.ofNat 8 (c.toNat % 64 + 0x80)] := by
  exact congrArg (List.map UInt8.toBitVec) ((if_neg h₁).trans (if_pos h))

theorem utf8_three (h₁ : ¬ c.toNat ≤ 0x7F) (h₂ : ¬ c.toNat ≤ 0x7FF) (h : c.toNat ≤ 0xFFFF) :
    utf8 c = [BitVec.ofNat 8 (c.toNat / 4096 % 16 + 0xE0),
      BitVec.ofNat 8 (c.toNat / 64 % 64 + 0x80), BitVec.ofNat 8 (c.toNat % 64 + 0x80)] := by
  exact congrArg (List.map UInt8.toBitVec) ((if_neg h₁).trans ((if_neg h₂).trans (if_pos h)))

theorem utf8_four (h₁ : ¬ c.toNat ≤ 0x7F) (h₂ : ¬ c.toNat ≤ 0x7FF) (h : ¬ c.toNat ≤ 0xFFFF) :
    utf8 c = [BitVec.ofNat 8 (c.toNat / 262144 % 8 + 0xF0),
      BitVec.ofNat 8 (c.toNat / 4096 % 64 + 0x80), BitVec.ofNat 8 (c.toNat / 64 % 64 + 0x80),
      BitVec.ofNat 8 (c.toNat % 64 + 0x80)] := by
  exact congrArg (List.map UInt8.toBitVec) ((if_neg h₁).trans ((if_neg h₂).trans (if_neg h)))

theorem length_utf8_le (c : Char) : (utf8 c).length ≤ 4 := by
  rw [utf8, List.length_map, String.length_utf8EncodeChar]
  exact Char.utf8Size_le_four c

/-- An ASCII byte stands for nothing but itself. -/
theorem toNat_of_mem_utf8 {n : ℕ} (hn : n < 0x80) (h : BitVec.ofNat 8 n ∈ utf8 c) : c.toNat = n := by
  have hv := toNat_char_lt c
  have hmod : ∀ k, BitVec.ofNat 8 n = BitVec.ofNat 8 k → n = k % 256 := by
    intro k heq
    have hnat := congrArg BitVec.toNat heq
    rw [BitVec.toNat_ofNat, BitVec.toNat_ofNat] at hnat
    omega
  by_cases h₁ : c.toNat ≤ 0x7F
  · rw [utf8_one h₁, List.mem_singleton] at h
    have := hmod _ h
    omega
  by_cases h₂ : c.toNat ≤ 0x7FF
  · rw [utf8_two h₁ h₂] at h
    simp only [List.mem_cons, List.not_mem_nil, or_false] at h
    rcases h with h | h
    all_goals
      have := hmod _ h
      omega
  by_cases h₃ : c.toNat ≤ 0xFFFF
  · rw [utf8_three h₁ h₂ h₃] at h
    simp only [List.mem_cons, List.not_mem_nil, or_false] at h
    rcases h with h | h | h
    all_goals
      have := hmod _ h
      omega
  · rw [utf8_four h₁ h₂ h₃] at h
    simp only [List.mem_cons, List.not_mem_nil, or_false] at h
    rcases h with h | h | h | h
    all_goals
      have := hmod _ h
      omega

/-- No byte of an encoding is a terminator, unless the character is one. -/
theorem zero_not_mem_utf8 (h : c ≠ '\x00') : 0#8 ∉ utf8 c := fun hmem =>
  h (Char.toNat_inj.mp (toNat_of_mem_utf8 (by decide) hmem))

end Ssfn

end KnutOS
