import KnutOS.Libk.Kprintf
import KnutOS.Libk.Ssfn

/-! The strings of C: what stands in memory up to a terminator, and the literals of the source. -/
namespace KnutOS

open Foundation

/-- The characters from `a` on, of which `n` are looked at. -/
def charsAt (m : Bytes) : ℕ → BitVec 64 → List Byte
  | 0, _ => []
  | n + 1, a => if m a = 0#8 then [] else m a :: charsAt m n (a + 1#64)

namespace Strings

variable {m m' : Bytes} {a : BitVec 64} {n : ℕ} {bs : List Byte} {cs : List Char}

theorem zero_not_mem_charsAt : 0#8 ∉ charsAt m n a := by
  induction n generalizing a with
  | zero => exact List.not_mem_nil
  | succ n ih =>
    rw [charsAt]
    split
    · exact List.not_mem_nil
    · next hne =>
      intro hmem
      rcases List.mem_cons.mp hmem with heq | hmem
      · exact hne heq.symm
      · exact ih hmem

theorem length_charsAt_le : (charsAt m n a).length ≤ n := by
  induction n generalizing a with
  | zero => exact le_rfl
  | succ n ih =>
    rw [charsAt]
    split
    · exact Nat.zero_le _
    · rw [List.length_cons]
      exact Nat.succ_le_succ ih

theorem charsAt_eq (h : Spelled m a (bs ++ [0#8])) (h0 : 0#8 ∉ bs) (hn : bs.length < n) :
    charsAt m n a = bs := by
  induction bs generalizing a n with
  | nil =>
    cases n with
    | zero => cases hn
    | succ n => exact if_pos h.1
  | cons b bs ih =>
    cases n with
    | zero => cases hn
    | succ n =>
      obtain ⟨hb, htail⟩ := h
      rw [List.mem_cons, not_or] at h0
      rw [List.length_cons] at hn
      have hne : m a ≠ 0#8 := fun heq => h0.1 (heq.symm.trans hb)
      rw [charsAt, if_neg hne, hb, ih htail h0.2 (by omega)]

end Strings

/-- The string at `a`. There are `2 ^ 64` addresses. -/
def stringAt (m : Bytes) (a : BitVec 64) : CString where
  bytes := charsAt m (2 ^ 64 - 1) a
  noTerminator := Strings.zero_not_mem_charsAt
  inMemory := Nat.lt_of_le_of_lt Strings.length_charsAt_le (by decide)

namespace Strings

variable {m m' : Bytes} {a : BitVec 64} {n : ℕ} {bs : List Byte} {cs : List Char}

theorem stringAt_eq (h : Spelled m a (bs ++ [0#8])) (h0 : 0#8 ∉ bs) (hlen : bs.length < 2 ^ 64 - 1) :
    (stringAt m a).bytes = bs := charsAt_eq h h0 hlen

/-- What is spelled somewhere depends on these bytes only. -/
theorem spelled_congr (h : Spelled m a bs)
    (heq : ∀ i < bs.length, m' (a + BitVec.ofNat 64 i) = m (a + BitVec.ofNat 64 i)) :
    Spelled m' a bs := by
  induction bs generalizing a with
  | nil => trivial
  | cons b bs ih =>
    obtain ⟨hb, htail⟩ := h
    rw [List.length_cons] at heq
    have hhead := heq 0 (by omega)
    rw [BitVec.add_zero] at hhead
    refine ⟨hhead.trans hb, ih htail fun i hi => ?_⟩
    have hnext := heq (1 + i) (by omega)
    rwa [← add_ofNat_add_ofNat] at hnext

theorem spelled_iff :
    Spelled m a bs ↔ ∀ i (hi : i < bs.length), m (a + BitVec.ofNat 64 i) = bs[i] := by
  induction bs generalizing a with
  | nil => exact ⟨fun _ i hi => absurd hi (Nat.not_lt_zero i), fun _ => trivial⟩
  | cons b bs ih =>
    rw [Spelled, ih]
    constructor
    · rintro ⟨hb, htail⟩ i hi
      cases i with
      | zero => simpa using hb
      | succ i =>
        have hi' : i < bs.length := by simpa using hi
        have hnext := htail i hi'
        rw [add_ofNat_add_ofNat a 1 i, Nat.add_comm] at hnext
        exact hnext
    · intro h
      have hhead := h 0 (Nat.succ_pos bs.length)
      rw [BitVec.add_zero] at hhead
      refine ⟨hhead, fun i hi => ?_⟩
      have hnext := h (i + 1) (by simpa using hi)
      rw [add_ofNat_add_ofNat a 1 i, Nat.add_comm]
      exact hnext

/-- The text of characters in the encoding of the source files. -/
def utf8Text (cs : List Char) : List Byte := cs.flatMap Ssfn.utf8

theorem utf8Text_cons (c : Char) (cs : List Char) : utf8Text (c :: cs) = Ssfn.utf8 c ++ utf8Text cs :=
  List.flatMap_cons

theorem utf8Text_append (cs ds : List Char) : utf8Text (cs ++ ds) = utf8Text cs ++ utf8Text ds :=
  List.flatMap_append

theorem length_utf8Text_le (cs : List Char) : (utf8Text cs).length ≤ 4 * cs.length := by
  induction cs with
  | nil => exact le_rfl
  | cons c cs ih =>
    have hle := Ssfn.length_utf8_le c
    rw [utf8Text_cons, List.length_append, List.length_cons]
    omega

theorem zero_not_mem_utf8Text (h : '\x00' ∉ cs) : 0#8 ∉ utf8Text cs := by
  intro hmem
  obtain ⟨c, hc, hz⟩ := List.mem_flatMap.mp hmem
  exact Ssfn.zero_not_mem_utf8 (fun heq => h (heq ▸ hc)) hz

/-! Stretches of memory -/

/-- The two stretches have no byte in common. -/
def Apart (a : BitVec 64) (n : ℕ) (b : BitVec 64) (k : ℕ) : Prop :=
  ∀ i < n, ∀ j < k, a + BitVec.ofNat 64 i ≠ b + BitVec.ofNat 64 j

theorem Apart.far {b : BitVec 64} {i k : ℕ} (h : Apart a n b k) (hi : i < n) :
    k ≤ (a + BitVec.ofNat 64 i - b).toNat := by
  by_contra hlt
  refine h i hi (a + BitVec.ofNat 64 i - b).toNat (by omega) ?_
  rw [BitVec.ofNat_toNat, BitVec.setWidth_eq, BitVec.add_comm b, BitVec.sub_add_cancel]

theorem Apart.of_le {b : BitVec 64} {k : ℕ} (h : a.toNat + n ≤ b.toNat)
    (hend : b.toNat + k ≤ 2 ^ 64) : Apart a n b k := by
  intro i hi j hj heq
  have hnat := congrArg BitVec.toNat heq
  simp only [BitVec.toNat_add, BitVec.toNat_ofNat] at hnat
  omega

end Strings

/-- A string literal. -/
def literal (cs : List Char) (h : '\x00' ∉ cs ∧ cs.length < 2 ^ 62) : CString where
  bytes := Strings.utf8Text cs
  noTerminator := Strings.zero_not_mem_utf8Text h.1
  inMemory := by
    have := Strings.length_utf8Text_le cs
    omega

end KnutOS
