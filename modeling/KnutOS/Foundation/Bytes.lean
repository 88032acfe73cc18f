import Mathlib.Data.Nat.Bitwise
import Mathlib.Data.Int.Init

/-! Byte-addressed memory with little-endian words, and the words of a stack in it. -/
namespace Foundation

/-- The byte at every address. Addresses wrap around. -/
abbrev Bytes := BitVec 64 → BitVec 8

/-- The bytes `image` at `base`, with zeros around them. -/
def bytesOf (base : BitVec 64) (image : List (BitVec 8)) : Bytes := fun a =>
  image.getD (a - base).toNat 0#8

/-- The word at `a`: its first byte is the lowest. -/
def load64 (m : Bytes) (a : BitVec 64) : BitVec 64 :=
  m (a + 7#64) ++ m (a + 6#64) ++ m (a + 5#64) ++ m (a + 4#64) ++
    m (a + 3#64) ++ m (a + 2#64) ++ m (a + 1#64) ++ m (a + 0#64)

def load32 (m : Bytes) (a : BitVec 64) : BitVec 32 :=
  m (a + 3#64) ++ m (a + 2#64) ++ m (a + 1#64) ++ m (a + 0#64)

def store64 (m : Bytes) (a v : BitVec 64) : Bytes := fun x =>
  if (x - a).toNat < 8 then v.extractLsb' (8 * (x - a).toNat) 8 else m x

/-- The bytes from `a` on are overwritten. -/
def storeBytes (m : Bytes) (a : BitVec 64) (bs : List (BitVec 8)) : Bytes := fun x =>
  bs.getD (x - a).toNat (m x)

variable {m m' : Bytes} {a b v : BitVec 64} {k : ℕ}

theorem storeBytes_at {bs : List (BitVec 8)} (m : Bytes) (a : BitVec 64) (hk : k < bs.length)
    (hlen : bs.length ≤ 2 ^ 64) : storeBytes m a bs (a + BitVec.ofNat 64 k) = bs[k] := by
  have hoffset : (a + BitVec.ofNat 64 k - a).toNat = k := by
    rw [BitVec.add_comm, BitVec.add_sub_cancel, BitVec.toNat_ofNat]
    omega
  rw [storeBytes, hoffset, List.getD_eq_getElem bs _ hk]

theorem storeBytes_of_out {bs : List (BitVec 8)} {x : BitVec 64} (h : bs.length ≤ (x - a).toNat) :
    storeBytes m a bs x = m x := List.getD_eq_default bs _ h

theorem load64_congr (h : ∀ k < 8, m (a + BitVec.ofNat 64 k) = m' (a + BitVec.ofNat 64 k)) :
    load64 m a = load64 m' a := by
  rw [load64, load64, h 0 (by decide), h 1 (by decide), h 2 (by decide), h 3 (by decide),
    h 4 (by decide), h 5 (by decide), h 6 (by decide), h 7 (by decide)]

theorem store64_of_out {x : BitVec 64} (h : 8 ≤ (x - a).toNat) : store64 m a v x = m x :=
  if_neg (by omega)

theorem store64_at (m : Bytes) (a v : BitVec 64) (hk : k < 8) :
    store64 m a v (a + BitVec.ofNat 64 k) = v.extractLsb' (8 * k) 8 := by
  have hd : (a + BitVec.ofNat 64 k - a).toNat = k := by
    rw [BitVec.add_comm, BitVec.add_sub_cancel, BitVec.toNat_ofNat]
    omega
  rw [store64, hd, if_pos hk]

/-- A store leaves the words alone that it does not overlap. -/
theorem load64_store64_of_apart (h : ∀ k < 8, 8 ≤ (b + BitVec.ofNat 64 k - a).toNat) :
    load64 (store64 m a v) b = load64 m b := load64_congr fun k hk => store64_of_out (h k hk)

/-- A word is the eight bytes of it. -/
theorem append_extract (v : BitVec 64) :
    v.extractLsb' 56 8 ++ v.extractLsb' 48 8 ++ v.extractLsb' 40 8 ++ v.extractLsb' 32 8 ++
      v.extractLsb' 24 8 ++ v.extractLsb' 16 8 ++ v.extractLsb' 8 8 ++ v.extractLsb' 0 8 = v := by
  apply BitVec.eq_of_getLsbD_eq
  intro i hi
  simp only [BitVec.getLsbD_append, BitVec.getLsbD_extractLsb']
  grind

@[simp] theorem load64_store64 (m : Bytes) (a v : BitVec 64) : load64 (store64 m a v) a = v := by
  rw [load64, store64_at m a v (k := 0) (by decide), store64_at m a v (k := 1) (by decide),
    store64_at m a v (k := 2) (by decide), store64_at m a v (k := 3) (by decide),
    store64_at m a v (k := 4) (by decide), store64_at m a v (k := 5) (by decide),
    store64_at m a v (k := 6) (by decide), store64_at m a v (k := 7) (by decide)]
  exact append_extract v

/-- The words on a stack, from the stack pointer up. -/
def Stacked (m : Bytes) : BitVec 64 → List (BitVec 64) → Prop
  | _, [] => True
  | sp, v :: vs => load64 m sp = v ∧ Stacked m (sp + 8#64) vs

variable {sp : BitVec 64} {vs : List (BitVec 64)}

theorem add_ofNat_add_ofNat (x : BitVec 64) (a b : ℕ) :
    x + BitVec.ofNat 64 a + BitVec.ofNat 64 b = x + BitVec.ofNat 64 (a + b) := by
  rw [BitVec.add_assoc, ← BitVec.ofNat_add]

/-- A stack depends on its own bytes only. -/
theorem Stacked.congr (hs : Stacked m sp vs)
    (h : ∀ k < 8 * vs.length, m' (sp + BitVec.ofNat 64 k) = m (sp + BitVec.ofNat 64 k)) :
    Stacked m' sp vs := by
  induction vs generalizing sp with
  | nil => trivial
  | cons v vs ih =>
    obtain ⟨hv, htail⟩ := hs
    rw [List.length_cons] at h
    refine ⟨?_, ih htail fun k hk => ?_⟩
    · rw [← hv]
      exact load64_congr fun k hk => h k (by omega)
    · have hk' := h (8 + k) (by omega)
      rwa [← add_ofNat_add_ofNat] at hk'

/-- A store below a stack, in the room between the addresses `2 ^ 64` apart. -/
theorem Stacked.push (hs : Stacked m sp vs) (hroom : 8 * (vs.length + 1) ≤ 2 ^ 64)
    (v : BitVec 64) : Stacked (store64 m (sp - 8#64) v) (sp - 8#64) (v :: vs) := by
  refine ⟨load64_store64 m _ v, ?_⟩
  rw [BitVec.sub_add_cancel]
  apply hs.congr
  intro k hk
  apply store64_of_out
  have hd : sp + BitVec.ofNat 64 k - (sp - 8#64) = BitVec.ofNat 64 (k + 8) := by
    rw [BitVec.ofNat_add]
    generalize BitVec.ofNat 64 k = x
    bv_omega
  rw [hd, BitVec.toNat_ofNat]
  omega

/-- The words above some word of the stack. -/
theorem Stacked.drop {us : List (BitVec 64)} (hs : Stacked m sp (us ++ vs)) :
    Stacked m (sp + BitVec.ofNat 64 (8 * us.length)) vs := by
  induction us generalizing sp with
  | nil => simpa using hs
  | cons u us ih =>
    have htail := ih hs.2
    rwa [add_ofNat_add_ofNat, show 8 + 8 * us.length = 8 * (u :: us).length by
      rw [List.length_cons]; omega] at htail

/-- The bytes in memory from an address on. -/
def Spelled (m : Bytes) : BitVec 64 → List (BitVec 8) → Prop
  | _, [] => True
  | p, b :: bs => m p = b ∧ Spelled m (p + 1#64) bs

theorem Spelled.append {p : BitVec 64} {bs cs : List (BitVec 8)} :
    Spelled m p (bs ++ cs) ↔
      Spelled m p bs ∧ Spelled m (p + BitVec.ofNat 64 bs.length) cs := by
  induction bs generalizing p with
  | nil => simp [Spelled]
  | cons b bs ih =>
    have hnext : p + 1#64 + BitVec.ofNat 64 bs.length = p + BitVec.ofNat 64 (bs.length + 1) := by
      rw [Nat.add_comm, ← add_ofNat_add_ofNat]
    rw [List.cons_append, Spelled, Spelled, ih, List.length_cons, hnext, and_assoc]

end Foundation
