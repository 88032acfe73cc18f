import KnutOS.Foundation.RadixTree
import KnutOS.Memory.Mem

/-! The x86_64 page walk over four or five levels of tables, as the processor does it. -/
namespace KnutOS

open Foundation

/-- Physical memory, by the addresses of its 8-byte words. -/
abbrev Memory := Word → Word

/-- Bits 12 to 51 of a page table entry. -/
abbrev Frame := BitVec 40

abbrev Index := BitVec 9

def frameAddr (f : Frame) : Word := f.setWidth 64 <<< 12

def entryAddr (f : Frame) (i : Index) : Word := frameAddr f + 8#64 * i.setWidth 64

/-- The entries of the table in frame `f`. -/
def Memory.entries (mem : Memory) (f : Frame) (i : Index) : Word := mem (entryAddr f i)

namespace Entry

def present (e : Word) : Bool := e.getLsbD 0

/-- The page size bit: reserved at levels 4 and 5, a large page at levels 2 and 3. -/
def large (e : Word) : Bool := e.getLsbD 7

def writable (e : Word) : Bool := e.getLsbD 1

def user (e : Word) : Bool := e.getLsbD 2

def frame (e : Word) : Frame := e.extractLsb' 12 40

def flags (e : Word) : BitVec 9 := e.setWidth 9

/-- The table that an entry above level 1 points to. -/
def child (e : Word) : Option Frame := if present e && !large e then some (frame e) else none

end Entry

def levels (la57 : Bool) : ℕ := if la57 then 5 else 4

/-- The indices of a virtual address above level 1, from the highest level down. -/
def upperIndices (la57 : Bool) (va : Word) : List Index :=
  (if la57 then [48, 39, 30, 21] else [39, 30, 21]).map fun shift => va.extractLsb' shift 9

def leafIndex (va : Word) : Index := va.extractLsb' 12 9

def indices (la57 : Bool) (va : Word) : List Index := upperIndices la57 va ++ [leafIndex va]

inductive Walk
  | notPresent
  | reserved
  | page (address : Word) (flags : BitVec 9)
deriving DecidableEq

/-- What the entry means at which a walk of `va` ends, `l` levels above level 1. -/
def finish (va : Word) (l : ℕ) (e : Word) : Walk :=
  if !Entry.present e then .notPresent
  else if l = 0 then .page (frameAddr (Entry.frame e)) (Entry.flags e)
  else if 3 ≤ l then .reserved
  else
    let width := 12 + 9 * l
    if e.extractLsb' 13 (width - 13) ≠ 0 then .reserved
    else .page (frameAddr (Entry.frame e) >>> width <<< width ||| (va.extractLsb' 0 width).setWidth 64)
      (Entry.flags e)

/-- The walk from the table at `cr3`. -/
def pageWalk (la57 : Bool) (mem : Memory) (cr3 va : Word) : Walk :=
  match RadixTree.lookup Entry.child mem.entries (Entry.frame cr3) (indices la57 va) with
  | none => .notPresent
  | some (l, e) => finish va l e

structure Rights where
  writable : Bool
  user : Bool
deriving DecidableEq

/-- What the processor allows: an access needs its right in every entry of the walk. -/
def rights (la57 : Bool) (mem : Memory) (cr3 va : Word) : Option Rights :=
  match pageWalk la57 mem cr3 va with
  | .page _ _ =>
    let entries := RadixTree.trail Entry.child mem.entries (Entry.frame cr3) (indices la57 va)
    some ⟨entries.all Entry.writable, entries.all Entry.user⟩
  | _ => none

/-- The address of a virtual page: canonical and page-aligned. -/
structure IsPage (la57 : Bool) (va : Word) : Prop where
  canonical : (va.setWidth (if la57 then 57 else 48)).signExtend 64 = va
  aligned : va.toNat % 4096 = 0

variable {la57 : Bool} {mem : Memory} {f g : Frame} {i j : Index} {e a v w : Word} {l : ℕ}

theorem length_upperIndices (la57 : Bool) (va : Word) :
    (upperIndices la57 va).length + 1 = levels la57 := by
  cases la57 <;> rfl

theorem length_indices (la57 : Bool) (va : Word) : (indices la57 va).length = levels la57 := by
  cases la57 <;> rfl

theorem toNat_frameAddr (f : Frame) : (frameAddr f).toNat = f.toNat * 4096 := by
  have hf := f.isLt
  rw [frameAddr, BitVec.toNat_shiftLeft, BitVec.toNat_setWidth, Nat.shiftLeft_eq]
  omega

theorem toNat_entryAddr (f : Frame) (i : Index) :
    (entryAddr f i).toNat = f.toNat * 4096 + 8 * i.toNat := by
  have hf := f.isLt
  have hi := i.isLt
  rw [entryAddr, BitVec.toNat_add, BitVec.toNat_mul, toNat_frameAddr, BitVec.toNat_setWidth,
    BitVec.toNat_ofNat]
  omega

theorem frameAddr_injective (h : frameAddr f = frameAddr g) : f = g := by
  have hn := congrArg BitVec.toNat h
  rw [toNat_frameAddr, toNat_frameAddr] at hn
  exact BitVec.eq_of_toNat_eq (by omega)

/-- Different entries lie at different addresses. -/
theorem entryAddr_injective (h : entryAddr f i = entryAddr g j) : f = g ∧ i = j := by
  have hi := i.isLt
  have hj := j.isLt
  have hn := congrArg BitVec.toNat h
  rw [toNat_entryAddr, toNat_entryAddr] at hn
  exact ⟨BitVec.eq_of_toNat_eq (by omega), BitVec.eq_of_toNat_eq (by omega)⟩

/-- A store to an entry's address writes that entry. -/
theorem entries_update (mem : Memory) (f : Frame) (i : Index) (e : Word) :
    Memory.entries (Function.update mem (entryAddr f i) e) =
      RadixTree.write mem.entries f i e := by
  funext g j
  by_cases h : g = f ∧ j = i
  · obtain ⟨rfl, rfl⟩ := h
    simp [Memory.entries]
  · have hne : entryAddr g j ≠ entryAddr f i := fun he => h (entryAddr_injective he)
    rw [RadixTree.write_of_ne h, Memory.entries, Function.update_of_ne hne]
    rfl

theorem toNat_frame (e : Word) : (Entry.frame e).toNat = e.toNat / 4096 % 2 ^ 40 := by
  rw [Entry.frame, BitVec.extractLsb'_toNat, Nat.shiftRight_eq_div_pow]

theorem frame_frameAddr (f : Frame) : Entry.frame (frameAddr f) = f := by
  have hf := f.isLt
  apply BitVec.eq_of_toNat_eq
  rw [toNat_frame, toNat_frameAddr]
  omega

/-- The fields of an entry made of a page address and low flag bits. -/
theorem entry_fields (fl : Word) (ha : a.toNat % 4096 = 0) (hlt : a.toNat < 2 ^ 52)
    (hf : fl.toNat < 512) :
    frameAddr (Entry.frame (a ||| fl)) = a ∧ (a ||| fl) &&& ~~~511#64 = a ∧
    Entry.flags (a ||| fl) = fl.setWidth 9 ∧ Entry.present (a ||| fl) = fl.getLsbD 0 ∧
    Entry.large (a ||| fl) = fl.getLsbD 7 := by
  have hor : (a ||| fl).toNat = a.toNat + fl.toNat := toNat_or_low (k := 12) ha (by omega)
  have hbit : ∀ k < 9, a.getLsbD k = false := by
    intro k hk
    rw [BitVec.getLsbD, Nat.testBit_eq_decide_div_mod_eq]
    have hk' : k = 0 ∨ k = 1 ∨ k = 2 ∨ k = 3 ∨ k = 4 ∨ k = 5 ∨ k = 6 ∨ k = 7 ∨ k = 8 := by omega
    rcases hk' with rfl | rfl | rfl | rfl | rfl | rfl | rfl | rfl | rfl <;> simp <;> omega
  refine ⟨?_, ?_, ?_, ?_, ?_⟩
  · apply BitVec.eq_of_toNat_eq
    rw [toNat_frameAddr, toNat_frame, hor]
    omega
  · apply BitVec.eq_of_toNat_eq
    have hclear := toNat_and_not_low (a ||| fl) 9
    rw [show BitVec.ofNat 64 (2 ^ 9 - 1) = 511#64 from rfl] at hclear
    rw [hclear, hor]
    omega
  · apply BitVec.eq_of_toNat_eq
    rw [Entry.flags, BitVec.toNat_setWidth, BitVec.toNat_setWidth, hor]
    omega
  · simp only [Entry.present, BitVec.getLsbD_or, hbit 0 (by omega), Bool.false_or]
  · simp only [Entry.large, BitVec.getLsbD_or, hbit 7 (by omega), Bool.false_or]

theorem present_eq_false_iff (e : Word) : Entry.present e = false ↔ e &&& 1#64 = 0#64 := by
  constructor
  · intro h
    apply BitVec.eq_of_getLsbD_eq
    intro k hk
    rw [BitVec.getLsbD_and, BitVec.getLsbD_one, BitVec.getLsbD_zero]
    by_cases h0 : k = 0
    · subst h0
      simpa [Entry.present] using h
    · simp [h0]
  · intro h
    have hbit := congrArg (fun x => x.getLsbD 0) h
    simpa [Entry.present] using hbit

theorem child_of_absent (h : Entry.present e = false) : Entry.child e = none := by
  simp [Entry.child, h]

theorem child_of_present (h : Entry.present e = true) (hl : Entry.large e = false) :
    Entry.child e = some (Entry.frame e) := by
  simp [Entry.child, h, hl]

theorem child_of_large (h : Entry.large e = true) : Entry.child e = none := by
  simp [Entry.child, h]

theorem finish_notPresent (va : Word) (l : ℕ) (h : Entry.present e = false) :
    finish va l e = .notPresent := by
  simp [finish, h]

theorem finish_present (va : Word) (l : ℕ) (h : Entry.present e = true) :
    finish va l e ≠ .notPresent := by
  simp only [finish, h, Bool.not_true, Bool.false_eq_true, if_false]
  split
  · simp
  · split
    · simp
    · split <;> simp

theorem toNat_index (va : Word) (shift : ℕ) :
    (va.extractLsb' shift 9).toNat = va.toNat / 2 ^ shift % 512 := by
  rw [BitVec.extractLsb'_toNat, Nat.shiftRight_eq_div_pow]

/-- The upper bits of a canonical address repeat its top bit. -/
theorem canonical_iff {k : ℕ} (hk : k ≤ 64) : (v.setWidth k).signExtend 64 = v ↔
    v.toNat = v.toNat % 2 ^ k + if 2 ^ (k - 1) ≤ v.toNat % 2 ^ k then 2 ^ 64 - 2 ^ k else 0 := by
  have hle : v.toNat % 2 ^ k < 2 ^ 64 :=
    lt_of_lt_of_le (Nat.mod_lt _ (Nat.two_pow_pos k)) (Nat.pow_le_pow_right (by decide) hk)
  rw [← BitVec.toNat_inj, BitVec.toNat_signExtend, BitVec.toNat_setWidth, BitVec.toNat_setWidth,
    Nat.mod_eq_of_lt hle, BitVec.msb_eq_decide, BitVec.toNat_setWidth, eq_comm]
  simp only [decide_eq_true_eq]

theorem toNat_canonical {k : ℕ} (h : (v.setWidth k).signExtend 64 = v) (hk : k ≤ 64) :
    v.toNat = v.toNat % 2 ^ k + if 2 ^ (k - 1) ≤ v.toNat % 2 ^ k then 2 ^ 64 - 2 ^ k else 0 :=
  (canonical_iff hk).mp h

/-- Page addresses in the lower half, and in the upper half of the active mode. -/
theorem isPage_of_half (ha : v.toNat % 4096 = 0)
    (h : v.toNat < 2 ^ 47 ∨ 2 ^ 64 - (if la57 then 2 ^ 56 else 2 ^ 47) ≤ v.toNat) :
    IsPage la57 v := by
  have hlt := v.isLt
  refine ⟨?_, ha⟩
  cases la57 with
  | false =>
    simp only [Bool.false_eq_true, if_false] at h
    refine (canonical_iff (k := 48) (by decide)).mpr ?_
    split <;> omega
  | true =>
    simp only [if_true] at h
    refine (canonical_iff (k := 57) (by decide)).mpr ?_
    split <;> omega

/-- A virtual page is determined by its indices. -/
theorem indices_injective (hv : IsPage la57 v) (hw : IsPage la57 w)
    (h : indices la57 v = indices la57 w) : v = w := by
  obtain ⟨hvc, hva⟩ := hv
  obtain ⟨hwc, hwa⟩ := hw
  have hdigit : ∀ shift, v.extractLsb' shift 9 = w.extractLsb' shift 9 →
      v.toNat / 2 ^ shift % 512 = w.toNat / 2 ^ shift % 512 := by
    intro shift he
    rw [← toNat_index, ← toNat_index, he]
  apply BitVec.eq_of_toNat_eq
  cases la57 with
  | false =>
    simp only [indices, upperIndices, leafIndex, Bool.false_eq_true, if_false, List.map_cons,
      List.map_nil, List.cons_append, List.nil_append, List.cons.injEq, and_true] at h
    obtain ⟨h4, h3, h2, h1⟩ := h
    have hv' := toNat_canonical hvc (by decide)
    have hw' := toNat_canonical hwc (by decide)
    have h4 := hdigit 39 h4
    have h3 := hdigit 30 h3
    have h2 := hdigit 21 h2
    have h1 := hdigit 12 h1
    have hmod : v.toNat % 2 ^ 48 = w.toNat % 2 ^ 48 := by omega
    simp only [Bool.false_eq_true, if_false] at hv' hw'
    rw [hv', hw', hmod]
  | true =>
    simp only [indices, upperIndices, leafIndex, if_true, List.map_cons, List.map_nil,
      List.cons_append, List.nil_append, List.cons.injEq, and_true] at h
    obtain ⟨h5, h4, h3, h2, h1⟩ := h
    have hv' := toNat_canonical hvc (by decide)
    have hw' := toNat_canonical hwc (by decide)
    have h5 := hdigit 48 h5
    have h4 := hdigit 39 h4
    have h3 := hdigit 30 h3
    have h2 := hdigit 21 h2
    have h1 := hdigit 12 h1
    have hmod : v.toNat % 2 ^ 57 = w.toNat % 2 ^ 57 := by omega
    simp only [if_true] at hv' hw'
    rw [hv', hw', hmod]

end KnutOS
