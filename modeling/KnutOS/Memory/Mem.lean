import KnutOS.Foundation.Words

/-! Page arithmetic and the higher-half direct map (`memory/mem.h`). -/
namespace KnutOS

abbrev Word := BitVec 64

/-- `HIGHER_HALF_DATA_LV5` or `HIGHER_HALF_DATA_LV4`, by the la57 bit of cr4. -/
def higherHalfData (la57 : Bool) : Word :=
  if la57 then 0xFF00000000000000#64 else 0xFFFF800000000000#64

def higherHalfCode : Word := 0xFFFFFFFF80000000#64

def pageSize : Word := 4096#64

def kbToPages (kb : Word) : Word := kb * 1024#64 / pageSize

def alignDown (addr align : Word) : Word := addr &&& ~~~(align - 1#64)

def alignUp (addr align : Word) : Word := (addr + align - 1#64) &&& ~~~(align - 1#64)

def physToHigherHalfData (la57 : Bool) (address : Word) : Word := higherHalfData la57 + address

def higherHalfDataToPhys (la57 : Bool) (address : Word) : Word := address - higherHalfData la57

def physToHigherHalfCode (address : Word) : Word := higherHalfCode + address

@[simp] theorem higherHalfDataToPhys_physToHigherHalfData (la57 : Bool) (a : Word) :
    higherHalfDataToPhys la57 (physToHigherHalfData la57 a) = a := by
  simp only [higherHalfDataToPhys, physToHigherHalfData]
  bv_omega

theorem toNat_alignDown_page (a : Word) :
    (alignDown a pageSize).toNat = a.toNat / 4096 * 4096 :=
  Foundation.toNat_and_not_low a 12

theorem toNat_alignUp_page {a : Word} (h : a.toNat + 4095 < 2 ^ 64) :
    (alignUp a pageSize).toNat = (a.toNat + 4095) / 4096 * 4096 := by
  have hs : (a + pageSize - 1#64).toNat = a.toNat + 4095 := by
    simp only [pageSize]
    bv_omega
  rw [← hs]
  exact Foundation.toNat_and_not_low _ 12

theorem toNat_kbToPages (a : Word) :
    (kbToPages a).toNat = a.toNat * 1024 % 2 ^ 64 / 4096 := by
  simp [kbToPages, pageSize]

/-- The frame number of a page address. -/
theorem ofNat_mul_div_pageSize {i : ℕ} (h : i < 2 ^ 52) :
    BitVec.ofNat 64 (i * 4096) / pageSize = BitVec.ofNat 64 i := by
  apply BitVec.eq_of_toNat_eq
  rw [BitVec.toNat_udiv, BitVec.toNat_ofNat, BitVec.toNat_ofNat,
    Nat.mod_eq_of_lt (show i * 4096 < 2 ^ 64 by omega), Nat.mod_eq_of_lt (show i < 2 ^ 64 by omega)]
  exact Nat.mul_div_cancel i (by decide)

/-- The direct map never reaches address 0 from a physical address below 128 TiB. -/
theorem physToHigherHalfData_ne_zero (la57 : Bool) {a : Word} (h : a.toNat < 2 ^ 47) :
    physToHigherHalfData la57 a ≠ 0#64 := by
  cases la57 <;>
    simp only [physToHigherHalfData, higherHalfData, Bool.false_eq_true, if_false, if_true] <;>
    bv_omega

end KnutOS
