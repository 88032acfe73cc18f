import KnutOS.Memory.PmmSafety
import KnutOS.Memory.SlabLayout

/-! The blocks of `pmm_alloc` as stretches of addresses. -/
namespace KnutOS.Pmm

open Foundation

variable {la57 : Bool} {s₀ : Pmm} {c c' : Config} {call : Call} {b b' : Block} {x : ℕ}

namespace Block

/-- The addresses of the block. -/
def bytes (b : Block) : Set ℕ := Slab.bytes b.ptr (b.count * 4096)

theorem bytes_page (p : Word) : Block.bytes ⟨p, 1⟩ = Slab.bytes p 4096 := by
  rw [Block.bytes, Nat.one_mul]

/-- A block of the direct map, whose frame numbers fit an `int`. -/
def Placed (la57 : Bool) (b : Block) : Prop :=
  ∃ i n, 1 ≤ n ∧ i + n ≤ 2 ^ 31 ∧ b = ofFrame la57 i n

theorem toNat_ofFrame (la57 : Bool) {i n : ℕ} (h : i + n ≤ 2 ^ 31) :
    (ofFrame la57 i n).ptr.toNat = (higherHalfData la57).toNat + i * 4096 ∧
      (higherHalfData la57).toNat + (i + n) * 4096 < 2 ^ 64 := by
  have hhalf : (higherHalfData la57).toNat + 2 ^ 43 < 2 ^ 64 := by cases la57 <;> decide
  refine ⟨?_, by omega⟩
  rw [ofFrame, physToHigherHalfData, BitVec.toNat_add, BitVec.toNat_ofNat]
  omega

theorem Placed.bounds (h : Placed la57 b) :
    1 ≤ b.count ∧ b.ptr.toNat % 4096 = 0 ∧ b.ptr.toNat + b.count * 4096 < 2 ^ 64 := by
  obtain ⟨i, n, hn, hin, rfl⟩ := h
  obtain ⟨hptr, hend⟩ := toNat_ofFrame la57 hin
  have haligned : (higherHalfData la57).toNat % 4096 = 0 := by cases la57 <;> decide
  have hcount : (ofFrame la57 i n).count = n := rfl
  rw [hcount]
  exact ⟨hn, by omega, by omega⟩

theorem Placed.ptr_mem (h : Placed la57 b) : b.ptr.toNat ∈ b.bytes := by
  obtain ⟨hcount, _⟩ := h.bounds
  exact ⟨le_rfl, by omega⟩

/-- An address of the block lies in one of its frames. -/
theorem Placed.frame_mem (h : Placed la57 b) (hx : x ∈ b.bytes) :
    (x - (higherHalfData la57).toNat) / 4096 ∈ b.frames la57 := by
  obtain ⟨i, n, hn, hin, rfl⟩ := h
  obtain ⟨hptr, _⟩ := toNat_ofFrame la57 hin
  obtain ⟨hlo, hhi⟩ := hx
  have hcount : (ofFrame la57 i n).count = n := rfl
  rw [hcount] at hhi
  rw [frames_ofFrame la57 n (by omega)]
  exact ⟨by omega, by omega⟩

theorem Placed.disjoint (hb : Placed la57 b) (hb' : Placed la57 b')
    (h : Disjoint (b.frames la57) (b'.frames la57)) : Disjoint b.bytes b'.bytes := by
  apply Set.disjoint_left.mpr
  intro x hx hx'
  exact Set.disjoint_left.mp h (hb.frame_mem hx) (hb'.frame_mem hx')

end Block

/-- What a run keeps in which every allocation fits the first free run. -/
structure Sound (la57 : Bool) (s₀ : Pmm) (c : Config) : Prop where
  placed : ∀ b ∈ c.live, b.Placed la57
  inRange : InRange la57 c
  exclusive : (c.pool la57).Exclusive
  total : (c.pool la57).total = {f | s₀.FrameFree f}

theorem sound_start (la57 : Bool) (s₀ : Pmm) : Sound la57 s₀ ⟨s₀, []⟩ :=
  ⟨List.forall_mem_nil _, List.forall_mem_nil _, Pool.exclusive_initial _,
    by simp [Config.pool, Pool.total]⟩

theorem sound_step (h : Sound la57 s₀ c) (hs : Guarded la57 FirstRunFits c call c') :
    Sound la57 s₀ c' := by
  obtain ⟨x, hp, hx⟩ := pool_step hs h.inRange
  refine ⟨?_, inRange_step hs h.inRange, Pool.exclusive_step hp h.exclusive,
    (Pool.total_step hp hx).trans h.total⟩
  rcases step_cases hs.1 with ⟨_, _, _, rfl⟩ | ⟨n, i, hcall, hn, hd, hi, rfl⟩ | ⟨b, _, _, rfl⟩
  · exact h.placed
  · intro b hb
    rcases List.mem_cons.mp hb with rfl | hb
    · exact ⟨i, n, hn, (hs.2 n hcall hd i hi).1, rfl⟩
    · exact h.placed b hb
  · exact fun b hb => h.placed b (List.mem_of_mem_erase hb)

theorem Sound.apart (h : Sound la57 s₀ c) :
    c.live.Pairwise fun b b' => Disjoint b.bytes b'.bytes := by
  apply (List.pairwise_map.mp h.exclusive.live_live).imp_of_mem
  intro b b' hb hb' hd
  exact (h.placed b hb).disjoint (h.placed b' hb') hd

theorem Sound.disjoint (h : Sound la57 s₀ c) (hb : b ∈ c.live) (hb' : b' ∈ c.live) (hne : b ≠ b') :
    Disjoint b.bytes b'.bytes := by
  have hsymm : Std.Symm fun b b' : Block => Disjoint b.bytes b'.bytes := ⟨fun _ _ hd => hd.symm⟩
  exact h.apart.forall hb hb' hne

end KnutOS.Pmm
