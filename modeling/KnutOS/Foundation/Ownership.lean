import KnutOS.Foundation.Lists
import KnutOS.Foundation.Run

/-! A pool of resources lent out in blocks: no resource is lent twice, and none is lost. -/
namespace Foundation

variable {α : Type*}

/-- The resources at hand and the blocks lent out. -/
structure Pool (α : Type*) where
  free : Set α
  live : List (Set α)

namespace Pool

inductive Action (α : Type*)
  | acquire (b : Set α)
  | release (b : Set α)
  | discard (b : Set α)
  | skip

/-- A block is taken from the free resources; it comes back, or is given up for good. -/
inductive Step : Pool α → Action α → Pool α → Prop
  | acquire {p : Pool α} {b : Set α} (hb : b ⊆ p.free) :
      Step p (.acquire b) ⟨p.free \ b, b :: p.live⟩
  | release {free b : Set α} {l₁ l₂ : List (Set α)} :
      Step ⟨free, l₁ ++ b :: l₂⟩ (.release b) ⟨free ∪ b, l₁ ++ l₂⟩
  | discard {free b : Set α} {l₁ l₂ : List (Set α)} :
      Step ⟨free, l₁ ++ b :: l₂⟩ (.discard b) ⟨free, l₁ ++ l₂⟩
  | skip {p : Pool α} : Step p .skip p

/-- Live blocks share nothing with one another nor with the free resources. -/
structure Exclusive (p : Pool α) : Prop where
  live_live : p.live.Pairwise Disjoint
  live_free : ∀ b ∈ p.live, Disjoint b p.free

/-- Everything the pool knows of. -/
def total (p : Pool α) : Set α := p.free ∪ ⋃ b ∈ p.live, b

variable {p q : Pool α} {a : Action α} {as : List (Action α)} {free b : Set α}
  {l₁ l₂ : List (Set α)}

theorem mem_total {x : α} : x ∈ p.total ↔ x ∈ p.free ∨ ∃ b ∈ p.live, x ∈ b := by
  simp [total]

theorem exclusive_initial (free : Set α) : Exclusive ⟨free, []⟩ :=
  ⟨List.Pairwise.nil, by simp⟩

theorem Exclusive.of_sublist {l l' : List (Set α)} (h : Exclusive ⟨free, l⟩)
    (hl : l'.Sublist l) : Exclusive ⟨free, l'⟩ :=
  ⟨h.live_live.sublist hl, fun b hb => h.live_free b (hl.subset hb)⟩

theorem exclusive_step (h : Step p a q) (hp : Exclusive p) : Exclusive q := by
  cases h with
  | acquire hb =>
    refine ⟨List.pairwise_cons.mpr ⟨?_, hp.live_live⟩, ?_⟩
    · intro c hc
      exact ((hp.live_free c hc).mono_right hb).symm
    · intro c hc
      rcases List.mem_cons.mp hc with rfl | hc
      · exact Set.disjoint_sdiff_right
      · exact (hp.live_free c hc).mono_right Set.sdiff_subset
  | release =>
    refine ⟨(hp.of_sublist sublist_middle).live_live, ?_⟩
    intro c hc
    have hf := (hp.of_sublist sublist_middle).live_free c hc
    have hb := pairwise_middle (fun _ _ h => h.symm) hp.live_live c hc
    exact Set.disjoint_union_right.mpr ⟨hf, hb.symm⟩
  | discard => exact hp.of_sublist sublist_middle
  | skip => exact hp

/-- A pool never comes to know a resource it did not start with. -/
theorem total_step_subset (h : Step p a q) : q.total ⊆ p.total := by
  intro x hx
  cases h with
  | acquire hb =>
    rcases mem_total.mp hx with hf | ⟨c, hc, hxc⟩
    · exact mem_total.mpr (.inl hf.1)
    · rcases List.mem_cons.mp hc with rfl | hc
      · exact mem_total.mpr (.inl (hb hxc))
      · exact mem_total.mpr (.inr ⟨c, hc, hxc⟩)
  | release =>
    rcases mem_total.mp hx with (hf | hb) | ⟨c, hc, hxc⟩
    · exact mem_total.mpr (.inl hf)
    · exact mem_total.mpr (.inr ⟨_, by simp, hb⟩)
    · exact mem_total.mpr (.inr ⟨c, sublist_middle.subset hc, hxc⟩)
  | discard =>
    rcases mem_total.mp hx with hf | ⟨c, hc, hxc⟩
    · exact mem_total.mpr (.inl hf)
    · exact mem_total.mpr (.inr ⟨c, sublist_middle.subset hc, hxc⟩)
  | skip => exact hx

/-- Only a discarded block leaves the pool. -/
theorem total_step (h : Step p a q) (ha : ∀ b, a ≠ .discard b) : q.total = p.total := by
  refine (total_step_subset h).antisymm ?_
  intro x hx
  cases h with
  | @acquire p b hb =>
    rcases mem_total.mp hx with hf | ⟨c, hc, hxc⟩
    · by_cases hxb : x ∈ b
      · exact mem_total.mpr (.inr ⟨b, by simp, hxb⟩)
      · exact mem_total.mpr (.inl ⟨hf, hxb⟩)
    · exact mem_total.mpr (.inr ⟨c, List.mem_cons_of_mem _ hc, hxc⟩)
  | release =>
    rcases mem_total.mp hx with hf | ⟨c, hc, hxc⟩
    · exact mem_total.mpr (.inl (.inl hf))
    · simp only [List.mem_append, List.mem_cons] at hc
      rcases hc with hc | rfl | hc
      · exact mem_total.mpr (.inr ⟨c, by simp [hc], hxc⟩)
      · exact mem_total.mpr (.inl (.inr hxc))
      · exact mem_total.mpr (.inr ⟨c, by simp [hc], hxc⟩)
  | discard => exact (ha _ rfl).elim
  | skip => exact hx

/-- The free resources and the blocks are counted apart. -/
theorem ncard_total (h : Exclusive p) (hf : p.total.Finite) :
    p.total.ncard = p.free.ncard + (p.live.map Set.ncard).sum := by
  have hlive : ∀ b ∈ p.live, b ⊆ p.total := fun b hb x hx => mem_total.mpr (.inr ⟨b, hb, hx⟩)
  have hfree : p.free ⊆ p.total := fun x hx => mem_total.mpr (.inl hx)
  rw [total, Set.ncard_union_eq ?_ (hf.subset hfree) (hf.subset Set.subset_union_right),
    ncard_biUnion_list h.live_live fun b hb => hf.subset (hlive b hb)]
  exact Set.disjoint_iUnion₂_right.mpr fun b hb => (h.live_free b hb).symm

end Pool

end Foundation
