import Mathlib

/-! Linear search over the indices `0, 1, ..., m - 1`, stopping at the first hit, and the
one element of a list that an operation takes out. -/
namespace Foundation

theorem sublist_middle {α : Type*} {b : α} {l₁ l₂ : List α} :
    (l₁ ++ l₂).Sublist (l₁ ++ b :: l₂) :=
  (List.Sublist.refl l₁).append (List.sublist_cons_self b l₂)

/-- An element in the middle of a list is related to all the others. -/
theorem pairwise_middle {α : Type*} {R : α → α → Prop} (hR : ∀ a b, R a b → R b a) {b : α}
    {l₁ l₂ : List α} (h : (l₁ ++ b :: l₂).Pairwise R) : ∀ c ∈ l₁ ++ l₂, R b c := by
  have hp : (b :: (l₁ ++ l₂)).Pairwise R :=
    (List.perm_middle.pairwise_iff (fun h => hR _ _ h)).mp h
  exact (List.pairwise_cons.mp hp).1

/-- Replacing an element keeps the relation if the new one stands in it wherever the old did. -/
theorem pairwise_replace {α : Type*} {R : α → α → Prop} {b b' : α} {l₁ l₂ : List α}
    (h : (l₁ ++ b :: l₂).Pairwise R) (hl : ∀ a ∈ l₁, R a b → R a b') (hr : ∀ a ∈ l₂, R b a → R b' a) :
    (l₁ ++ b' :: l₂).Pairwise R := by
  simp only [List.pairwise_append, List.pairwise_cons, List.mem_cons] at h ⊢
  obtain ⟨h₁, ⟨hb, h₂⟩, h₁₂⟩ := h
  refine ⟨h₁, ⟨fun a ha => hr a ha (hb a ha), h₂⟩, ?_⟩
  rintro a ha c (rfl | hc)
  · exact hl a ha (h₁₂ a ha b (.inl rfl))
  · exact h₁₂ a ha c (.inr hc)

/-- Pairwise disjoint sets are counted one by one. -/
theorem ncard_biUnion_list {α : Type*} {l : List (Set α)} (hd : l.Pairwise Disjoint)
    (hf : ∀ s ∈ l, s.Finite) : (⋃ s ∈ l, s).ncard = (l.map Set.ncard).sum := by
  induction l with
  | nil => simp
  | cons s l ih =>
    obtain ⟨hs, hl⟩ := List.pairwise_cons.mp hd
    have hfin : (⋃ t ∈ l, t).Finite :=
      Set.Finite.biUnion l.finite_toSet fun t ht => hf t (List.mem_cons_of_mem s ht)
    have hdisj : Disjoint s (⋃ t ∈ l, t) := Set.disjoint_iUnion₂_right.mpr hs
    simp only [List.mem_cons, Set.iUnion_iUnion_eq_or_left, List.map_cons, List.sum_cons]
    rw [Set.ncard_union_eq hdisj (hf s (by simp)) hfin,
      ih hl (fun t ht => hf t (List.mem_cons_of_mem s ht))]

variable {β : Type*} {g : ℕ → Option β} {m i : ℕ} {v : β}

theorem findSome?_range_none (h : ∀ j < m, g j = none) : (List.range m).findSome? g = none := by
  simpa [List.findSome?_eq_none_iff] using h

/-- The search returns the first hit. -/
theorem findSome?_range_least (hi : i < m) (hv : g i = some v) (hl : ∀ j < i, g j = none) :
    (List.range m).findSome? g = some v := by
  induction m with
  | zero => omega
  | succ m ih =>
    rw [List.range_succ, List.findSome?_append]
    by_cases him : i < m
    · rw [ih him]
      rfl
    · obtain rfl : i = m := by omega
      rw [findSome?_range_none hl]
      simp [hv]

/-- Repeating a search that does not look at the repetition count changes nothing. -/
theorem findSome?_range_const {r : Option β} (hm : 0 < m) :
    (List.range m).findSome? (fun _ => r) = r := by
  cases r with
  | none => exact findSome?_range_none (fun _ _ => rfl)
  | some v => exact findSome?_range_least hm rfl (fun _ h => by omega)

/-- Either nothing is hit, or there is a first hit. -/
theorem exists_least_lt (P : ℕ → Prop) (m : ℕ) :
    (∀ i < m, ¬ P i) ∨ ∃ i < m, P i ∧ ∀ j < i, ¬ P j := by
  induction m with
  | zero => exact .inl (fun _ h => by omega)
  | succ m ih =>
    rcases ih with hno | ⟨i, hi, hp, hl⟩
    · by_cases hm : P m
      · exact .inr ⟨m, Nat.lt_succ_self m, hm, hno⟩
      · left
        intro i hi
        rcases Nat.lt_succ_iff_lt_or_eq.mp hi with hi | rfl
        · exact hno i hi
        · exact hm
    · exact .inr ⟨i, Nat.lt_succ_of_lt hi, hp, hl⟩

end Foundation
