import Mathlib.Data.Nat.Basic

/-! Parties that take turns in any order, and what they reach when each of them has its turn again
and again. -/
namespace Foundation

variable {S A P : Type*} {move : A → S → S} {turn : ℕ → A} {who : A → P} {s : S} {I Done : S → Prop}
  {work : S → ℕ} {n : ℕ}

/-- The state after `n` moves. -/
def after (move : A → S → S) (turn : ℕ → A) (s : S) : ℕ → S
  | 0 => s
  | n + 1 => move (turn n) (after move turn s n)

/-- Everyone's turn comes after any number of moves. -/
def Fair (who : A → P) (turn : ℕ → A) : Prop := ∀ p n, ∃ k, n ≤ k ∧ who (turn k) = p

theorem after_invariant (hs : I s) (hmove : ∀ a s, I s → I (move a s)) (n : ℕ) :
    I (after move turn s n) := by
  induction n with
  | zero => exact hs
  | succ n ih => exact hmove _ _ ih

/-- A relation that the moves of two systems keep holds after any number of them. -/
theorem after_simulates {T B : Type*} {move' : B → T → T} {t : T} {R : S → T → Prop} (f : A → B)
    (turn : ℕ → A) (h : R s t) (hmove : ∀ a s t, R s t → R (move a s) (move' (f a) t)) (n : ℕ) :
    R (after move turn s n) (after move' (fun k => f (turn k)) t n) := by
  induction n with
  | zero => exact h
  | succ n ih => exact hmove _ _ _ ih

/-- Moves that do some of the work or nothing at all: nothing changes until some is done. -/
theorem after_eq_or_lt (hs : I s) (hinv : ∀ a s, I s → I (move a s))
    (hmove : ∀ a s, I s → move a s = s ∨ work (move a s) < work s) (n d : ℕ) :
    after move turn s (n + d) = after move turn s n ∨
      ∃ i, work (after move turn s i) < work (after move turn s n) := by
  induction d with
  | zero => exact .inl rfl
  | succ d ih =>
    rcases ih with heq | hlt
    · rcases hmove (turn (n + d)) _ (after_invariant hs hinv (n + d)) with hsame | hless
      · exact .inl (hsame.trans heq)
      · rw [heq] at hless
        exact .inr ⟨n + d + 1, by rw [after, heq]; exact hless⟩
    · exact .inr hlt

/-- As long as there is work, someone can do some of it: in a fair schedule it is done some time. -/
theorem exists_done (work : S → ℕ) (hs : I s) (hinv : ∀ a s, I s → I (move a s))
    (hmove : ∀ a s, I s → move a s = s ∨ work (move a s) < work s)
    (hhelp : ∀ s, I s → ¬ Done s → ∃ p, ∀ a, who a = p → work (move a s) < work s)
    (hfair : Fair who turn) : ∃ n, Done (after move turn s n) := by
  have hfrom : ∀ w n, work (after move turn s n) = w → ∃ n, Done (after move turn s n) := by
    intro w
    induction w using Nat.strong_induction_on with
    | _ w ih =>
      intro n hw
      by_cases hdone : Done (after move turn s n)
      · exact ⟨n, hdone⟩
      · obtain ⟨p, hp⟩ := hhelp _ (after_invariant hs hinv n) hdone
        obtain ⟨k, hk, hturn⟩ := hfair p n
        obtain ⟨d, rfl⟩ := Nat.exists_eq_add_of_le hk
        rcases after_eq_or_lt hs hinv hmove n d with heq | ⟨i, hi⟩
        · have hless := hp _ hturn
          rw [← heq] at hless
          exact ih _ (by rw [← hw, ← heq]; exact hless) (n + d + 1) rfl
        · exact ih _ (by rwa [← hw]) i rfl
  exact hfrom _ 0 rfl

end Foundation
