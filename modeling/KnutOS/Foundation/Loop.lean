import Mathlib.Data.Nat.Basic
import Mathlib.Data.List.Range

/-! A loop, round by round. It may leave with a result, go on for ever, or hang in a call. -/
namespace Foundation

/-- What one round of the loop does. -/
inductive Round (S R : Type*)
  | goOn (s : S)
  | leave (r : R)
  | hang

variable {S R : Type*} {step : S → Round S R} {s t u : S} {r r' : R} {P : S → Prop} {n k : ℕ}

/-- The loop from `s` on. `none` is a loop that has not left after `fuel` rounds. -/
def iterate (step : S → Round S R) : ℕ → S → Option R
  | 0, _ => none
  | fuel + 1, s =>
    match step s with
    | .goOn t => iterate step fuel t
    | .leave r => some r
    | .hang => none

/-- The loop leaves with `r`, after however many rounds. -/
def Returns (step : S → Round S R) (s : S) (r : R) : Prop := ∃ fuel, iterate step fuel s = some r

/-- The states in which a round begins. -/
inductive Visits (step : S → Round S R) (s : S) : S → Prop
  | start : Visits step s s
  | goOn {t u : S} : Visits step s t → step t = .goOn u → Visits step s u

theorem Visits.head (h : step s = .goOn t) (ht : Visits step t u) : Visits step s u := by
  induction ht with
  | start => exact .goOn .start h
  | goOn _ hu ih => exact .goOn ih hu

/-- What holds at the start and is kept by every round that goes on. -/
theorem Visits.invariant (h : Visits step s t) (hs : P s)
    (hstep : ∀ t u, P t → step t = .goOn u → P u) : P t := by
  induction h with
  | start => exact hs
  | goOn _ hu ih => exact hstep _ _ ih hu

theorem returns_of_leave (h : step s = .leave r) : Returns step s r := ⟨1, by simp [iterate, h]⟩

theorem returns_of_goOn (h : step s = .goOn t) (ht : Returns step t r) : Returns step s r := by
  obtain ⟨fuel, hfuel⟩ := ht
  exact ⟨fuel + 1, by simpa [iterate, h] using hfuel⟩

theorem Visits.returns (h : Visits step s t) (ht : Returns step t r) : Returns step s r := by
  induction h with
  | start => exact ht
  | goOn _ hu ih => exact ih (returns_of_goOn hu ht)

/-- A loop that returns leaves from a state that it visits. -/
theorem Returns.exists_visits (h : Returns step s r) : ∃ t, Visits step s t ∧ step t = .leave r := by
  obtain ⟨fuel, hfuel⟩ := h
  induction fuel generalizing s with
  | zero => cases hfuel
  | succ fuel ih =>
    cases hstep : step s with
    | goOn t =>
      simp only [iterate, hstep] at hfuel
      obtain ⟨u, hu, hleave⟩ := ih hfuel
      exact ⟨u, hu.head hstep, hleave⟩
    | leave r' =>
      simp only [iterate, hstep] at hfuel
      obtain rfl := Option.some.inj hfuel
      exact ⟨s, .start, hstep⟩
    | hang =>
      simp only [iterate, hstep] at hfuel
      cases hfuel

/-- A loop that has left after some rounds has left after more of them. -/
theorem iterate_mono {fuel fuel' : ℕ} (h : iterate step fuel s = some r) (hle : fuel ≤ fuel') :
    iterate step fuel' s = some r := by
  induction fuel generalizing s fuel' with
  | zero => cases h
  | succ fuel ih =>
    cases fuel' with
    | zero => omega
    | succ fuel' =>
      cases hstep : step s with
      | goOn t =>
        simp only [iterate, hstep] at h ⊢
        exact ih h (by omega)
      | leave r' =>
        simp only [iterate, hstep] at h ⊢
        exact h
      | hang =>
        simp only [iterate, hstep] at h
        cases h

/-- Two numbers of rounds that are both enough give the same result. -/
theorem Returns.unique (h : Returns step s r) (h' : Returns step s r') : r = r' := by
  obtain ⟨fuel, hfuel⟩ := h
  obtain ⟨fuel', hfuel'⟩ := h'
  have hmax := iterate_mono hfuel (Nat.le_max_left fuel fuel')
  exact Option.some.inj (hmax.symm.trans (iterate_mono hfuel' (Nat.le_max_right fuel fuel')))

/-- An invariant under which every round goes on keeps the loop from ever leaving. -/
theorem not_returns_of_invariant (hs : P s) (hstep : ∀ t, P t → ∃ u, step t = .goOn u ∧ P u) :
    ¬ Returns step s r := by
  intro h
  obtain ⟨t, ht, hleave⟩ := h.exists_visits
  have hp : P t := by
    apply ht.invariant hs
    intro t u hp hu
    obtain ⟨v, hv, hpv⟩ := hstep t hp
    cases hv.symm.trans hu
    exact hpv
  obtain ⟨u, hu, _⟩ := hstep t hp
  cases hleave.symm.trans hu

/-- A loop in which every round leaves or comes closer to leaving returns. -/
theorem exists_returns_of_measure (work : S → ℕ) (hs : P s)
    (hstep : ∀ t, P t → (∃ r, step t = .leave r) ∨ ∃ u, step t = .goOn u ∧ P u ∧ work u < work t) :
    ∃ r, Returns step s r := by
  induction hn : work s using Nat.strong_induction_on generalizing s with
  | _ n ih =>
    rcases hstep s hs with ⟨r, hr⟩ | ⟨u, hu, hpu, hlt⟩
    · exact ⟨r, returns_of_leave hr⟩
    · obtain ⟨r, hr⟩ := ih (work u) (by omega) hpu rfl
      exact ⟨r, returns_of_goOn hu hr⟩

/-- A counted loop goes through its states in turn. -/
theorem visits_of_path {f : ℕ → S} (h : ∀ k < n, step (f k) = .goOn (f (k + 1))) :
    Visits step (f 0) (f n) := by
  induction n with
  | zero => exact .start
  | succ n ih => exact .goOn (ih fun k hk => h k (by omega)) (h n (by omega))

/-- It has left after one round more than it has states to go through. -/
theorem iterate_of_path {f : ℕ → S} {fuel : ℕ} (h : ∀ k < n, step (f k) = .goOn (f (k + 1)))
    (hleave : step (f n) = .leave r) (hfuel : n < fuel) : iterate step fuel (f 0) = some r := by
  induction fuel generalizing n f with
  | zero => omega
  | succ fuel ih =>
    cases n with
    | zero => simp only [iterate, hleave]
    | succ n =>
      simp only [iterate, h 0 (by omega)]
      exact ih (f := fun k => f (k + 1)) (fun k hk => h (k + 1) (by omega)) hleave (by omega)

/-- A `for` loop over `a, a + 1, ..., a + n - 1`. -/
theorem foldl_range'_invariant {body : S → ℕ → S} {I : ℕ → S → Prop} {a : ℕ} (hs : I a s)
    (hbody : ∀ i s, a ≤ i → i < a + n → I i s → I (i + 1) (body s i)) :
    I (a + n) ((List.range' a n).foldl body s) := by
  induction n with
  | zero => exact hs
  | succ n ih =>
    have hn : I (a + n) ((List.range' a n).foldl body s) :=
      ih fun i s hi hlt => hbody i s hi (by omega)
    rw [List.range'_1_concat, List.foldl_append]
    exact hbody (a + n) _ (by omega) (by omega) hn

/-! A loop that follows the path `f` as long as `p` holds. -/

section

variable {f : ℕ → S} {p : ℕ → Prop}

/-- It visits the states of the path up to the first failure of `p`. -/
theorem visits_path_iff (hgo : ∀ k, p k → step (f k) = .goOn (f (k + 1)))
    (hend : ∀ k u, (∀ j < k, p j) → ¬ p k → step (f k) ≠ .goOn u) :
    Visits step (f 0) t ↔ ∃ k, (∀ j < k, p j) ∧ t = f k := by
  constructor
  · intro ht
    apply ht.invariant (P := fun t => ∃ k, (∀ j < k, p j) ∧ t = f k) ⟨0, by omega, rfl⟩
    rintro t u ⟨k, hk, rfl⟩ hu
    have hp : p k := by
      by_contra hp
      exact hend k u hk hp hu
    cases (hgo k hp).symm.trans hu
    refine ⟨k + 1, fun j hj => ?_, rfl⟩
    rcases Nat.lt_succ_iff_lt_or_eq.mp hj with hj | rfl
    · exact hk j hj
    · exact hp
  · rintro ⟨k, hk, rfl⟩
    exact visits_of_path fun j hj => hgo j (hk j hj)

/-- It returns if and only if `p` fails somewhere. -/
theorem exists_returns_path_iff (hgo : ∀ k, p k → step (f k) = .goOn (f (k + 1)))
    (hend : ∀ k, (∀ j < k, p j) → ¬ p k → ∃ r, step (f k) = .leave r) :
    (∃ r, Returns step (f 0) r) ↔ ∃ k, ¬ p k := by
  constructor
  · rintro ⟨r, hr⟩
    by_contra hall
    refine not_returns_of_invariant (P := fun t => ∃ k, t = f k) ⟨0, rfl⟩ ?_ hr
    rintro t ⟨k, rfl⟩
    exact ⟨f (k + 1), hgo k (by_contra fun hp => hall ⟨k, hp⟩), k + 1, rfl⟩
  · rintro ⟨k, hk⟩
    induction k using Nat.strong_induction_on with
    | _ k ih =>
      by_cases hfirst : ∀ j < k, p j
      · obtain ⟨r, hr⟩ := hend k hfirst hk
        exact ⟨r, (visits_of_path fun j hj => hgo j (hfirst j hj)).returns (returns_of_leave hr)⟩
      · obtain ⟨j, hj⟩ := not_forall.mp hfirst
        obtain ⟨hjk, hpj⟩ := Classical.not_imp.mp hj
        exact ih j hjk hpj

end

end Foundation
