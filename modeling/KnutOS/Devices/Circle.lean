import KnutOS.Devices.Drawing
import Mathlib

/-! How round the circles are. -/
namespace KnutOS

open Foundation

/-- No other integer next to `y` is closer to the circle in column `x`. -/
def BestInColumn (radius x y : ℤ) : Prop :=
  |x ^ 2 + y ^ 2 - radius ^ 2| ≤ |x ^ 2 + (y - 1) ^ 2 - radius ^ 2| ∧
    |x ^ 2 + y ^ 2 - radius ^ 2| ≤ |x ^ 2 + (y + 1) ^ 2 - radius ^ 2|

instance (radius x y : ℤ) : Decidable (BestInColumn radius x y) :=
  inferInstanceAs (Decidable (_ ∧ _))

/-- `framebuffer_draw_circle` returns, and every offset of the first octant is the best. -/
def AsRoundAsTheGrid (radius : ℤ) : Prop :=
  ∃ offsets, CircleOffsets radius offsets ∧
    ∀ p ∈ offsets, 0 ≤ p.1 → p.1 ≤ p.2 → BestInColumn radius p.1 p.2

/-- The state after `n` rounds. -/
def circleAt (radius : ℤ) (n : ℕ) : CircleState := circleStep^[n] (circleStart radius)

def circleY (radius : ℤ) (n : ℕ) : ℤ := (circleAt radius n).y

variable {radius r x y : ℤ} {n k : ℕ}

theorem circleAt_succ (radius : ℤ) (n : ℕ) :
    circleAt radius (n + 1) = circleStep (circleAt radius n) :=
  Function.iterate_succ_apply' circleStep n _

theorem circleStep_down {s : CircleState} (h : 0 < s.d) : circleStep s =
    ⟨s.x + 1, s.y - 1, s.d + 4 * (s.x + 1 - (s.y - 1)) + 10,
      s.offsets ++ [(s.x + 1, s.y - 1)]⟩ := by
  have hd : s.d > 0 := h
  simp only [circleStep, if_pos hd]

theorem circleStep_level {s : CircleState} (h : s.d ≤ 0) : circleStep s =
    ⟨s.x + 1, s.y, s.d + 4 * (s.x + 1) + 6, s.offsets ++ [(s.x + 1, s.y)]⟩ := by
  have hd : ¬ s.d > 0 := Int.not_lt.mpr h
  simp only [circleStep, if_neg hd]

theorem circleAt_x (radius : ℤ) (n : ℕ) : (circleAt radius n).x = n := by
  induction n with
  | zero => rfl
  | succ n ih =>
    rw [circleAt_succ]
    rcases Int.lt_or_le 0 (circleAt radius n).d with hd | hd
    · rw [circleStep_down hd, ih, Int.natCast_succ]
    · rw [circleStep_level hd, ih, Int.natCast_succ]

/-- In each round, `y` stays or goes down by one. -/
theorem circleY_succ (radius : ℤ) (n : ℕ) : circleY radius (n + 1) =
    if 0 < (circleAt radius n).d then circleY radius n - 1 else circleY radius n := by
  rw [circleY, circleAt_succ]
  split_ifs with hd
  · rw [circleStep_down hd]
    rfl
  · rw [circleStep_level (by omega)]
    rfl

theorem circleY_bounds (radius : ℤ) (n : ℕ) :
    radius - n ≤ circleY radius n ∧ circleY radius n ≤ radius := by
  induction n with
  | zero =>
    rw [circleY]
    simp [circleAt, circleStart]
  | succ n ih =>
    rw [circleY_succ]
    split_ifs <;> omega

theorem circleAt_offsets (radius : ℤ) (n : ℕ) :
    (circleAt radius n).offsets =
      (List.range (n + 1)).map fun i : ℕ => ((i : ℤ), circleY radius i) := by
  induction n with
  | zero => rfl
  | succ n ih =>
    have hlast : (circleAt radius (n + 1)).offsets = (circleAt radius n).offsets ++
        [((circleAt radius (n + 1)).x, (circleAt radius (n + 1)).y)] := by
      rw [circleAt_succ]
      rcases Int.lt_or_le 0 (circleAt radius n).d with hd | hd
      · rw [circleStep_down hd]
      · rw [circleStep_level hd]
    rw [hlast, ih, circleAt_x, List.range_succ (n := n + 1), List.map_append]
    rfl

/-- The decision variable. The first four terms decide which of two pixels is closer; the others
come from computing the increments with the coordinates of the next column. -/
theorem circleAt_d (radius : ℤ) (n : ℕ) :
    (circleAt radius n).d = 2 * (n + 1) ^ 2 + circleY radius n ^ 2 + (circleY radius n - 1) ^ 2 -
      2 * radius ^ 2 + 4 * n + 4 * (radius - circleY radius n) := by
  induction n with
  | zero =>
    simp only [circleY, circleAt, circleStart, Function.iterate_zero, id]
    push_cast
    ring
  | succ n ih =>
    have hx := circleAt_x radius n
    have hy : (circleAt radius n).y = circleY radius n := rfl
    rw [circleY_succ]
    split_ifs with hd
    · rw [circleAt_succ, circleStep_down hd, hx, hy]
      dsimp only
      rw [ih]
      push_cast
      ring
    · rw [circleAt_succ, circleStep_level (by omega), hx]
      dsimp only
      rw [ih]
      push_cast
      ring

theorem circleRound_goOn (h : n ≤ circleY radius n) :
    circleRound (circleAt radius n) = .goOn (circleAt radius (n + 1)) := by
  have hgo : (circleAt radius n).y ≥ (circleAt radius n).x := by rwa [circleAt_x]
  rw [circleRound, if_pos hgo, circleAt_succ]

theorem circleRound_leave (h : ¬ n ≤ circleY radius n) :
    circleRound (circleAt radius n) = .leave (circleAt radius n).offsets := by
  have hstop : ¬ (circleAt radius n).y ≥ (circleAt radius n).x := by rwa [circleAt_x]
  rw [circleRound, if_neg hstop]

/-- The offsets that are passed are those of the rounds that are begun. -/
theorem mem_of_circleOffsets {offsets : List (ℤ × ℤ)} (h : CircleOffsets radius offsets)
    (hn : ∀ i < n, i ≤ circleY radius i) : ((n : ℤ), circleY radius n) ∈ offsets := by
  have hgo : ∀ k, k ≤ circleY radius k →
      circleRound (circleAt radius k) = .goOn (circleAt radius (k + 1)) :=
    fun k => circleRound_goOn
  have hend : ∀ k u, (∀ j < k, j ≤ circleY radius j) → ¬ k ≤ circleY radius k →
      circleRound (circleAt radius k) ≠ .goOn u := by
    intro k u _ hk hu
    cases (circleRound_leave hk).symm.trans hu
  obtain ⟨t, ht, hleave⟩ := Returns.exists_visits h
  obtain ⟨k, hk, rfl⟩ := (visits_path_iff hgo hend).mp ht
  have hstop : ¬ k ≤ circleY radius k := by
    intro hk
    cases (hgo k hk).symm.trans hleave
  have hnk : n ≤ k := by
    by_contra hlt
    exact hstop (hn k (by omega))
  cases (circleRound_leave hstop).symm.trans hleave
  rw [circleAt_offsets]
  exact List.mem_map.mpr ⟨n, List.mem_range.mpr (by omega), rfl⟩

/-- The best pixel is not above the circle by more than half, -/
theorem BestInColumn.upper (h : BestInColumn r x y) (hy : 0 < y) :
    2 * x ^ 2 + y ^ 2 + (y - 1) ^ 2 ≤ 2 * r ^ 2 := by
  have hsq := sq_le_sq.mpr h.1
  by_contra hlt
  have hdiff : 0 < y ^ 2 - (y - 1) ^ 2 := by linarith [show y ^ 2 - (y - 1) ^ 2 = 2 * y - 1 by ring]
  have hsum : 0 < 2 * x ^ 2 + y ^ 2 + (y - 1) ^ 2 - 2 * r ^ 2 := by omega
  have hprod := mul_pos hdiff hsum
  linarith

/-- and not below it by more than half. -/
theorem BestInColumn.lower (h : BestInColumn r x y) (hy : 0 ≤ y) :
    2 * r ^ 2 ≤ 2 * x ^ 2 + y ^ 2 + (y + 1) ^ 2 := by
  have hsq := sq_le_sq.mpr h.2
  by_contra hlt
  have hdiff : 0 < (y + 1) ^ 2 - y ^ 2 := by linarith [show (y + 1) ^ 2 - y ^ 2 = 2 * y + 1 by ring]
  have hsum : 0 < 2 * r ^ 2 - (2 * x ^ 2 + y ^ 2 + (y + 1) ^ 2) := by omega
  have hprod := mul_pos hdiff hsum
  linarith

/-- In the columns between, the best pixel is two below the top. -/
theorem BestInColumn.secondRow (h : BestInColumn r x y) (hy : 0 < y) (hlo : 6 * r - 5 < 2 * x ^ 2)
    (hhi : 2 * x ^ 2 < 10 * r - 13) : y = r - 2 := by
  have hupper := h.upper hy
  have hlower := h.lower hy.le
  have hle : y ≤ r - 2 := by
    by_contra hlt
    have hrow : r - 1 ≤ y := by omega
    have hr : 1 ≤ r := by omega
    nlinarith
  have hge : r - 2 ≤ y := by
    by_contra hlt
    have hrow : y ≤ r - 3 := by omega
    nlinarith
  omega

/-- In the first columns, every offset belongs to the first octant. -/
theorem AsRoundAsTheGrid.best (h : AsRoundAsTheGrid r) (hn : 2 * n ≤ r) :
    BestInColumn r n (circleY r n) := by
  obtain ⟨offsets, hoffsets, hbest⟩ := h
  have hoctant : ∀ i ≤ n, i ≤ circleY r i := by
    intro i hi
    have hy := (circleY_bounds r i).1
    omega
  have hmem : ((n : ℤ), circleY r n) ∈ offsets :=
    mem_of_circleOffsets hoffsets fun i hi => hoctant i hi.le
  exact hbest ((n : ℤ), circleY r n) hmem (Int.natCast_nonneg n) (hoctant n le_rfl)

/-- After a level step in the second row below the top, the lower pixel is too far from the circle
by more than the next column makes up for, so that the best offset never leaves the row. -/
theorem AsRoundAsTheGrid.level_forever (h : AsRoundAsTheGrid r) (hr : 3 ≤ r)
    (hrow : circleY r k = r - 2) (hlevel : circleY r (k + 1) = r - 2) (hkn : k + 1 ≤ n)
    (hn : 2 * n ≤ r) : circleY r n = r - 2 := by
  have hnext : ∀ n, circleY r n = r - 2 → circleY r (n + 1) = r - 2 →
      2 * ((n + 1 : ℕ) + 1 : ℤ) ^ 2 + (r - 2) ^ 2 + (r - 3) ^ 2 < 2 * r ^ 2 := by
    intro n hy hy'
    rw [circleY_succ] at hy'
    split_ifs at hy' with hd
    · omega
    · rw [circleAt_d, hy] at hd
      push_cast
      nlinarith
  have hboth : circleY r n = r - 2 ∧
      2 * ((n : ℤ) + 1) ^ 2 + (r - 2) ^ 2 + (r - 3) ^ 2 < 2 * r ^ 2 := by
    induction n, hkn using Nat.le_induction with
    | base => exact ⟨hlevel, hnext k hrow hlevel⟩
    | succ n _ ih =>
      obtain ⟨hy, hclose⟩ := ih (by omega)
      have hy' : circleY r (n + 1) = r - 2 := by
        by_contra hne
        have hdown : circleY r (n + 1) = r - 3 := by
          rw [circleY_succ] at hne ⊢
          split_ifs at hne ⊢ <;> omega
        have hlower := (h.best hn).lower (by omega)
        rw [hdown] at hlower
        push_cast at hlower
        linarith
      exact ⟨hy', hnext n hy hy'⟩
  exact hboth.1

/-- What there is between the square roots of `3 * R` and `5 * R`. -/
theorem sqrt_columns {R : ℕ} (hR : 22 ≤ R) :
    2 * (Nat.sqrt (3 * R) + 2) ^ 2 + 13 < 10 * R ∧ 2 * (Nat.sqrt (5 * R) + 1) ≤ R ∧
      Nat.sqrt (3 * R) < Nat.sqrt (5 * R) := by
  have hslo : Nat.sqrt (3 * R) * Nat.sqrt (3 * R) ≤ 3 * R := Nat.sqrt_le (3 * R)
  have htlo : Nat.sqrt (5 * R) * Nat.sqrt (5 * R) ≤ 5 * R := Nat.sqrt_le (5 * R)
  have hthi : 5 * R < (Nat.sqrt (5 * R) + 1) * (Nat.sqrt (5 * R) + 1) := Nat.lt_succ_sqrt (5 * R)
  generalize Nat.sqrt (3 * R) = s at hslo ⊢
  generalize Nat.sqrt (5 * R) = t at htlo hthi ⊢
  refine ⟨?_, ?_, ?_⟩
  · have hs : 8 * s + 21 < 4 * R := by
      rcases Nat.lt_or_ge s 8 with hs | hs
      · omega
      · have hsq : 8 * s ≤ s * s := Nat.mul_le_mul_right s hs
        omega
    have hsq : (s + 2) ^ 2 = s * s + 4 * s + 4 := by ring
    omega
  · rcases Nat.lt_or_ge t 11 with ht | ht
    · omega
    · have hsq : 11 * t ≤ t * t := Nat.mul_le_mul_right t ht
      omega
  · by_contra hle
    have hsq : (t + 1) * (t + 1) ≤ (s + 1) * (s + 1) :=
      Nat.mul_le_mul (by omega) (by omega)
    have hsum : (s + 1) * (s + 1) = s * s + 2 * s + 1 := by ring
    have hprod : 22 * s ≤ s * s := Nat.mul_le_mul_right s (by omega)
    omega

theorem not_round_of_large {R : ℕ} (hR : 22 ≤ R) : ¬ AsRoundAsTheGrid R := by
  intro h
  -- the circle is two below the top in the columns `s + 1` and `s + 2`, and lower in column `t + 1`
  obtain ⟨hsmall, hhalf, hst⟩ := sqrt_columns hR
  have hshi : 3 * R < (Nat.sqrt (3 * R) + 1) ^ 2 := Nat.lt_succ_sqrt' (3 * R)
  have hthi : 5 * R < (Nat.sqrt (5 * R) + 1) ^ 2 := Nat.lt_succ_sqrt' (5 * R)
  generalize Nat.sqrt (3 * R) = s at hsmall hst hshi
  generalize Nat.sqrt (5 * R) = t at hhalf hst hthi
  have hmono : (s + 1) ^ 2 ≤ (s + 2) ^ 2 := Nat.pow_le_pow_left (Nat.le_succ (s + 1)) 2
  have hrow : ∀ n : ℕ, 2 * n ≤ R → 6 * (R : ℤ) - 5 < 2 * (n : ℤ) ^ 2 →
      2 * (n : ℤ) ^ 2 < 10 * R - 13 → circleY R n = R - 2 := by
    intro n hn hlo hhi
    have hy := (circleY_bounds R n).1
    exact (h.best (by omega)).secondRow (by omega) hlo hhi
  zify at hshi hthi hsmall hmono
  have hfirst : circleY R (s + 1) = R - 2 :=
    hrow (s + 1) (by omega) (by push_cast; linarith) (by push_cast; linarith)
  have hsecond : circleY R (s + 2) = R - 2 :=
    hrow (s + 2) (by omega) (by push_cast; linarith) (by push_cast; linarith)
  have hlast : circleY R (t + 1) = R - 2 :=
    h.level_forever (by omega) hfirst hsecond (by omega) (by omega)
  have hupper := (h.best (show 2 * ((t + 1 : ℕ) : ℤ) ≤ R by omega)).upper (by omega)
  rw [hlast] at hupper
  push_cast at hupper
  linarith

/-- A radius for which the loop has been run through. -/
theorem asRound_iff_of_run {fuel : ℕ} {offsets : List (ℤ × ℤ)}
    (hrun : iterate circleRound fuel (circleStart r) = some offsets) : AsRoundAsTheGrid r ↔
      ∀ p ∈ offsets, 0 ≤ p.1 → p.1 ≤ p.2 → BestInColumn r p.1 p.2 := by
  have hoffsets : CircleOffsets r offsets := ⟨fuel, hrun⟩
  constructor
  · rintro ⟨offsets', hoffsets', hbest⟩
    rwa [hoffsets.unique hoffsets']
  · exact fun hbest => ⟨offsets, hoffsets, hbest⟩

theorem small_circles : ∀ R : Fin 22, (iterate circleRound 30 (circleStart (R : ℕ))).map
    (fun offsets => decide (∀ p ∈ offsets, 0 ≤ p.1 → p.1 ≤ p.2 →
      BestInColumn (R : ℕ) p.1 p.2)) = some (decide ((R : ℕ) ≤ 4)) := by
  decide +kernel

theorem asRound_iff_of_small {R : ℕ} (hR : R < 22) : AsRoundAsTheGrid R ↔ R ≤ 4 := by
  obtain ⟨offsets, hrun, hbest⟩ := Option.map_eq_some_iff.mp (small_circles ⟨R, hR⟩)
  rw [asRound_iff_of_run hrun]
  exact decide_eq_decide.mp hbest

/-- The circles of a radius of at most 4 are as round as the grid allows, and no others. -/
theorem asRoundAsTheGrid_iff (radius : ℤ) : AsRoundAsTheGrid radius ↔ radius ≤ 4 := by
  rcases Int.lt_or_le radius 0 with hneg | hpos
  · have hrun : iterate circleRound 1 (circleStart radius) = some [(0, radius)] := by
      have hstop : ¬ radius ≥ 0 := by omega
      simp [iterate, circleRound, circleStart, hstop]
    rw [asRound_iff_of_run hrun]
    refine ⟨fun _ => by omega, ?_⟩
    intro _ p hp hx hy
    rw [List.mem_singleton.mp hp] at hx hy
    dsimp only at hx hy
    omega
  · obtain ⟨R, rfl⟩ := Int.eq_ofNat_of_zero_le hpos
    rcases Nat.lt_or_ge R 22 with hsmall | hlarge
    · have hiff := asRound_iff_of_small hsmall
      constructor
      · intro h
        have hle := hiff.mp h
        omega
      · exact fun h => hiff.mpr (by omega)
    · refine ⟨fun h => absurd h (not_round_of_large hlarge), fun h => ?_⟩
      omega

/-- With radius 5, the offset `(2, 4)` is passed, but `(2, 5)` is closer to the circle. -/
theorem circle_flat : ¬ AsRoundAsTheGrid 5 := by
  intro h
  exact absurd ((asRound_iff_of_small (R := 5) (by decide)).mp h) (by decide)

end KnutOS
