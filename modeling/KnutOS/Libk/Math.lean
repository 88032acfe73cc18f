import Mathlib

/-! Exponentiation by squaring (`libk/math/math.c`), in 32-bit arithmetic that wraps around. -/
namespace KnutOS

/-- The `while` loop. The result is what it leaves in `base` and `temp`. -/
def powLoop (base temp : BitVec 32) (exponent : ℕ) : BitVec 32 × BitVec 32 :=
  if 1 < exponent then
    if exponent % 2 = 0 then powLoop (base * base) temp (exponent / 2)
    else powLoop (base * base) (base * temp) ((exponent - 1) / 2)
  else (base, temp)
termination_by exponent

def pow (base : BitVec 32) (exponent : ℤ) : BitVec 32 :=
  if exponent = 0 then 1#32
  else
    let base := if exponent < 0 then (1#32).sdiv base else base
    let (base, temp) := powLoop base 1#32 exponent.natAbs
    base * temp

/-- The loop keeps `base ^ exponent * temp`. -/
theorem powLoop_eq (base temp : BitVec 32) {exponent : ℕ} (h : 1 ≤ exponent) :
    (powLoop base temp exponent).1 * (powLoop base temp exponent).2 = base ^ exponent * temp := by
  induction base, temp, exponent using powLoop.induct with
  | case1 base temp exponent hlt heven ih =>
    have he : exponent = 2 * (exponent / 2) := by omega
    rw [powLoop, if_pos hlt, if_pos heven, ih (by omega)]
    nth_rewrite 2 [he]
    rw [pow_mul, pow_two]
  | case2 base temp exponent hlt hodd ih =>
    have he : exponent = 2 * ((exponent - 1) / 2) + 1 := by omega
    rw [powLoop, if_pos hlt, if_neg hodd, ih (by omega)]
    nth_rewrite 2 [he]
    rw [pow_succ, pow_mul, pow_two]
    ring
  | case3 base temp exponent hle =>
    obtain rfl : exponent = 1 := by omega
    rw [powLoop, if_neg hle, pow_one]

/-- For exponents that are not negative, `pow` is the power modulo `2 ^ 32`. -/
theorem pow_natCast (base : BitVec 32) (n : ℕ) : pow base n = base ^ n := by
  by_cases hn : n = 0
  · subst hn
    rfl
  · have hne : (n : ℤ) ≠ 0 := by omega
    have hneg : ¬ (n : ℤ) < 0 := by omega
    simp only [pow, hne, hneg, if_false, Int.natAbs_natCast]
    rw [powLoop_eq base 1#32 (by omega)]
    exact mul_one _

/-! Where the wrap-around does not come in. -/

/-- A product of two `int32_t`. `none` is a signed overflow, which C leaves undefined. -/
def mulInt32 (a b : ℤ) : Option ℤ :=
  if -2 ^ 31 ≤ a * b ∧ a * b < 2 ^ 31 then some (a * b) else none

/-- The `while` loop as C defines it. -/
def powLoopDefined (base temp : ℤ) (exponent : ℕ) : Option (ℤ × ℤ) :=
  if 1 < exponent then
    if exponent % 2 = 0 then do
      let base ← mulInt32 base base
      powLoopDefined base temp (exponent / 2)
    else do
      let temp ← mulInt32 base temp
      let base ← mulInt32 base base
      powLoopDefined base temp ((exponent - 1) / 2)
  else some (base, temp)
termination_by exponent

/-- `pow` as C defines it: there is no division by 0 and no `-INT_MIN` either. -/
def powDefined (base exponent : ℤ) : Option ℤ :=
  if exponent = 0 then some 1
  else if exponent < 0 ∧ (base = 0 ∨ exponent ≤ -2 ^ 31) then none
  else do
    let base := if exponent < 0 then Int.tdiv 1 base else base
    let (base, temp) ← powLoopDefined base 1 exponent.natAbs
    mulInt32 base temp

variable {base temp : ℤ} {exponent : ℕ}

theorem mulInt32_eq {a b : ℤ} (h : |a * b| < 2 ^ 31) : mulInt32 a b = some (a * b) := by
  obtain ⟨hlo, hhi⟩ := abs_lt.mp h
  exact if_pos ⟨hlo.le, hhi⟩

/-- What is left to compute is small, and so is every factor of it, unless `base` is 0. -/
def PowSmall (base temp : ℤ) (exponent : ℕ) : Prop :=
  base = 0 ∨ temp ≠ 0 ∧ |base ^ exponent * temp| < 2 ^ 31

/-- A factor of a number that is not 0 is no larger. -/
theorem abs_lt_of_dvd {a b : ℤ} (hdvd : a ∣ b) (hb : b ≠ 0) (h : |b| < 2 ^ 31) : |a| < 2 ^ 31 := by
  have hle := Int.le_of_dvd (abs_pos.mpr hb) ((abs_dvd_abs a b).mpr hdvd)
  exact lt_of_le_of_lt hle h

theorem PowSmall.mul (h : PowSmall base temp exponent) {a b : ℤ} (h0 : base = 0 → a * b = 0)
    (hdvd : a * b ∣ base ^ exponent * temp) : mulInt32 a b = some (a * b) := by
  apply mulInt32_eq
  rcases h with rfl | ⟨htemp, hsmall⟩
  · rw [h0 rfl]
    decide
  · by_cases hbase : base = 0
    · rw [h0 hbase]
      decide
    · exact abs_lt_of_dvd hdvd (mul_ne_zero (pow_ne_zero _ hbase) htemp) hsmall

/-- No product of the loop overflows. -/
theorem powLoopDefined_eq (h : PowSmall base temp exponent) (he : 1 ≤ exponent) :
    ∃ b t, powLoopDefined base temp exponent = some (b, t) ∧
      mulInt32 b t = some (base ^ exponent * temp) := by
  induction base, temp, exponent using powLoopDefined.induct with
  | case1 base temp exponent hlt heven ih =>
    have hexp : exponent = 2 * (exponent / 2) := by omega
    have hpow : (base * base) ^ (exponent / 2) = base ^ exponent := by
      nth_rewrite 2 [hexp]
      rw [pow_mul, pow_two]
    have hsquare : mulInt32 base base = some (base * base) := by
      refine h.mul (by rintro rfl; rfl) ?_
      rw [← hpow]
      exact dvd_mul_of_dvd_left (dvd_pow_self _ (by omega)) temp
    have hnext : PowSmall (base * base) temp (exponent / 2) := by
      rcases h with rfl | ⟨htemp, hsmall⟩
      · exact .inl rfl
      · exact .inr ⟨htemp, by rwa [hpow]⟩
    obtain ⟨b, t, hloop, hresult⟩ := ih _ hnext (by omega)
    refine ⟨b, t, ?_, by rwa [hpow] at hresult⟩
    rw [powLoopDefined, if_pos hlt, if_pos heven, hsquare]
    exact hloop
  | case2 base temp exponent hlt hodd ih =>
    have hexp : exponent = 2 * ((exponent - 1) / 2) + 1 := by omega
    have hpow : (base * base) ^ ((exponent - 1) / 2) * (base * temp) = base ^ exponent * temp := by
      nth_rewrite 2 [hexp]
      rw [pow_succ, pow_mul, pow_two]
      ring
    have htemp : mulInt32 base temp = some (base * temp) := by
      refine h.mul (by rintro rfl; exact zero_mul temp) ?_
      exact mul_dvd_mul_right (dvd_pow_self _ (by omega)) temp
    have hsquare : mulInt32 base base = some (base * base) := by
      refine h.mul (by rintro rfl; rfl) ?_
      rw [← hpow]
      exact dvd_mul_of_dvd_left (dvd_pow_self _ (by omega)) _
    have hnext : PowSmall (base * base) (base * temp) ((exponent - 1) / 2) := by
      rcases h with rfl | ⟨hne, hsmall⟩
      · exact .inl rfl
      · by_cases hbase : base = 0
        · exact .inl (by rw [hbase]; rfl)
        · exact .inr ⟨mul_ne_zero hbase hne, by rwa [hpow]⟩
    obtain ⟨b, t, hloop, hresult⟩ := ih _ _ hnext (by omega)
    refine ⟨b, t, ?_, by rwa [hpow] at hresult⟩
    rw [powLoopDefined, if_pos hlt, if_neg hodd, htemp, hsquare]
    exact hloop
  | case3 base temp exponent hle =>
    obtain rfl : exponent = 1 := by omega
    refine ⟨base, temp, by rw [powLoopDefined, if_neg hle], ?_⟩
    rw [pow_one]
    exact h.mul (by rintro rfl; exact zero_mul temp) (by rw [pow_one])

/-- As long as the power fits, so does every product on the way to it. -/
theorem powDefined_eq {n : ℕ} (h : |base ^ n| < 2 ^ 31) : powDefined base n = some (base ^ n) := by
  by_cases hn : n = 0
  · subst hn
    rw [powDefined, if_pos Nat.cast_zero, pow_zero]
  · have hne : (n : ℤ) ≠ 0 := by omega
    have hneg : ¬ (n : ℤ) < 0 := by omega
    have hsmall : PowSmall base 1 n := .inr ⟨one_ne_zero, by rwa [mul_one]⟩
    obtain ⟨b, t, hloop, hresult⟩ := powLoopDefined_eq hsmall (by omega)
    simp only [powDefined, hne, hneg, false_and, if_false, Int.natAbs_natCast, hloop]
    rwa [mul_one] at hresult

theorem ofInt_pow (i : ℤ) (n : ℕ) : BitVec.ofInt 32 (i ^ n) = BitVec.ofInt 32 i ^ n := by
  induction n with
  | zero =>
    rw [pow_zero, pow_zero]
    rfl
  | succ n ih => rw [pow_succ, pow_succ, BitVec.ofInt_mul, ih]

/-- `pow` is the power modulo `2 ^ 32`, and never overflows on the way to one that fits. -/
theorem pow_exact (base : BitVec 32) (n : ℕ) :
    pow base n = BitVec.ofInt 32 (base.toInt ^ n) ∧
      (|base.toInt ^ n| < 2 ^ 31 → powDefined base.toInt n = some (base.toInt ^ n)) := by
  refine ⟨?_, powDefined_eq⟩
  rw [pow_natCast, ofInt_pow, BitVec.ofInt_toInt]

theorem pow_exact_cube : powDefined (-5#32).toInt 3 = some ((-5#32).toInt ^ 3) :=
  (pow_exact (-5#32) 3).2 (by decide)

end KnutOS
