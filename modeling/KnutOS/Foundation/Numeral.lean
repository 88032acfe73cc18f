import Mathlib.Data.Nat.Digits.Lemmas

/-! Numerals in some base, written with the most significant digit first. -/
namespace Foundation

variable {b m n i d : ℕ} {ds es : List ℕ}

/-- Reading on from `i`. -/
def horner (b i : ℕ) (ds : List ℕ) : ℕ := ds.foldl (fun v d => v * b + d) i

@[simp] theorem horner_nil : horner b i [] = i := rfl

theorem horner_cons : horner b i (d :: ds) = horner b (i * b + d) ds := rfl

theorem horner_append : horner b i (ds ++ es) = horner b (horner b i ds) es := List.foldl_append

/-- Reading in a machine word. -/
theorem foldl_mod (b m i : ℕ) (ds : List ℕ) :
    ds.foldl (fun v d => (v * b + d) % m) (i % m) = horner b i ds % m := by
  induction ds generalizing i with
  | nil => rfl
  | cons d ds ih =>
    rw [List.foldl_cons, horner_cons, ← ih]
    congr 1
    rw [Nat.add_mod, Nat.mod_mul_mod, ← Nat.add_mod]

theorem horner_eq_ofDigits : horner b 0 ds = Nat.ofDigits b ds.reverse := by
  induction ds using List.reverseRecOn with
  | nil => rfl
  | append_singleton ds d ih =>
    rw [horner_append, horner_cons, horner_nil, ih, List.reverse_append, List.reverse_singleton,
      List.singleton_append, Nat.ofDigits_cons, Nat.mul_comm, Nat.add_comm]

/-- The usual numeral, with a single zero for zero. -/
def numeral (b n : ℕ) : List ℕ := if n = 0 then [0] else (Nat.digits b n).reverse

theorem horner_numeral (b n : ℕ) : horner b 0 (numeral b n) = n := by
  rw [horner_eq_ofDigits, numeral]
  split
  case isTrue h => simp [h]
  case isFalse h => rw [List.reverse_reverse, Nat.ofDigits_digits]

theorem numeral_ne_nil (b n : ℕ) : numeral b n ≠ [] := by
  rw [numeral]
  split
  case isTrue h => exact List.cons_ne_nil 0 []
  case isFalse h => exact mt List.reverse_eq_nil_iff.mp (Nat.digits_ne_nil_iff_ne_zero.mpr h)

theorem lt_of_mem_numeral (hb : 1 < b) (hd : d ∈ numeral b n) : d < b := by
  rw [numeral] at hd
  split at hd
  case isTrue h =>
    obtain rfl := List.mem_singleton.mp hd
    omega
  case isFalse h => exact Nat.digits_lt_base hb (List.mem_reverse.mp hd)

/-- The digits from the lowest on, at least one, and no more than there is room for. -/
def lowDigits (b : ℕ) : ℕ → ℕ → List ℕ
  | 0, _ => []
  | room + 1, n => (n % b) :: if n / b ≠ 0 then lowDigits b room (n / b) else []

theorem lowDigits_eq_take (hb : 1 < b) (room n : ℕ) :
    lowDigits b room n = (numeral b n).reverse.take room := by
  induction room generalizing n with
  | zero => rfl
  | succ room ih =>
    have hdigits : n ≠ 0 → Nat.digits b n = n % b :: Nat.digits b (n / b) :=
      fun hn => Nat.digits_def' hb (Nat.pos_of_ne_zero hn)
    by_cases hn : n = 0
    · simp [lowDigits, numeral, hn]
    · rw [lowDigits, numeral, if_neg hn, List.reverse_reverse, hdigits hn, List.take_succ_cons]
      by_cases hq : n / b = 0
      · simp [hq]
      · rw [if_pos hq, ih, numeral, if_neg hq, List.reverse_reverse]

end Foundation
