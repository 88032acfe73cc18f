import Mathlib.Data.List.Basic
import Mathlib.Logic.Function.Iterate
import Mathlib.Data.Set.Function
import Mathlib.Order.Interval.Set.Defs

/-! Characters written one after the other, each to the next index of what they are written to. -/
namespace Foundation

/-- What is written to, and how much has been written. -/
structure Sink (σ : Type*) where
  target : σ
  idx : ℕ

namespace Sink

variable {α σ : Type*} {write : α → ℕ → σ → σ} {s : Sink σ} {as bs : List α} {a : α} {n : ℕ}

def put (write : α → ℕ → σ → σ) (s : Sink σ) (a : α) : Sink σ := ⟨write a s.idx s.target, s.idx + 1⟩

def emit (write : α → ℕ → σ → σ) (s : Sink σ) (as : List α) : Sink σ := as.foldl (put write) s

@[simp] theorem emit_nil : s.emit write [] = s := rfl

theorem emit_cons : s.emit write (a :: as) = (s.put write a).emit write as := rfl

@[simp] theorem emit_append : s.emit write (as ++ bs) = (s.emit write as).emit write bs :=
  List.foldl_append

theorem put_eq_emit : s.put write a = s.emit write [a] := rfl

@[simp] theorem put_idx : (s.put write a).idx = s.idx + 1 := rfl

@[simp] theorem emit_idx : (s.emit write as).idx = s.idx + as.length := by
  induction as generalizing s with
  | nil => rfl
  | cons a as ih =>
    rw [emit_cons, ih, put_idx, List.length_cons]
    omega

/-- The same character, some number of times. -/
theorem iterate_put : (fun s => put write s a)^[n] s = s.emit write (List.replicate n a) := by
  induction n generalizing s with
  | zero => rfl
  | succ n ih => rw [Function.iterate_succ_apply, ih, List.replicate_succ, emit_cons]

/-- A list written from its end. -/
theorem foldr_put : as.foldr (fun a s => put write s a) s = s.emit write as.reverse := by
  rw [emit, List.foldl_reverse]

end Sink

/-! A writer that keeps to a window: what has an index below `n` goes to its place. -/

section

variable {α κ : Type*} [DecidableEq κ] {place : ℕ → κ} {n : ℕ} {s : Sink (κ → α)} {as : List α}
  {a : α} {i : ℕ} {x : κ}

def writeBelow (place : ℕ → κ) (n : ℕ) (a : α) (i : ℕ) (m : κ → α) : κ → α :=
  if i < n then Function.update m (place i) a else m

/-- Only the places of the next indices are written, and of these only the ones in the window. -/
theorem emit_writeBelow_of_ne
    (hx : ∀ i, s.idx ≤ i → i < s.idx + as.length → i < n → x ≠ place i) :
    (s.emit (writeBelow place n) as).target x = s.target x := by
  induction as generalizing s with
  | nil => rfl
  | cons a as ih =>
    rw [List.length_cons] at hx
    have hlater : ∀ i, (s.put (writeBelow place n) a).idx ≤ i →
        i < (s.put (writeBelow place n) a).idx + as.length → i < n → x ≠ place i := by
      intro i hi hlt hn
      rw [Sink.put_idx] at hi hlt
      exact hx i (by omega) (by omega) hn
    rw [Sink.emit_cons, ih hlater]
    by_cases hlt : s.idx < n
    · simp only [Sink.put, writeBelow, if_pos hlt]
      exact Function.update_of_ne (hx s.idx le_rfl (by omega) hlt) a s.target
    · simp only [Sink.put, writeBelow, if_neg hlt]

/-- In the window, the characters are found where they have been put. -/
theorem emit_writeBelow_at (hinj : Set.InjOn place (Set.Iio n)) (hi : i < as.length)
    (hn : s.idx + i < n) :
    (s.emit (writeBelow place n) as).target (place (s.idx + i)) = as[i] := by
  induction as generalizing s i with
  | nil => cases hi
  | cons a as ih =>
    rw [Sink.emit_cons]
    cases i with
    | zero =>
      have hlt : s.idx < n := hn
      have hlater : ∀ j, s.idx + 1 ≤ j → j < s.idx + 1 + as.length → j < n →
          place s.idx ≠ place j := by
        intro j hj _ hjn heq
        have := hinj hlt hjn heq
        omega
      rw [Nat.add_zero, emit_writeBelow_of_ne (s := s.put (writeBelow place n) a) hlater]
      simp only [Sink.put, writeBelow, if_pos hlt, Function.update_self, List.getElem_cons_zero]
    | succ i =>
      have hput : (s.put (writeBelow place n) a).idx + i = s.idx + (i + 1) := by
        rw [Sink.put_idx]
        omega
      have hlt : i < as.length := by simpa using hi
      rw [← hput, ih hlt (by omega), List.getElem_cons_succ]

end

end Foundation
