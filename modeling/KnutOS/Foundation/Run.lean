import Mathlib.Data.List.Basic

/-! Finite runs of a labelled step relation. Nothing here depends on what the steps do. -/
namespace Foundation

variable {S A : Type*} {step step' : S → A → S → Prop} {s t u : S} {a : A} {xs ys : List A}

/-- `Run step s xs t`: the actions `xs`, taken one after the other, lead from `s` to `t`. -/
inductive Run (step : S → A → S → Prop) : S → List A → S → Prop
  | refl (s : S) : Run step s [] s
  | stepL {s u t : S} {a : A} {xs : List A} :
      step s a u → Run step u xs t → Run step s (a :: xs) t

theorem Run.append (h : Run step s xs t) (h' : Run step t ys u) : Run step s (xs ++ ys) u := by
  induction h with
  | refl => exact h'
  | stepL hs _ ih => exact .stepL hs (ih h')

/-- The induction rule for invariants: what holds at the start and is kept by a step holds
at the end of every run. -/
theorem Run.invariant {P : S → Prop} (h : Run step s xs t) (hs : P s)
    (hstep : ∀ s a t, P s → step s a t → P t) : P t := by
  induction h with
  | refl => exact hs
  | stepL hst _ ih => exact ih (hstep _ _ _ hs hst)

/-- Steps may be replaced along a run, using an invariant of the replaced steps. -/
theorem Run.mono_of_invariant {P : S → Prop} (h : Run step s xs t) (hs : P s)
    (hstep : ∀ s a t, P s → step s a t → P t)
    (hsub : ∀ s a t, P s → step s a t → step' s a t) : Run step' s xs t := by
  induction h with
  | refl => exact .refl _
  | stepL hst _ ih => exact .stepL (hsub _ _ _ hs hst) (ih (hstep _ _ _ hs hst))

theorem Run.mono (h : Run step s xs t) (hsub : ∀ s a t, step s a t → step' s a t) :
    Run step' s xs t :=
  h.mono_of_invariant (P := fun _ => True) trivial (fun _ _ _ _ _ => trivial)
    (fun s a t _ => hsub s a t)

end Foundation
