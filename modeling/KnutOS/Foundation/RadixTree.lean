import Mathlib

/-! A radix tree laid out in tables. Table `t` holds an entry for every index `i`, and an entry
may name a child table. A lookup follows a list of indices from the root and ends at the last
index, or at the first entry before it that names no child. -/
namespace Foundation.RadixTree

variable {F I E : Type*} [DecidableEq F] [DecidableEq I]

/-- One entry is overwritten. -/
def write (m : F → I → E) (t : F) (i : I) (e : E) : F → I → E :=
  Function.update m t (Function.update (m t) i e)

variable (child : E → Option F)

/-- The table that the indices lead to. -/
def tableAt (m : F → I → E) (t : F) : List I → Option F
  | [] => some t
  | i :: is => (child (m t i)).bind fun u => tableAt m u is

/-- The entry a lookup ends at, and the number of indices it did not use. -/
def lookup (m : F → I → E) (t : F) : List I → Option (ℕ × E)
  | [] => none
  | [i] => some (0, m t i)
  | i :: j :: is =>
    match child (m t i) with
    | some u => lookup m u (j :: is)
    | none => some (is.length + 1, m t i)

/-- The entries that a lookup reads, from the root down. -/
def trail (m : F → I → E) (t : F) : List I → List E
  | [] => []
  | i :: is =>
    m t i :: match child (m t i) with
      | some u => trail m u is
      | none => []

/-- How many of the tables on the way are missing. -/
def missing (m : F → I → E) (t : F) : List I → ℕ
  | [] => 0
  | i :: is =>
    match child (m t i) with
    | some u => missing m u is
    | none => is.length + 1

/-- The tables at depths below `n` are all different. -/
def Unshared (m : F → I → E) (root : F) (n : ℕ) : Prop :=
  ∀ p q t, p.length < n → q.length < n → tableAt child m root p = some t →
    tableAt child m root q = some t → p = q

/-- Table `t` is one of the tables at depths below `n`. -/
def Reached (m : F → I → E) (root : F) (n : ℕ) (t : F) : Prop :=
  ∃ p : List I, p.length < n ∧ tableAt child m root p = some t

variable {child} {m : F → I → E} {root s t u f : F} {i j k : I} {e : E} {p q r : List I} {n : ℕ}

omit [DecidableEq F] [DecidableEq I] in
theorem tableAt_append (h : tableAt child m s p = some t) :
    tableAt child m s (p ++ q) = tableAt child m t q := by
  induction p generalizing s with
  | nil =>
    cases h
    rfl
  | cons i p ih =>
    obtain ⟨u, hu, h⟩ := Option.bind_eq_some_iff.mp h
    simp only [List.cons_append, tableAt, hu, Option.bind_some]
    exact ih h

omit [DecidableEq F] [DecidableEq I] in
theorem tableAt_append_none (h : tableAt child m s p = none) : tableAt child m s (p ++ q) = none := by
  induction p generalizing s with
  | nil => cases h
  | cons i p ih =>
    simp only [List.cons_append, tableAt, Option.bind_eq_none_iff] at h ⊢
    intro u hu
    exact ih (h u hu)

omit [DecidableEq F] [DecidableEq I] in
theorem lookup_append (h : tableAt child m s p = some t) (hq : q ≠ []) :
    lookup child m s (p ++ q) = lookup child m t q := by
  induction p generalizing s with
  | nil =>
    cases h
    rfl
  | cons i p ih =>
    obtain ⟨u, hu, h⟩ := Option.bind_eq_some_iff.mp h
    obtain ⟨j, r, hr⟩ := List.exists_cons_of_ne_nil (List.append_ne_nil_of_right_ne_nil p hq)
    rw [← ih h, List.cons_append, hr]
    simp only [lookup, hu]

omit [DecidableEq F] [DecidableEq I] in
/-- A table without children is the whole tree. -/
theorem tableAt_childless (h : ∀ i, child (m s i) = none) (ht : tableAt child m s p = some t) :
    p = [] ∧ t = s := by
  cases p with
  | nil => exact ⟨rfl, (Option.some.inj ht).symm⟩
  | cons i p => simp [tableAt, h i] at ht

omit [DecidableEq F] [DecidableEq I] in
/-- Where no table is, the lookup ends at an entry without a child on the way there. -/
theorem lookup_of_tableAt_none (h : tableAt child m s q = none) (k : I) :
    ∃ p t i r, q = p ++ i :: r ∧ tableAt child m s p = some t ∧ child (m t i) = none ∧
      lookup child m s (q ++ [k]) = some (r.length + 1, m t i) ∧
      missing child m s q = r.length + 1 := by
  induction q generalizing s with
  | nil => cases h
  | cons i q ih =>
    cases hc : child (m s i) with
    | none =>
      refine ⟨[], s, i, q, rfl, rfl, hc, ?_, by simp [missing, hc]⟩
      cases q <;> simp [lookup, hc]
    | some u =>
      simp only [tableAt, hc, Option.bind_some] at h
      obtain ⟨p, t, j, r, rfl, hp, hj, hl, hm⟩ := ih h
      refine ⟨i :: p, t, j, r, rfl, by simp [tableAt, hc, hp], hj, ?_, by simp [missing, hc, hm]⟩
      have hu : tableAt child m s [i] = some u := by simp [tableAt, hc]
      have := lookup_append (q := (p ++ j :: r) ++ [k]) hu (by simp)
      rw [← hl, ← this]
      simp

omit [DecidableEq F] [DecidableEq I] in
theorem missing_eq_zero_iff : missing child m s q = 0 ↔ ∃ t, tableAt child m s q = some t := by
  induction q generalizing s with
  | nil => simp [missing, tableAt]
  | cons i q ih =>
    cases hc : child (m s i) with
    | none => simp [missing, tableAt, hc]
    | some u => simpa [missing, tableAt, hc] using ih

omit [DecidableEq F] [DecidableEq I] in
theorem missing_childless (h : ∀ i, child (m s i) = none) : missing child m s q = q.length := by
  cases q with
  | nil => rfl
  | cons i q => simp [missing, h i]

omit [DecidableEq F] [DecidableEq I] in
/-- A reader that follows more entries finds at least the same tables. -/
theorem tableAt_mono {child' : E → Option F} (h : ∀ e f, child e = some f → child' e = some f)
    (hs : tableAt child m s p = some t) : tableAt child' m s p = some t := by
  induction p generalizing s with
  | nil => exact hs
  | cons i p ih =>
    obtain ⟨u, hu, hs⟩ := Option.bind_eq_some_iff.mp hs
    exact Option.bind_eq_some_iff.mpr ⟨u, h _ u hu, ih hs⟩

/-! The entries on the way. -/

omit [DecidableEq F] [DecidableEq I] in
theorem trail_append (h : tableAt child m s p = some t) :
    trail child m s (p ++ q) = trail child m s p ++ trail child m t q := by
  induction p generalizing s with
  | nil =>
    cases h
    rfl
  | cons i p ih =>
    obtain ⟨u, hu, h⟩ := Option.bind_eq_some_iff.mp h
    simp only [List.cons_append, trail, hu, ih h]

omit [DecidableEq F] [DecidableEq I] in
/-- What a lookup reads are entries of the tables on its path. -/
theorem mem_trail (he : e ∈ trail child m s q) :
    ∃ p i r t, q = p ++ i :: r ∧ tableAt child m s p = some t ∧ e = m t i := by
  induction q generalizing s with
  | nil => cases he
  | cons i q ih =>
    simp only [trail, List.mem_cons] at he
    cases hu : child (m s i) with
    | none =>
      simp only [hu, List.not_mem_nil, or_false] at he
      exact ⟨[], i, q, s, rfl, rfl, he⟩
    | some u =>
      simp only [hu] at he
      rcases he with rfl | he
      · exact ⟨[], i, q, s, rfl, rfl, rfl⟩
      · obtain ⟨p, j, r, t, rfl, hp, rfl⟩ := ih he
        exact ⟨i :: p, j, r, t, rfl, by simp [tableAt, hu, hp], rfl⟩

omit [DecidableEq F] [DecidableEq I] in
theorem mem_trail_childless (h : ∀ i, child (m s i) = none) (he : e ∈ trail child m s q) :
    ∃ i, e = m s i := by
  obtain ⟨p, i, r, t, _, hp, rfl⟩ := mem_trail he
  obtain ⟨_, rfl⟩ := tableAt_childless h hp
  exact ⟨i, rfl⟩

omit [DecidableEq F] [DecidableEq I] in
/-- If every entry with a child stays, so do the tables that are in place and the way there. -/
theorem trail_of_kept {m' : F → I → E} (h : ∀ s i u, child (m s i) = some u → m' s i = m s i)
    (hs : tableAt child m s q = some t) :
    tableAt child m' s q = some t ∧ trail child m' s q = trail child m s q := by
  induction q generalizing s with
  | nil => exact ⟨hs, rfl⟩
  | cons i q ih =>
    obtain ⟨u, hu, hs⟩ := Option.bind_eq_some_iff.mp hs
    obtain ⟨htab, htrail⟩ := ih hs
    simp only [tableAt, trail, h s i u hu, hu, Option.bind_some]
    exact ⟨htab, by rw [htrail]⟩

/-! A tree of which some links are cut. -/

section cut

variable {m' : F → I → E} (h : ∀ s i u, child (m' s i) = some u → child (m s i) = some u)
include h

omit [DecidableEq F] [DecidableEq I] in
theorem tableAt_of_cut (hs : tableAt child m' s p = some t) : tableAt child m s p = some t := by
  induction p generalizing s with
  | nil => exact hs
  | cons i p ih =>
    obtain ⟨u, hu, hs⟩ := Option.bind_eq_some_iff.mp hs
    exact Option.bind_eq_some_iff.mpr ⟨u, h s i u hu, ih hs⟩

omit [DecidableEq F] [DecidableEq I] in
theorem Unshared.of_cut (hu : Unshared child m root n) : Unshared child m' root n :=
  fun p q t hp hq hpt hqt => hu p q t hp hq (tableAt_of_cut h hpt) (tableAt_of_cut h hqt)

omit [DecidableEq F] [DecidableEq I] in
theorem Reached.of_cut (hr : Reached child m' root n t) : Reached child m root n t := by
  obtain ⟨p, hp, hpt⟩ := hr
  exact ⟨p, hp, tableAt_of_cut h hpt⟩

end cut

@[simp] theorem write_self : write m t i e t i = e := by
  simp [write]

theorem write_of_ne (h : ¬ (s = t ∧ j = i)) : write m t i e s j = m s j := by
  by_cases hs : s = t
  · subst hs
    have hj : j ≠ i := fun hj => h ⟨rfl, hj⟩
    simp [write, hj]
  · simp [write, hs]

theorem write_other (h : s ≠ t) : write m t i e s = m s := by
  simp [write, h]

/-- A path that does not pass through the overwritten entry leads to the same table. -/
theorem tableAt_write (h : ∀ p r, q = p ++ i :: r → tableAt child m s p ≠ some t) :
    tableAt child (write m t i e) s q = tableAt child m s q := by
  induction q generalizing s with
  | nil => rfl
  | cons j q ih =>
    have hne : ¬ (s = t ∧ j = i) := by
      rintro ⟨rfl, rfl⟩
      exact h [] q rfl rfl
    simp only [tableAt, write_of_ne hne]
    cases hu : child (m s j) with
    | none => rfl
    | some u =>
      refine ih fun p r hq hp => h (j :: p) r (by simp [hq]) ?_
      simp only [tableAt, hu, Option.bind_some, hp]

theorem lookup_write (h : ∀ p r, q = p ++ i :: r → tableAt child m s p ≠ some t) :
    lookup child (write m t i e) s q = lookup child m s q := by
  induction q generalizing s with
  | nil => rfl
  | cons j q ih =>
    have hne : ¬ (s = t ∧ j = i) := by
      rintro ⟨rfl, rfl⟩
      exact h [] q rfl rfl
    cases q with
    | nil => simp only [lookup, write_of_ne hne]
    | cons k q =>
      simp only [lookup, write_of_ne hne]
      cases hu : child (m s j) with
      | none => rfl
      | some u =>
        refine ih fun p r hq hp => h (j :: p) r (by simp [hq]) ?_
        simp only [tableAt, hu, Option.bind_some, hp]

theorem trail_write (h : ∀ p r, q = p ++ i :: r → tableAt child m s p ≠ some t) :
    trail child (write m t i e) s q = trail child m s q := by
  induction q generalizing s with
  | nil => rfl
  | cons j q ih =>
    have hne : ¬ (s = t ∧ j = i) := by
      rintro ⟨rfl, rfl⟩
      exact h [] q rfl rfl
    simp only [trail, write_of_ne hne]
    cases hu : child (m s j) with
    | none => rfl
    | some u =>
      refine congrArg (m s j :: ·) (ih fun p r hq hp => h (j :: p) r (by simp [hq]) ?_)
      simp only [tableAt, hu, Option.bind_some, hp]

/-! An entry without a child is overwritten by another one without a child: the tree stays, and
a lookup may end at the new entry in place of the old. -/

theorem tableAt_write_childless (h : child (m t i) = none) (he : child e = none) :
    tableAt child (write m t i e) s q = tableAt child m s q := by
  induction q generalizing s with
  | nil => rfl
  | cons j q ih =>
    by_cases hj : s = t ∧ j = i
    · obtain ⟨rfl, rfl⟩ := hj
      simp [tableAt, h, he]
    · simp only [tableAt, write_of_ne hj]
      exact Option.bind_congr fun u _ => ih

theorem lookup_write_childless (h : child (m t i) = none) (he : child e = none) :
    lookup child (write m t i e) s q = lookup child m s q ∨
      ∃ l, lookup child m s q = some (l, m t i) ∧
        lookup child (write m t i e) s q = some (l, e) := by
  induction q generalizing s with
  | nil => exact .inl rfl
  | cons j q ih =>
    by_cases hj : s = t ∧ j = i
    · obtain ⟨rfl, rfl⟩ := hj
      cases q with
      | nil => exact .inr ⟨0, by simp [lookup]⟩
      | cons k q => exact .inr ⟨q.length + 1, by simp [lookup, h, he]⟩
    · cases q with
      | nil => exact .inl (by simp only [lookup, write_of_ne hj])
      | cons k q =>
        simp only [lookup, write_of_ne hj]
        cases child (m s j) with
        | none => exact .inl rfl
        | some u => exact ih

/-! In an unshared tree, an entry lies on one path only. -/

omit [DecidableEq F] [DecidableEq I] in
theorem Unshared.prefix_eq (hu : Unshared child m root n) (hp : tableAt child m root p = some t)
    (hpn : p.length < n) (hq : q.length < n) (h : tableAt child m root q = some t) : q = p :=
  hu q p t hq hpn h hp

/-- Overwriting an entry of a table at the last level changes the lookup of its path only. -/
theorem lookup_write_leaf (hu : Unshared child m root n) (hp : tableAt child m root p = some t)
    (hpn : p.length + 1 = n) (hq : q.length = n) (hne : q ≠ p ++ [i]) :
    lookup child (write m t i e) root q = lookup child m root q := by
  apply lookup_write
  rintro p' r rfl hp'
  simp only [List.length_append, List.length_cons] at hq
  obtain rfl := hu.prefix_eq hp (by omega) (by omega) hp'
  have hr : r = [] := List.length_eq_zero_iff.mp (by omega)
  exact hne (by rw [hr])

theorem tableAt_write_leaf (hu : Unshared child m root n) (hp : tableAt child m root p = some t)
    (hpn : p.length + 1 = n) (hq : q.length < n) :
    tableAt child (write m t i e) root q = tableAt child m root q := by
  apply tableAt_write
  rintro p' r rfl hp'
  simp only [List.length_append, List.length_cons] at hq
  obtain rfl := hu.prefix_eq hp (by omega) (by omega) hp'
  omega

theorem lookup_write_leaf_self (hu : Unshared child m root n)
    (hp : tableAt child m root p = some t) (hpn : p.length + 1 = n) :
    lookup child (write m t i e) root (p ++ [i]) = some (0, e) := by
  have hp' : tableAt child (write m t i e) root p = some t := by
    rw [tableAt_write_leaf hu hp hpn (by omega), hp]
  rw [lookup_append hp' (by simp)]
  simp [lookup]

omit [DecidableEq F] [DecidableEq I] in
/-- A table outside the tree is none of its tables. -/
theorem ne_of_not_reached (hf : ¬ Reached child m root n f)
    (hp : tableAt child m root p = some t) (hpn : p.length < n) : f ≠ t := by
  rintro rfl
  exact hf ⟨p, hpn, hp⟩

/-! Linking a fresh table without children under an entry that had no child. -/

section link

variable (hu : Unshared child m root n) (hp : tableAt child m root p = some t)
  (hpn : p.length + 1 < n) (he : child e = some f) (hf : ¬ Reached child m root n f)
  (hbare : ∀ j, child (m f j) = none)
include hu hp hpn he hf hbare

omit hf hbare in
theorem tableAt_link_self : tableAt child (write m t i e) root (p ++ [i]) = some f := by
  have hp' : tableAt child (write m t i e) root p = some t := by
    rw [tableAt_write, hp]
    rintro p' r rfl hp'
    simp only [List.length_append, List.length_cons] at hpn
    have := congrArg List.length (hu.prefix_eq hp (by simp; omega) (by omega) hp')
    simp at this
  rw [tableAt_append hp']
  simp [tableAt, he]

omit hu he in
theorem fresh_childless : ∀ j, child (write m t i e f j) = none := by
  intro j
  rw [write_other (ne_of_not_reached hf hp (by omega))]
  exact hbare j

/-- The fresh table joins the tree under its entry, and nothing else does. -/
theorem tableAt_link (hq : q.length < n) (h : tableAt child (write m t i e) root q = some u) :
    (u = f ∧ q = p ++ [i]) ∨ tableAt child m root q = some u := by
  by_cases hpass : ∀ p' r, q = p' ++ i :: r → tableAt child m root p' ≠ some t
  · rw [tableAt_write hpass] at h
    exact .inr h
  · simp only [not_forall, not_not] at hpass
    obtain ⟨p', r, rfl, hp'⟩ := hpass
    simp only [List.length_append, List.length_cons] at hq
    obtain rfl := hu.prefix_eq hp (by omega) (by omega) hp'
    have hself := tableAt_link_self (i := i) hu hp hpn he
    rw [show p' ++ i :: r = (p' ++ [i]) ++ r by simp, tableAt_append hself] at h
    left
    cases r with
    | nil => exact ⟨(Option.some.inj h).symm, rfl⟩
    | cons j r => simp [tableAt, fresh_childless hp hpn hf hbare j] at h

/-- Another table outside the tree stays outside. -/
theorem not_reached_link {g : F} (hne : f ≠ g) (hg : ¬ Reached child m root n g) :
    ¬ Reached child (write m t i e) root n g := by
  rintro ⟨q, hq, hqg⟩
  rcases tableAt_link hu hp hpn he hf hbare hq hqg with ⟨hgf, _⟩ | hqg'
  · exact hne hgf.symm
  · exact hg ⟨q, hq, hqg'⟩

theorem unshared_link : Unshared child (write m t i e) root n := by
  intro q r u hq hr hqu hru
  rcases tableAt_link hu hp hpn he hf hbare hq hqu with ⟨rfl, rfl⟩ | hqu'
  · rcases tableAt_link hu hp hpn he hf hbare hr hru with ⟨_, rfl⟩ | hru'
    · rfl
    · exact (hf ⟨r, hr, hru'⟩).elim
  · rcases tableAt_link hu hp hpn he hf hbare hr hru with ⟨rfl, rfl⟩ | hru'
    · exact (hf ⟨q, hq, hqu'⟩).elim
    · exact hu q r u hq hr hqu' hru'

/-- A lookup through the new link ends in the fresh table, where it ended at the entry before. -/
theorem lookup_link (hi : child (m t i) = none) (hq : q.length = n) :
    lookup child (write m t i e) root q = lookup child m root q ∨
      ∃ l l' j, lookup child m root q = some (l, m t i) ∧
        lookup child (write m t i e) root q = some (l', m f j) := by
  by_cases hpass : ∀ p' r, q = p' ++ i :: r → tableAt child m root p' ≠ some t
  · exact .inl (lookup_write hpass)
  · simp only [not_forall, not_not] at hpass
    obtain ⟨p', r, rfl, hp'⟩ := hpass
    simp only [List.length_append, List.length_cons] at hq
    obtain rfl := hu.prefix_eq hp (by omega) (by omega) hp'
    have hself := tableAt_link_self (i := i) hu hp hpn he
    have hfresh := fresh_childless (e := e) (i := i) hp hpn hf hbare
    have hne := ne_of_not_reached hf hp (by omega)
    right
    rw [lookup_append hp (by simp), show p' ++ i :: r = (p' ++ [i]) ++ r by simp,
      lookup_append hself (by rintro rfl; simp at hq; omega)]
    cases r with
    | nil => simp at hq; omega
    | cons j r =>
      refine ⟨r.length + 1, r.length, j, by simp [lookup, hi], ?_⟩
      have hj := hfresh j
      rw [write_other hne] at hj
      cases r with
      | nil => simp [lookup, write_other hne]
      | cons k r => simp [lookup, write_other hne, hj]

end link

end Foundation.RadixTree
