import KnutOS.Devices.ConsoleTyping
import Mathlib.Order.Monotone.Basic

/-! Backspaces that go back over the cells of a string. -/
namespace KnutOS

/-- The pixel belongs to the cell. -/
def InCell (cell : ℤ × ℤ) (px py : ℤ) : Prop :=
  cell.1 ≤ px ∧ px < cell.1 + glyphWidth ∧ cell.2 ≤ py ∧ py < cell.2 + glyphHeight

instance (cell : ℤ × ℤ) (px py : ℤ) : Decidable (InCell cell px py) :=
  inferInstanceAs (Decidable (_ ∧ _ ∧ _ ∧ _))

/-- A glyph is drawn in its cell and nowhere else. That of a space is blank. -/
structure PaintsCells {σ π : Type} (g : Gfx) (C : Canvas σ) (pixel : σ → ℤ → ℤ → π) (bg : π) :
    Prop where
  blank : ∀ s x y fg px py, g.Visible px py → InCell (x, y) px py →
    pixel (C.putGlyph s x y ' ' fg) px py = bg
  outside : ∀ s x y unicode fg px py, g.Visible px py → ¬ InCell (x, y) px py →
    pixel (C.putGlyph s x y unicode fg) px py = pixel s px py

namespace Console

/-- A backspace of `framebuffer_print_char`. -/
def backspace {τ : Type} (g : Gfx) (D : Canvas τ) (d : Console τ) : Console τ :=
  eraseChar g D (placeCursor g D d d.x d.y)

/-- The console after `k` backspaces. -/
def erased {τ : Type} (g : Gfx) (D : Canvas τ) (d : Console τ) (k : ℕ) (fg : BitVec 32) :
    Console τ :=
  framebufferPrintString g D d (List.replicate k '\x08') fg

theorem erased_eq {τ : Type} (g : Gfx) (D : Canvas τ) (d : Console τ) (k : ℕ) (fg : BitVec 32) :
    erased g D d k fg = (backspace g D)^[k] d := by
  induction k generalizing d with
  | zero => rfl
  | succ k ih => exact ih (backspace g D d)

theorem erased_screen {σ : Type} (g : Gfx) (C : Canvas σ) (t : Console (Tracked σ)) (k : ℕ)
    (fg : BitVec 32) :
    (erased g C.tracking t k fg).map Tracked.screen = erased g C (t.map Tracked.screen) k fg :=
  map_framebufferPrintString g t C.tracking_hom _ fg

/-- A placed cursor is not moved again. -/
theorem backspaces_placed {τ : Type} {g : Gfx} {D : Canvas τ} {d : Console τ} {k : ℕ}
    (hW : 8 ≤ g.width) (hk : 0 < k) :
    (backspace g D)^[k] d = (backspace g D)^[k] (placeCursor g D d d.x d.y) := by
  cases k with
  | zero => exact absurd hk (Nat.lt_irrefl 0)
  | succ k =>
    have hp : Placed g (placeCursor g D d d.x d.y) := placeCursor_placed D d hW
    have hone : backspace g D (placeCursor g D d d.x d.y) = backspace g D d := by
      rw [backspace, placeCursor_stay hp.inRange hp.fits hp.onScreen]
      rfl
    rw [Function.iterate_succ_apply, Function.iterate_succ_apply, hone]

/-- The cursor comes back to the beginning of the string. The line ends are cells, and the cursor
has not been taken to a line by a scroll. -/
def ComesBack (g : Gfx) (x₀ y₀ : ℤ) (k : ℕ) : Prop :=
  k < firstLine g.width x₀ ∨
    (g.width - x₀) % 8 = 0 ∧
    (k < firstLine g.width x₀ + lineLength g.width ∨ g.width % 8 = 0) ∧
    (y₀ + 16 * (lineOf g.width x₀ k : ℤ) < g.height ∨
      (k - firstLine g.width x₀) % lineLength g.width ≠ 0 ∧ (g.height - y₀) % 16 = 0)

instance (g : Gfx) (x₀ y₀ : ℤ) (k : ℕ) : Decidable (ComesBack g x₀ y₀ k) :=
  inferInstanceAs (Decidable (_ ∨ _ ∧ _ ∧ _))

variable {W x₀ y₀ y : ℤ} {k i : ℕ} {g : Gfx}

theorem columnOf_fits (hW : 8 ≤ W) (hx : x₀ + 8 ≤ W) (k : ℕ) : columnOf W x₀ k + 8 ≤ W := by
  obtain ⟨_, hFlo, _⟩ := firstLine_bounds hx
  obtain ⟨hL, hLlo, _⟩ := lineLength_bounds hW
  rcases Nat.lt_or_ge k (firstLine W x₀) with hk | hk
  · rw [columnOf_first hk]
    omega
  · have hlt := Nat.mod_lt (k - firstLine W x₀) hL
    rw [columnOf_rest hk]
    omega

theorem lineOf_mono (hW : 8 ≤ W) (hx : x₀ + 8 ≤ W) : Monotone (lineOf W x₀) := by
  apply monotone_nat_of_le_succ
  intro k
  rcases layout_succ hW hx k with ⟨_, _, hline⟩ | ⟨_, _, hline⟩ <;> omega

theorem columnOf_lower (hr : -2 ^ 15 ≤ x₀) (k : ℕ) : -2 ^ 15 ≤ columnOf W x₀ k := by
  rcases Nat.lt_or_ge k (firstLine W x₀) with hk | hk
  · rw [columnOf_first hk]
    omega
  · rw [columnOf_rest hk]
    omega

/-- Behind the end of a line there is nothing left of it. -/
theorem ComesBack.lineEnd (h : ComesBack g x₀ y₀ k) (hW : 8 ≤ g.width) (hx : x₀ + 8 ≤ g.width)
    (hi : i < k) (hend : g.width < columnOf g.width x₀ i + 16) :
    firstLine g.width x₀ ≤ k ∧ columnOf g.width x₀ i = g.width - 8 := by
  obtain ⟨_, hFlo, hFhi⟩ := firstLine_bounds hx
  obtain ⟨hL, hLlo, hLhi⟩ := lineLength_bounds hW
  have hfits := columnOf_fits hW hx i
  rcases Nat.lt_or_ge i (firstLine g.width x₀) with hfirst | hrest
  · rw [columnOf_first hfirst] at hend hfits ⊢
    have hk : firstLine g.width x₀ ≤ k := by omega
    rcases h with hlt | ⟨hwidth, _⟩ <;> omega
  · have hlt := Nat.mod_lt (i - firstLine g.width x₀) hL
    have hle := Nat.mod_le (i - firstLine g.width x₀) (lineLength g.width)
    rw [columnOf_rest hrest] at hend hfits ⊢
    rcases h with hlt | ⟨_, hlt | hwidth, _⟩ <;> omega

/-- The lines of a string, seen from the line of the cursor behind it, `y`. Its first line is `top`,
and no coordinate of its cells leaves its `int16_t`. -/
structure Lines (g : Gfx) (x₀ top : ℤ) (k : ℕ) (y : ℤ) : Prop where
  left : -2 ^ 15 ≤ x₀ ∧ (x₀ % 8 = 0 → 0 ≤ x₀)
  fits : x₀ + 8 ≤ g.width
  above : -2 ^ 15 ≤ top ∧ (top % 16 = 0 → 0 ≤ top)
  first : top + 16 * (lineOf g.width x₀ k : ℤ) = y
  last : y < g.height ∧ y < 2 ^ 15
  column : k < firstLine g.width x₀ → x₀ + 8 * k < 2 ^ 15
  width : firstLine g.width x₀ ≤ k → g.width < 2 ^ 15

variable {top : ℤ}

theorem Lines.cellOf_snd (h : Lines g x₀ top k y) (i : ℕ) :
    (cellOf g x₀ k y i).2 = top + 16 * (lineOf g.width x₀ i : ℤ) := by
  have hfirst := h.first
  dsimp only [cellOf]
  omega

theorem Lines.cellOf_zero (h : Lines g x₀ top k y) : cellOf g x₀ k y 0 = (x₀, top) := by
  have hpos := (firstLine_bounds h.fits).1
  have hline := h.cellOf_snd 0
  rw [lineOf_first hpos] at hline
  apply Prod.ext
  · dsimp only [cellOf]
    rw [columnOf_first hpos]
    omega
  · rw [hline]
    omega

theorem Lines.columnOf_lt (h : Lines g x₀ top k y) (hW : 8 ≤ g.width) (hi : i ≤ k) :
    columnOf g.width x₀ i < 2 ^ 15 := by
  obtain ⟨_, hFlo, _⟩ := firstLine_bounds h.fits
  have hfits := columnOf_fits hW h.fits i
  have hcolumn := h.column
  have hwidth := h.width
  rcases Nat.lt_or_ge k (firstLine g.width x₀) with hk | hk
  · have hcolumn := hcolumn hk
    rw [columnOf_first (k := i) (by omega)]
    omega
  · have hwidth := hwidth hk
    omega

/-- There is room for a glyph in every cell of the string, and behind it. -/
theorem Lines.placed (h : Lines g x₀ top k y) (hW : 8 ≤ g.width) (hi : i ≤ k) :
    InRange (columnOf g.width x₀ i) (cellOf g x₀ k y i).2 ∧
      columnOf g.width x₀ i + 8 ≤ g.width ∧ (cellOf g x₀ k y i).2 < g.height := by
  have hmono := lineOf_mono hW h.fits hi
  have hfirst := h.first
  have habove := h.above.1
  obtain ⟨hlast, hbottom⟩ := h.last
  have hlower := columnOf_lower (W := g.width) h.left.1 i
  rw [h.cellOf_snd i]
  exact ⟨⟨hlower, h.columnOf_lt hW hi, by omega, by omega⟩, columnOf_fits hW h.fits i, by omega⟩

variable {τ : Type} {D : Canvas τ} {d : Console τ}

/-- A backspace goes to the cell before. -/
theorem Lines.backspace (h : Lines g x₀ top k y) (hback : ComesBack g x₀ y₀ k) (hW : 8 ≤ g.width)
    (hi : i < k) (hx : d.x = columnOf g.width x₀ (i + 1)) (hy : d.y = (cellOf g x₀ k y (i + 1)).2) :
    backspace g D d =
      { d with
        x := columnOf g.width x₀ i
        y := (cellOf g x₀ k y i).2
        canvas := D.putGlyph d.canvas (columnOf g.width x₀ i) (cellOf g x₀ k y i).2 ' ' d.fg } := by
  obtain ⟨hr, hfits, honScreen⟩ := h.placed hW hi
  obtain ⟨hr', hfits', honScreen'⟩ := h.placed hW (Nat.le_of_lt hi)
  rw [← hx, ← hy] at hr
  rw [← hx] at hfits
  rw [← hy] at honScreen
  have hsound := columnOf_nonneg (W := g.width) h.left.2 i
  have habove := h.above.2
  rw [KnutOS.Console.backspace, placeCursor_stay hr hfits honScreen]
  rcases layout_succ hW h.fits i with ⟨_, hcolumn, hline⟩ | ⟨hend, hcolumn, hline⟩
  · have hne : d.x ≠ 0 := by omega
    have hback : toInt16 (d.x - 8) = columnOf g.width x₀ i := by
      rw [hx, hcolumn, Int.add_sub_cancel]
      exact toInt16_eq hr'.left hr'.right
    have hsame : d.y = (cellOf g x₀ k y i).2 := by
      rw [hy, h.cellOf_snd, h.cellOf_snd, hline]
    rw [eraseChar_cellBefore hne, hback, hsame]
  · obtain ⟨hk, hlast⟩ := hback.lineEnd hW h.fits hi hend
    have hwidth := h.width hk
    have hx0 : d.x = 0 := by omega
    have hup : d.y - 16 = (cellOf g x₀ k y i).2 := by
      rw [hy, h.cellOf_snd, h.cellOf_snd, hline]
      omega
    have hy0 : d.y ≠ 0 := by
      intro hy0
      rw [h.cellOf_snd] at hup
      omega
    have hright : toInt16 (g.width - 8) = columnOf g.width x₀ i := by
      rw [hlast]
      exact toInt16_eq (by omega) (by omega)
    rw [eraseChar_lineAbove hx0 hy0, hright, hup, toInt16_eq hr'.top hr'.bottom]

variable {σ π : Type} {C : Canvas σ} {pixel : σ → ℤ → ℤ → π} {bg : π} {p e : Console (Tracked σ)}

/-- The backspaces have gone back to the `i`-th cell of the string, from cursor `p` behind it. -/
structure Erasing (g : Gfx) (pixel : σ → ℤ → ℤ → π) (bg : π) (x₀ : ℤ) (k : ℕ)
    (p : Console (Tracked σ)) (i : ℕ) (e : Console (Tracked σ)) : Prop where
  column : e.x = columnOf g.width x₀ i
  line : e.y = (cellOf g x₀ k p.y i).2
  scrolls : e.canvas.scrolls = p.canvas.scrolls
  blank : ∀ j, i ≤ j → j < k → ∀ px py, g.Visible px py → InCell (cellOf g x₀ k p.y j) px py →
    pixel e.canvas.screen px py = bg
  others : ∀ px py, g.Visible px py → (∀ j < k, ¬ InCell (cellOf g x₀ k p.y j) px py) →
    pixel e.canvas.screen px py = pixel p.canvas.screen px py

theorem Erasing.start (hx : p.x = columnOf g.width x₀ k) : Erasing g pixel bg x₀ k p k p where
  column := hx
  line := by rw [cellOf_self]
  scrolls := rfl
  blank := fun j hlo hhi => absurd hhi (Nat.not_lt.mpr hlo)
  others := fun _ _ _ _ => rfl

theorem Erasing.step (hpaint : PaintsCells g C pixel bg) (h : Lines g x₀ top k p.y)
    (hback : ComesBack g x₀ y₀ k) (hW : 8 ≤ g.width) (hi : i < k)
    (he : Erasing g pixel bg x₀ k p (i + 1) e) :
    Erasing g pixel bg x₀ k p i (backspace g C.tracking e) := by
  rw [h.backspace hback hW hi he.column he.line]
  refine ⟨rfl, rfl, he.scrolls, ?_, ?_⟩
  · intro j hlo hhi px py hvisible hcell
    by_cases hhere : InCell (cellOf g x₀ k p.y i) px py
    · exact hpaint.blank _ _ _ _ px py hvisible hhere
    · have hne : i ≠ j := by
        rintro rfl
        exact hhere hcell
      exact (hpaint.outside _ _ _ _ _ px py hvisible hhere).trans
        (he.blank j (by omega) hhi px py hvisible hcell)
  · intro px py hvisible hnone
    exact (hpaint.outside _ _ _ _ _ px py hvisible (hnone i hi)).trans
      (he.others px py hvisible hnone)

theorem Erasing.run (hpaint : PaintsCells g C pixel bg) (h : Lines g x₀ top k p.y)
    (hback : ComesBack g x₀ y₀ k) (hW : 8 ≤ g.width) (hx : p.x = columnOf g.width x₀ k) :
    Erasing g pixel bg x₀ k p 0 ((backspace g C.tracking)^[k] p) := by
  have hrun : ∀ j ≤ k, Erasing g pixel bg x₀ k p (k - j) ((backspace g C.tracking)^[j] p) := by
    intro j
    induction j with
    | zero => exact fun _ => Erasing.start hx
    | succ j ih =>
      intro hj
      have he := ih (Nat.le_of_succ_le hj)
      have hcell : k - j = k - (j + 1) + 1 := by omega
      rw [hcell] at he
      rw [Function.iterate_succ_apply']
      exact he.step hpaint h hback hW (by omega)
  have hall := hrun k (Nat.le_refl k)
  rwa [Nat.sub_self] at hall

end Console

end KnutOS
