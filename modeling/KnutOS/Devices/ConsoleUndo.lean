import KnutOS.Devices.ConsoleErasing

/-! When backspaces undo a string. -/
namespace KnutOS

namespace Console

/-- The backspaces between `t` and `e` have taken all glyphs back, and have done nothing else. -/
structure Undone {σ π : Type} (g : Gfx) (pixel : σ → ℤ → ℤ → π) (bg : π)
    (t e : Console (Tracked σ)) : Prop where
  cursor : ∀ cell, t.canvas.cells.head? = some cell → (e.x, e.y) = cell
  blank : ∀ cell ∈ t.canvas.cells, ∀ px py, g.Visible px py → InCell cell px py →
    pixel e.canvas.screen px py = bg
  others : ∀ px py, g.Visible px py → (∀ cell ∈ t.canvas.cells, ¬ InCell cell px py) →
    pixel e.canvas.screen px py = pixel t.canvas.screen px py
  scrolls : e.canvas.scrolls = t.canvas.scrolls

/-- The first glyph, if there is one, is still on the screen. -/
def StartKept {σ : Type} (t : Console (Tracked σ)) : Prop :=
  t.canvas.scrolls = 0 ∨ ∀ cell, t.canvas.cells.head? = some cell → -glyphHeight < cell.2

/-- No coordinate leaves its `int16_t` while `k` glyphs are printed, and those of the first glyph
have not come from such an overflow. -/
structure StringFits (g : Gfx) (x y : ℤ) (k : ℕ) : Prop where
  cursor : g.width < x + 8 → y + 16 < 2 ^ 15
  left : (firstCell g x y).1 % 8 = 0 → 0 ≤ (firstCell g x y).1
  top : (firstCell g x y).2 % 16 = 0 → 0 ≤ (firstCell g x y).2
  glyphs : NoOverflow g (firstCell g x y).1 (firstCell g x y).2 k

variable {σ π : Type} {g : Gfx} {C : Canvas σ} {pixel : σ → ℤ → ℤ → π} {bg : π} {c : Console σ}
  {p t e : Console (Tracked σ)} {x₀ y₀ y : ℤ} {m k n : ℕ} {fg fg' : BitVec 32}
  {string : List Char}

theorem OnLine.aligned (h : OnLine g x₀ y₀ k n y) (hal : Aligned g y₀ n) :
    y₀ - 16 * n + 16 * (lineOf g.width x₀ k : ℤ) = y := by
  have habove := h.above
  rcases h.line with ⟨hn, hy⟩ | ⟨hn, hy, hlast⟩
  · omega
  · rcases hal with hal | hal <;> omega

/-- Where the lines above the last one are enough, nothing has scrolled. -/
theorem OnLine.noScroll (h : OnLine g x₀ y₀ k n y)
    (hlow : y₀ + 16 * (lineOf g.width x₀ k : ℤ) < g.height) : n = 0 := by
  rcases h.line with ⟨hn, _⟩ | ⟨hn, _, hlast⟩
  · exact hn
  · omega

theorem Before.lines (hcell : SoundCell g x₀ y₀) (hno : NoOverflow g x₀ y₀ k)
    (hal : Aligned g y₀ n) (hstart : n = 0 ∨ -16 < y₀ - 16 * n) (h : Before g x₀ y₀ m k n p) :
    Lines g x₀ (y₀ - 16 * n) k p.y where
  left := ⟨hcell.inRange.left, hcell.left⟩
  fits := hcell.fits
  above := by
    have htop := hcell.inRange.top
    have hrow := hcell.top
    omega
  first := h.onLine.aligned hal
  last := ⟨h.cell.onScreen, h.cell.inRange.bottom⟩
  column := hno.column
  width := hno.width

/-- Behind a string that can be taken back, the cursor is placed without a scroll. -/
theorem After.comesBack (hW : 8 ≤ g.width) (hH : 16 ≤ g.height) (hcell : SoundCell g x₀ y₀)
    (hno : NoOverflow g x₀ y₀ (k + 1)) (hback : ComesBack g x₀ y₀ (k + 1))
    (h : After g x₀ y₀ m k n t) :
    Before g x₀ y₀ m (k + 1) n (placeCursor g C.tracking t t.x t.y) ∧
      (placeCursor g C.tracking t t.x t.y).canvas = t.canvas ∧ Aligned g y₀ n := by
  have honScreen := hcell.onScreen
  have hline : y₀ + 16 * (lineOf g.width x₀ (k + 1) : ℤ) < g.height ∨
      columnOf g.width x₀ (k + 1) ≠ 0 ∧ (g.height - y₀) % 16 = 0 := by
    by_cases hk : k + 1 < firstLine g.width x₀
    · rw [lineOf_first hk]
      omega
    · rw [columnOf_rest (k := k + 1) (by omega)]
      rcases hback with hlt | ⟨_, _, hlow | ⟨hmid, hal⟩⟩
      · exact absurd hlt hk
      · exact .inl hlow
      · exact .inr ⟨by omega, hal⟩
  rcases h.place (C := C) hno hW hH hcell.fits hcell.left with ⟨hbefore, hsame, _⟩ |
    ⟨hbefore, hzero⟩
  · refine ⟨hbefore, hsame, ?_⟩
    rcases hline with hlow | ⟨_, hal⟩
    · exact .inl (hbefore.onLine.noScroll hlow)
    · exact .inr hal
  · rcases hline with hlow | ⟨hmid, _⟩
    · exact absurd (hbefore.onLine.noScroll hlow) (Nat.succ_ne_zero n)
    · exact absurd hzero hmid

theorem StringFits.soundCell {x : ℤ} (hfit : StringFits g x y k) (hW : 8 ≤ g.width)
    (hH : 16 ≤ g.height) (hr : InRange x y) :
    SoundCell g (firstCell g x y).1 (firstCell g x y).2 := by
  have hp : Placed g (placeCursor g noCanvas ⟨x, y, 0#32, ()⟩ x y) :=
    placeCursor_placed noCanvas ⟨x, y, 0#32, ()⟩ hW
  have hfirst : ((placeCursor g noCanvas ⟨x, y, 0#32, ()⟩ x y).x,
      (placeCursor g noCanvas ⟨x, y, 0#32, ()⟩ x y).y) = firstCell g x y :=
    placeCursor_firstCell (d := ⟨x, y, 0#32, ()⟩) hr (by omega) hfit.cursor
  have hbottom := hp.onScreen
  have hleft := hfit.left
  have htop := hfit.top
  rw [← hfirst] at hleft htop ⊢
  exact ⟨⟨hp.inRange, hleft, htop, by omega⟩, hp.fits, hp.onScreen⟩

/-- Such a string is typed line by line. -/
theorem StringFits.typed (hfit : StringFits g c.x c.y string.length) (hW : 8 ≤ g.width)
    (hH : 16 ≤ g.height) (hr : InRange c.x c.y) (hl : ∀ u ∈ string, Glyph u)
    (hlen : string.length = k + 1) :
    ∃ m n, After g (firstCell g c.x c.y).1 (firstCell g c.x c.y).2 m k n
      (typed g C c string fg) := by
  have hcell := hfit.soundCell hW hH hr
  have hno := hfit.glyphs
  have hplace : ((placeCursor g C.tracking c.track c.x c.y).x,
      (placeCursor g C.tracking c.track c.x c.y).y) = firstCell g c.x c.y :=
    placeCursor_firstCell (d := c.track) hr (by omega) hfit.cursor
  rw [← hplace] at hcell hno ⊢
  exact ⟨_, typed_after hW hH rfl hcell hno hl hlen⟩

/-- Once the cursor has gone back over all cells, the string is undone. -/
theorem Erasing.undone (hcells : t.canvas.cells = (List.range k).map (cellOf g x₀ k p.y))
    (hfirst : t.canvas.cells.head? = some (cellOf g x₀ k p.y 0)) (hsame : p.canvas = t.canvas)
    (h : Erasing g pixel bg x₀ k p 0 e) : Undone g pixel bg t e where
  cursor := by
    intro cell hcell
    rw [hfirst] at hcell
    rw [← Option.some.inj hcell, h.column, h.line]
    rfl
  blank := by
    intro cell hmem
    rw [hcells] at hmem
    obtain ⟨i, hi, rfl⟩ := List.mem_map.mp hmem
    exact h.blank i (Nat.zero_le i) (List.mem_range.mp hi)
  others := by
    intro px py hvisible hnone
    rw [← hsame]
    refine h.others px py hvisible fun i hi => hnone _ ?_
    rw [hcells]
    exact List.mem_map_of_mem (List.mem_range.mpr hi)
  scrolls := by rw [h.scrolls, hsame]

theorem undone_nil : Undone g pixel bg (typed g C c [] fg)
    (erased g C.tracking (typed g C c [] fg) 0 fg') where
  cursor := by
    intro cell hcell
    cases hcell
  blank := fun _ hmem => absurd hmem List.not_mem_nil
  others := fun _ _ _ _ => rfl
  scrolls := rfl

theorem After.undone (hpaint : PaintsCells g C pixel bg) (hW : 8 ≤ g.width) (hH : 16 ≤ g.height)
    (hcell : SoundCell g x₀ y₀) (hno : NoOverflow g x₀ y₀ (k + 1))
    (hback : ComesBack g x₀ y₀ (k + 1)) (hstart : StartKept t) (h : After g x₀ y₀ m k n t) :
    Undone g pixel bg t (erased g C.tracking t (k + 1) fg') := by
  obtain ⟨hbefore, hsame, hal⟩ := h.comesBack (C := C) hW hH hcell hno hback
  have hkept : n = 0 ∨ -16 < y₀ - 16 * n := by
    rcases hstart with hzero | hkept
    · have hscrolls := h.scrolls
      omega
    · exact .inr (hkept _ h.first)
  have hlines := hbefore.lines hcell hno hal hkept
  have hcells := hbefore.cells hal
  have hfirst : t.canvas.cells.head? =
      some (cellOf g x₀ (k + 1) (placeCursor g C.tracking t t.x t.y).y 0) := by
    rw [hlines.cellOf_zero, h.first]
  rw [hsame] at hcells
  rw [erased_eq, backspaces_placed hW (Nat.succ_pos k)]
  exact (Erasing.run hpaint hlines hback hW hbefore.column).undone hcells hfirst hsame

theorem scrolls_le_place (d : Console (Tracked σ)) (x y : ℤ) :
    d.canvas.scrolls ≤ (placeCursor g C.tracking d x y).canvas.scrolls := by
  simp only [placeCursor]
  split_ifs
  · exact Nat.le_succ _
  · exact Nat.le_refl _
  · exact Nat.le_succ _
  · exact Nat.le_refl _

theorem scrolls_erase (d : Console (Tracked σ)) :
    (eraseChar g C.tracking d).canvas.scrolls = d.canvas.scrolls := by
  by_cases hx : d.x = 0
  · by_cases hy : d.y = 0
    · rw [eraseChar_zero hx hy]
    · rw [eraseChar_lineAbove hx hy]
      rfl
  · rw [eraseChar_cellBefore hx]
    rfl

theorem scrolls_le_backspace (d : Console (Tracked σ)) :
    d.canvas.scrolls ≤ (backspace g C.tracking d).canvas.scrolls := by
  rw [backspace, scrolls_erase]
  exact scrolls_le_place d d.x d.y

theorem scrolls_le_backspaces (d : Console (Tracked σ)) (j : ℕ) :
    d.canvas.scrolls ≤ ((backspace g C.tracking)^[j] d).canvas.scrolls := by
  induction j generalizing d with
  | zero => exact Nat.le_refl _
  | succ j ih => exact Nat.le_trans (scrolls_le_backspace d) (ih (backspace g C.tracking d))

/-- As long as the screen has not scrolled in the end, it has not scrolled at all. -/
theorem backspaces_keep {P : Console (Tracked σ) → Prop} {d : Console (Tracked σ)} {j : ℕ}
    (hstep : ∀ d, P d → (backspace g C.tracking d).canvas.scrolls = d.canvas.scrolls →
      P (backspace g C.tracking d))
    (hs : ((backspace g C.tracking)^[j] d).canvas.scrolls = d.canvas.scrolls) (h : P d) :
    P ((backspace g C.tracking)^[j] d) := by
  induction j generalizing d with
  | zero => exact h
  | succ j ih =>
    rw [Function.iterate_succ_apply] at hs ⊢
    have hone : d.canvas.scrolls ≤ (backspace g C.tracking d).canvas.scrolls :=
      scrolls_le_backspace d
    have hrest : (backspace g C.tracking d).canvas.scrolls ≤
        ((backspace g C.tracking)^[j] (backspace g C.tracking d)).canvas.scrolls :=
      scrolls_le_backspaces _ j
    exact ih (by omega) (hstep d h (by omega))

theorem placeCursor_noScroll {d : Console (Tracked σ)} (hH : 16 ≤ g.height)
    (hbelow : g.width < d.x + 8 → d.y + 16 < 2 ^ 15) (h : Sound g d.x d.y)
    (hs : (backspace g C.tracking d).canvas.scrolls = d.canvas.scrolls) :
    placeCursor g C.tracking d d.x d.y = d ∨
      g.width < d.x + 8 ∧
        placeCursor g C.tracking d d.x d.y = { d with x := 0, y := d.y + 16 } := by
  rcases placeCursor_cases (D := C.tracking) h.inRange (by omega) hbelow h.bottom with
    ⟨_, _, hplace⟩ | ⟨hover, _, hplace⟩ | ⟨_, _, hplace⟩
  · exact .inl hplace
  · exact .inr ⟨hover, hplace⟩
  · rw [backspace, scrolls_erase, hplace] at hs
    exact absurd hs (Nat.succ_ne_self _)

/-- What a backspace at the beginning of a line leads to: a cell that is counted from the right
edge. Unless there is a whole number of cells on a line, it stays on line `y`. -/
structure FromRight (g : Gfx) (y : ℤ) (d : Console (Tracked σ)) : Prop where
  sound : Sound g d.x d.y
  column : d.x % 8 = g.width % 8
  whole : g.width % 8 = 0 → d.x + 8 ≤ g.width
  broken : g.width % 8 ≠ 0 → d.y = y
  row : d.y % 16 = y % 16

theorem FromRight.backspace {d : Console (Tracked σ)} (hwidth : g.width < 2 ^ 15)
    (hy : y + 16 < 2 ^ 15) (hW : 8 ≤ g.width) (hH : 16 ≤ g.height) (h : FromRight g y d)
    (hs : (backspace g C.tracking d).canvas.scrolls = d.canvas.scrolls) :
    FromRight g y (backspace g C.tracking d) := by
  obtain ⟨hsound, hcolumn, hwhole, hbroken, hrow⟩ := h
  have hr := hsound.inRange
  have hleft := hsound.left
  have htop := hsound.top
  have hbelow : g.width < d.x + 8 → d.y + 16 < 2 ^ 15 := by omega
  have hnext : Sound g (KnutOS.Console.backspace g C.tracking d).x
      (KnutOS.Console.backspace g C.tracking d).y := (hsound.place hW hH hbelow).erase hwidth hW
  have hright : toInt16 (g.width - 8) = g.width - 8 := toInt16_eq (by omega) (by omega)
  have hcell : (g.width - 8) % 8 = g.width % 8 := by omega
  have hend : g.width % 8 = 0 → g.width - 8 + 8 ≤ g.width := by omega
  rw [KnutOS.Console.backspace] at hnext ⊢
  rcases placeCursor_noScroll hH hbelow hsound hs with hplace | ⟨hover, hplace⟩
  · rw [hplace] at hnext ⊢
    by_cases hx : d.x = 0
    · by_cases hy : d.y = 0
      · rw [eraseChar_zero hx hy]
        exact ⟨hsound, hcolumn, hwhole, hbroken, hrow⟩
      · have hup : toInt16 (d.y - 16) % 16 = y % 16 := by
          rw [toInt16]
          omega
        rw [eraseChar_lineAbove hx hy, hright] at hnext ⊢
        exact ⟨hnext, hcell, hend, fun hodd => absurd hcolumn (by omega), hup⟩
    · have hback : toInt16 (d.x - 8) % 8 = g.width % 8 := by
        rw [toInt16]
        omega
      have hfits : g.width % 8 = 0 → toInt16 (d.x - 8) + 8 ≤ g.width := by
        intro heven
        have hwhole := hwhole heven
        rw [toInt16_eq] <;> omega
      rw [eraseChar_cellBefore hx] at hnext ⊢
      exact ⟨hnext, hback, hfits, hbroken, hrow⟩
  · have hy : d.y + 16 ≠ 0 := by omega
    have hsame : toInt16 (d.y + 16 - 16) = d.y := by
      rw [Int.add_sub_cancel]
      exact toInt16_eq hr.top hr.bottom
    rw [hplace, eraseChar_lineAbove rfl hy, hright, hsame] at hnext ⊢
    exact ⟨hnext, hcell, hend, hbroken, hrow⟩

/-- On its line, the cursor goes back to the left edge. -/
theorem backspaces_lineStart {d : Console (Tracked σ)} (j : ℕ) (h : SoundCell g d.x d.y)
    (hx : d.x = 8 * j) :
    ((backspace g C.tracking)^[j] d).x = 0 ∧ ((backspace g C.tracking)^[j] d).y = d.y ∧
      ((backspace g C.tracking)^[j] d).canvas.scrolls = d.canvas.scrolls := by
  induction j generalizing d with
  | zero => exact ⟨hx, rfl, rfl⟩
  | succ j ih =>
    obtain ⟨⟨hr, _, hrow, _⟩, hfits, honScreen⟩ := h
    have hright := hr.right
    have hne : d.x ≠ 0 := by omega
    have hcolumn : toInt16 (d.x - 8) = 8 * j := by
      rw [toInt16_eq] <;> omega
    have hone : backspace g C.tracking d =
        { d with
          x := 8 * j
          canvas := C.tracking.putGlyph d.canvas (8 * j) d.y ' ' d.fg } := by
      rw [backspace, placeCursor_stay hr hfits honScreen, eraseChar_cellBefore hne, hcolumn]
    have hcell : SoundCell g (8 * j) d.y :=
      ⟨⟨⟨by omega, by omega, hr.top, hr.bottom⟩, by omega, hrow, by omega⟩, by omega, honScreen⟩
    rw [Function.iterate_succ_apply, hone]
    exact ih hcell rfl

/-- From the left edge of a line below the first one, the cursor goes to the line above. -/
theorem backspaces_fromRight {d : Console (Tracked σ)} {j : ℕ} (hwidth : g.width < 2 ^ 15)
    (hW : 8 ≤ g.width) (hH : 16 ≤ g.height) (h : SoundCell g d.x d.y) (hx : d.x = 0)
    (hy : d.y ≠ 0) (htop : -2 ^ 15 ≤ d.y - 16)
    (hs : ((backspace g C.tracking)^[j + 1] d).canvas.scrolls = d.canvas.scrolls) :
    FromRight g (d.y - 16) ((backspace g C.tracking)^[j + 1] d) := by
  have hbottom := h.inRange.bottom
  have hplace : placeCursor g C.tracking d d.x d.y = d :=
    placeCursor_stay h.inRange h.fits h.onScreen
  have hsound : Sound g (eraseChar g C.tracking d).x (eraseChar g C.tracking d).y :=
    h.erase hwidth hW
  have hright : toInt16 (g.width - 8) = g.width - 8 := toInt16_eq (by omega) (by omega)
  have hup : toInt16 (d.y - 16) = d.y - 16 := toInt16_eq htop (by omega)
  have hcell : (g.width - 8) % 8 = g.width % 8 := by omega
  have hend : g.width % 8 = 0 → g.width - 8 + 8 ≤ g.width := by omega
  have hone : FromRight g (d.y - 16) (backspace g C.tracking d) := by
    rw [backspace, hplace]
    rw [eraseChar_lineAbove hx hy, hright, hup] at hsound ⊢
    exact ⟨hsound, hcell, hend, fun _ => rfl, rfl⟩
  have hscroll : (backspace g C.tracking d).canvas.scrolls = d.canvas.scrolls := by
    rw [backspace, hplace, scrolls_erase]
  rw [Function.iterate_succ_apply] at hs ⊢
  exact backspaces_keep (fun _ h hs => h.backspace hwidth (by omega) hW hH hs)
    (hs.trans hscroll.symm) hone

theorem backspaces_stuck {d : Console (Tracked σ)} (j : ℕ) (h : SoundCell g d.x d.y)
    (hx : d.x = 0) (hy : d.y = 0) : (backspace g C.tracking)^[j] d = d := by
  apply Function.iterate_fixed
  rw [backspace, placeCursor_stay h.inRange h.fits h.onScreen, eraseChar_zero hx hy]

/-- The line of a glyph is as far below the first one as the layout says, up to the lines that do
not fit together. -/
theorem OnLine.below (h : OnLine g x₀ y₀ k n y) :
    y₀ - 16 * n + 16 * (lineOf g.width x₀ k : ℤ) < y + 16 := by
  have habove := h.above
  rcases h.line with ⟨hn, hy⟩ | ⟨hn, hy, hlast⟩ <;> omega

theorem OnLine.lineAbove (h : OnLine g x₀ y₀ k n y) (hH : 16 ≤ g.height) (hy₀ : -2 ^ 15 ≤ y₀)
    (hline : 0 < lineOf g.width x₀ k) : -2 ^ 15 ≤ y - 16 := by
  rcases h.line with ⟨hn, hy⟩ | ⟨hn, hy, hlast⟩ <;> omega

/-- Where the string has more than one line, its end is gone back over from the right edge. -/
theorem Before.fromRight (hwidth : g.width < 2 ^ 15) (hW : 8 ≤ g.width) (hH : 16 ≤ g.height)
    (hx : x₀ + 8 ≤ g.width) (hy₀ : -2 ^ 15 ≤ y₀) (hk : firstLine g.width x₀ ≤ k)
    (h : Before g x₀ y₀ m k n p)
    (hs : ((backspace g C.tracking)^[k] p).canvas.scrolls = p.canvas.scrolls)
    (hye : ((backspace g C.tracking)^[k] p).y = y₀ - 16 * n) :
    FromRight g (p.y - 16) ((backspace g C.tracking)^[k] p) := by
  obtain ⟨hpos, _, _⟩ := firstLine_bounds hx
  have hbelow := h.onLine.below
  have hline : 0 < lineOf g.width x₀ k := by
    rw [lineOf_rest hk]
    exact Nat.succ_pos _
  have hcolumn := h.column
  rw [columnOf_rest hk] at hcolumn
  obtain ⟨hzx, hzy, hzs⟩ := backspaces_lineStart (C := C)
    ((k - firstLine g.width x₀) % lineLength g.width) h.cell hcolumn
  have hle := Nat.mod_le (k - firstLine g.width x₀) (lineLength g.width)
  obtain ⟨j, hj⟩ : ∃ j, k = j + 1 + (k - firstLine g.width x₀) % lineLength g.width :=
    ⟨k - 1 - (k - firstLine g.width x₀) % lineLength g.width, by omega⟩
  generalize (k - firstLine g.width x₀) % lineLength g.width = left at hzx hzy hzs hj
  have hz : SoundCell g ((backspace g C.tracking)^[left] p).x
      ((backspace g C.tracking)^[left] p).y := by
    rw [hzx, hzy]
    exact h.cell.lineStart hW
  have hsplit : (backspace g C.tracking)^[k] p =
      (backspace g C.tracking)^[j + 1] ((backspace g C.tracking)^[left] p) := by
    rw [hj, Function.iterate_add_apply]
  rw [hsplit] at hs hye ⊢
  generalize (backspace g C.tracking)^[left] p = z at hzx hzy hzs hz hs hye ⊢
  have hne : z.y ≠ 0 := by
    intro hzero
    rw [backspaces_stuck (j + 1) hz hzx hzero] at hye
    omega
  have habove := h.onLine.lineAbove hH hy₀ hline
  rw [← hzy] at habove ⊢
  exact backspaces_fromRight hwidth hW hH hz hzx hne habove (hs.trans hzs.symm)

theorem Before.comesBack (hno : NoOverflow g x₀ y₀ k) (hW : 8 ≤ g.width) (hH : 16 ≤ g.height)
    (hx : x₀ + 8 ≤ g.width) (hy₀ : -2 ^ 15 ≤ y₀) (hmid : 0 < n → columnOf g.width x₀ k ≠ 0)
    (h : Before g x₀ y₀ m k n p)
    (hs : ((backspace g C.tracking)^[k] p).canvas.scrolls = p.canvas.scrolls)
    (hxe : ((backspace g C.tracking)^[k] p).x = x₀)
    (hye : ((backspace g C.tracking)^[k] p).y = y₀ - 16 * n) : ComesBack g x₀ y₀ k := by
  rcases Nat.lt_or_ge k (firstLine g.width x₀) with hk | hk
  · exact .inl hk
  · obtain ⟨_, hcolumn, _, hbroken, hrow⟩ := h.fromRight (hno.width hk) hW hH hx hy₀ hk hs hye
    refine .inr ⟨by omega, ?_, ?_⟩
    · by_contra hodd
      have hL := (lineLength_bounds hW).1
      have hsecond : 1 ≤ (k - firstLine g.width x₀) / lineLength g.width :=
        (Nat.one_le_div_iff hL).mpr (by omega)
      have hline := lineOf_rest hk
      have hbelow := h.onLine.below
      have hbroken := hbroken (by omega)
      omega
    · have honScreen := h.onLine.onScreen
      rw [columnOf_rest hk] at hmid
      rcases h.onLine.line with ⟨hn, hy⟩ | ⟨hn, hy, _⟩
      · exact .inl (by omega)
      · have hmid := hmid hn
        exact .inr ⟨by omega, by omega⟩

theorem After.comesBack_of_undone (hW : 8 ≤ g.width) (hH : 16 ≤ g.height)
    (hcell : SoundCell g x₀ y₀) (hno : NoOverflow g x₀ y₀ (k + 1)) (h : After g x₀ y₀ m k n t)
    (hundone : Undone g pixel bg t (erased g C.tracking t (k + 1) fg')) :
    ComesBack g x₀ y₀ (k + 1) := by
  obtain ⟨hcursor, _, _, hscrolls⟩ := hundone
  have hpos : 0 < k + 1 := Nat.succ_pos k
  rw [erased_eq, backspaces_placed hW hpos] at hcursor hscrolls
  obtain ⟨hxe, hye⟩ := Prod.ext_iff.mp (hcursor _ h.first)
  have hplaced := scrolls_le_place (C := C) (g := g) t t.x t.y
  have hrest := scrolls_le_backspaces (C := C) (g := g)
    (placeCursor g C.tracking t t.x t.y) (k + 1)
  rcases h.place (C := C) hno hW hH hcell.fits hcell.left with ⟨hbefore, _, hmid⟩ | ⟨hbefore, _⟩
  · exact hbefore.comesBack hno hW hH hcell.fits hcell.inRange.top hmid (by omega) hxe hye
  · have hscrolled := hbefore.scrolls
    have hbehind := h.scrolls
    omega

/-- Where every cell of the framebuffer fits into the type of the cursor, strings do. -/
theorem SizeFits.stringFits {x : ℤ} (hg : SizeFits g) (hW : 8 ≤ g.width) (hH : 16 ≤ g.height)
    (hs : Sound g x y) (k : ℕ) : StringFits g x y k := by
  have hwidth := hg.width
  have hheight := hg.height
  have hbelow := hg.lineBelow hs
  have hplace : ((placeCursor g noCanvas ⟨x, y, 0#32, ()⟩ x y).x,
      (placeCursor g noCanvas ⟨x, y, 0#32, ()⟩ x y).y) = firstCell g x y :=
    placeCursor_firstCell (d := ⟨x, y, 0#32, ()⟩) hs.inRange (by omega) hbelow
  have hcell : SoundCell g (firstCell g x y).1 (firstCell g x y).2 := by
    rw [← hplace]
    exact Sound.place (d := ⟨x, y, 0#32, ()⟩) hW hH hbelow hs
  obtain ⟨_, hFlo, _⟩ := firstLine_bounds hcell.fits
  refine ⟨hbelow, hcell.left, hcell.top, ?_, fun _ => hwidth, .inr (by omega)⟩
  intro hk
  omega

/-- Where no coordinate overflows, a string is undone if and only if the cursor comes back to its
beginning. On a framebuffer whose cells fit into the type of the cursor, none does. -/
theorem backspaceUndoes_iff (fg fg' : BitVec 32) (hpaint : PaintsCells g C pixel bg)
    (hW : 8 ≤ g.width) (hH : 16 ≤ g.height) (hreach : ReachableCursor g c.x c.y)
    (hstring : ∀ u ∈ string, Glyph u) (hstart : StartKept (typed g C c string fg)) :
    (StringFits g c.x c.y string.length →
      (Undone g pixel bg (typed g C c string fg)
        (erased g C.tracking (typed g C c string fg) string.length fg') ↔
      ComesBack g (firstCell g c.x c.y).1 (firstCell g c.x c.y).2 string.length)) ∧
    (SizeFits g → StringFits g c.x c.y string.length) := by
  have hr := inRange_of_reachable hW hreach
  refine ⟨fun hfit => ?_, fun hg => ?_⟩
  · have hcell := hfit.soundCell hW hH hr
    have hno := hfit.glyphs
    cases hlen : string.length with
    | zero =>
      rw [List.length_eq_zero_iff.mp hlen]
      exact ⟨fun _ => .inl (firstLine_bounds hcell.fits).1, fun _ => undone_nil⟩
    | succ k =>
      obtain ⟨m, n, hafter⟩ := hfit.typed (C := C) hW hH hr hstring hlen
      rw [hlen] at hno
      exact ⟨hafter.comesBack_of_undone hW hH hcell hno,
        fun hback => hafter.undone hpaint hW hH hcell hno hback hstart⟩
  · exact hg.stringFits hW hH (sound_of_reachable hg hW hH hreach) string.length

/-- Every glyph but that of a space fills its cell. -/
def blocks (g : Gfx) : Canvas (ℤ → ℤ → Bool) where
  putGlyph s x y unicode _ := fun px py =>
    if InCell (x, y) px py then decide (unicode ≠ ' ') else s px py
  moveOneRowUp s := fun px py => decide (py + glyphHeight < g.height) && s px (py + glyphHeight)

theorem blocks_paints (g : Gfx) : PaintsCells g (blocks g) (fun s => s) false where
  blank := fun _ _ _ _ _ _ _ hcell => if_pos hcell
  outside := fun _ _ _ _ _ _ _ _ hcell => if_neg hcell

def twoColumns (lines : ℕ) : Gfx := ⟨16#16, BitVec.ofNat 16 (16 * lines)⟩

/-- A string on a blank screen. -/
def typedAt (g : Gfx) (x y : ℤ) (string : List Char) : Console (Tracked (ℤ → ℤ → Bool)) :=
  typed g (blocks g) ⟨x, y, 0#32, fun _ _ => false⟩ string 0#32

/-- Five glyphs that begin on the second of three lines. -/
theorem backspaceUndoes_scrolled :
    Undone (twoColumns 3) (fun s => s) false (typedAt (twoColumns 3) 0 16 (List.replicate 5 'a'))
      (erased (twoColumns 3) (blocks (twoColumns 3)).tracking
        (typedAt (twoColumns 3) 0 16 (List.replicate 5 'a')) 5 0#32) := by
  have hreach : ReachableCursor (twoColumns 3) 0 16 := ⟨[(['\n'], 0#32)], rfl, rfl⟩
  have hstring : ∀ u ∈ List.replicate 5 'a', Glyph u := by
    intro u hu
    rw [List.eq_of_mem_replicate hu]
    decide
  have hstart : StartKept (typedAt (twoColumns 3) 0 16 (List.replicate 5 'a')) := by
    refine .inr fun cell hcell => ?_
    cases hcell
    decide
  have hboth := backspaceUndoes_iff 0#32 0#32 (blocks_paints (twoColumns 3)) (by decide)
    (by decide) hreach hstring hstart
  exact (hboth.1 (hboth.2 ⟨by decide, by decide⟩)).mpr (by decide)

/-- In the last cell of the screen, a glyph is not taken back: the backspace scrolls. -/
theorem backspace_scrolls :
    PaintsCells (twoColumns 2) (blocks (twoColumns 2)) (fun s => s) false ∧
      ReachableCursor (twoColumns 2) 8 16 ∧ Printable 'a' ∧
      StartKept (typedAt (twoColumns 2) 8 16 ['a']) ∧
      ¬ Undone (twoColumns 2) (fun s => s) false (typedAt (twoColumns 2) 8 16 ['a'])
        (erased (twoColumns 2) (blocks (twoColumns 2)).tracking
          (typedAt (twoColumns 2) 8 16 ['a']) 1 0#32) := by
  refine ⟨blocks_paints _, ⟨[(['\n', ' '], 0#32)], rfl, rfl⟩, by decide, .inl rfl, fun h => ?_⟩
  exact absurd h.scrolls (by decide)

end Console

end KnutOS
