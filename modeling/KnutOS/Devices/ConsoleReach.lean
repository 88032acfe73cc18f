import KnutOS.Devices.ConsoleCursor

/-! Where the cursor of the console can be. -/
namespace KnutOS

/-- Only the cursor is of interest. -/
def noCanvas : Canvas Unit where
  putGlyph _ _ _ _ _ := ()
  moveOneRowUp _ := ()

/-- Some text that is printed after a reset leaves the cursor at `(x, y)`. -/
def ReachableCursor (g : Gfx) (x y : ℤ) : Prop :=
  ∃ calls, (printStrings g noCanvas ⟨0, 0, 0#32, ()⟩ calls).x = x ∧
    (printStrings g noCanvas ⟨0, 0, 0#32, ()⟩ calls).y = y

namespace Console

/-- No coordinate of a cell on the screen, or of the next one, leaves its `int16_t`. -/
structure SizeFits (g : Gfx) : Prop where
  width : g.width < 2 ^ 15
  height : g.height + 16 ≤ 2 ^ 15

/-- A negative column or line is not one of those that are counted from the corner. -/
structure Sound (g : Gfx) (x y : ℤ) : Prop where
  inRange : InRange x y
  left : x % 8 = 0 → 0 ≤ x
  top : y % 16 = 0 → 0 ≤ y
  bottom : g.height ≤ y → x + 8 ≤ g.width

variable {τ : Type} {D : Canvas τ} {d : Console τ} {g : Gfx} {unicode : Char} {fg : BitVec 32}
  {x y : ℤ}

theorem inRange_toInt16 (x y : ℤ) : InRange (toInt16 x) (toInt16 y) :=
  ⟨(toInt16_bounds x).1, (toInt16_bounds x).2, (toInt16_bounds y).1, (toInt16_bounds y).2⟩

theorem InRange.lineStart (h : InRange x y) : InRange 0 y :=
  ⟨by decide, by decide, h.top, h.bottom⟩

/-- The place of the next glyph. -/
def firstCell (g : Gfx) (x y : ℤ) : ℤ × ℤ :=
  if x + 8 ≤ g.width ∧ y < g.height then (x, y)
  else if g.width < x + 8 ∧ y + 16 < g.height then (0, y + 16)
  else (0, g.height - 16)

theorem placeCursor_firstCell (hr : InRange d.x d.y) (hH : 0 ≤ g.height)
    (hy : g.width < d.x + 8 → d.y + 16 < 2 ^ 15) :
    ((placeCursor g D d d.x d.y).x, (placeCursor g D d d.x d.y).y) = firstCell g d.x d.y := by
  rw [firstCell]
  split_ifs with hstay hnext
  · rw [placeCursor_stay hr hstay.1 hstay.2]
  · rw [placeCursor_next hr hnext.1 hnext.2 (hy hnext.1)]
  · by_cases hfit : d.x + 8 ≤ g.width
    · rw [placeCursor_below hr hfit (by omega) hH]
    · rw [placeCursor_bottom hr (by omega) (by omega) (hy (by omega)) hH]

/-- A cursor with room for a glyph. -/
structure SoundCell (g : Gfx) (x y : ℤ) : Prop extends Sound g x y where
  fits : x + 8 ≤ g.width
  onScreen : y < g.height

/-- Below a cursor on the screen there is room for another line. -/
theorem SizeFits.lineBelow (hg : SizeFits g) (h : Sound g x y) :
    g.width < x + 8 → y + 16 < 2 ^ 15 := by
  have hheight := hg.height
  have hbottom := h.bottom
  omega

theorem sound_lineStart (hW : 8 ≤ g.width) (hrow : y % 16 = 0 → 0 ≤ y) (htop : -2 ^ 15 ≤ y)
    (hbottom : y < 2 ^ 15) : Sound g 0 y :=
  ⟨⟨by decide, by decide, htop, hbottom⟩, by omega, hrow, by omega⟩

theorem SoundCell.lineStart (hW : 8 ≤ g.width) (h : SoundCell g x y) : SoundCell g 0 y :=
  ⟨sound_lineStart hW h.top h.inRange.top h.inRange.bottom, hW, h.onScreen⟩

theorem Sound.place (hW : 8 ≤ g.width) (hH : 16 ≤ g.height)
    (hy : g.width < d.x + 8 → d.y + 16 < 2 ^ 15) (h : Sound g d.x d.y) :
    SoundCell g (placeCursor g D d d.x d.y).x (placeCursor g D d d.x d.y).y := by
  have htop := h.inRange.top
  have hbottom := h.inRange.bottom
  have hrow := h.top
  rcases placeCursor_cases (D := D) h.inRange (by omega) hy h.bottom with ⟨hfit, hlow, hplace⟩ |
    ⟨hover, hlow, hplace⟩ | ⟨hover, hlast, hplace⟩
  · rw [hplace]
    exact ⟨h, hfit, hlow⟩
  · have hstart : Sound g 0 (d.y + 16) :=
      sound_lineStart hW (by omega) (by omega) (hy hover)
    rw [hplace]
    exact ⟨hstart, hW, hlow⟩
  · have hstart : Sound g 0 (g.height - 16) :=
      sound_lineStart hW (by omega) (by omega) (by omega)
    have hlow : g.height - 16 < g.height := by omega
    rw [hplace]
    exact ⟨hstart, hW, hlow⟩

theorem SoundCell.glyph (hx : d.x + 8 < 2 ^ 15) (h : SoundCell g d.x d.y) (hu : Glyph unicode) :
    Sound g (ssfnPutc D { d with fg := fg } unicode).x
      (ssfnPutc D { d with fg := fg } unicode).y := by
  have hfits := h.fits
  have hleft := h.inRange.left
  have hcolumn := h.left
  have hlow := h.onScreen
  have hx : toInt16 (d.x + 8) = d.x + 8 := toInt16_eq (by omega) hx
  have hnext : Sound g (d.x + 8) d.y :=
    ⟨⟨by omega, by omega, h.inRange.top, h.inRange.bottom⟩, by omega, h.top, by omega⟩
  rw [ssfnPutc_eq _ _ hu, hx]
  exact hnext

theorem SoundCell.erase (hwidth : g.width < 2 ^ 15) (hW : 8 ≤ g.width) (h : SoundCell g d.x d.y) :
    Sound g (eraseChar g D d).x (eraseChar g D d).y := by
  have hfits := h.fits
  have hcolumn := h.left
  have hrow := h.top
  have hlow := h.onScreen
  have hr := h.inRange
  have hbottom := hr.bottom
  by_cases hx : d.x = 0
  · by_cases hy : d.y = 0
    · rw [eraseChar_zero hx hy]
      exact h.toSound
    · have habove : toInt16 (d.y - 16) % 16 = 0 → 0 ≤ toInt16 (d.y - 16) := by
        rw [toInt16]
        omega
      have hend : Sound g (g.width - 8) (toInt16 (d.y - 16)) :=
        ⟨⟨by omega, by omega, (toInt16_bounds _).1, (toInt16_bounds _).2⟩, by omega, habove,
          by omega⟩
      rw [eraseChar_lineAbove hx hy, toInt16_eq (by omega) (by omega)]
      exact hend
  · have hleft := hr.left
    have hback : toInt16 (d.x - 8) % 8 = 0 → 0 ≤ toInt16 (d.x - 8) := by
      rw [toInt16]
      omega
    have hbefore : Sound g (toInt16 (d.x - 8)) d.y :=
      ⟨⟨(toInt16_bounds _).1, (toInt16_bounds _).2, hr.top, hr.bottom⟩, hback, hrow, by omega⟩
    rw [eraseChar_cellBefore hx]
    exact hbefore

theorem SoundCell.lineFeed (hg : SizeFits g) (hW : 8 ≤ g.width) (h : SoundCell g d.x d.y) :
    Sound g (ssfnPutc D { d with fg := fg } '\n').x (ssfnPutc D { d with fg := fg } '\n').y := by
  have hheight := hg.height
  have hrow := h.top
  have hlow := h.onScreen
  have hr := h.inRange.top
  have hy : toInt16 (d.y + 16) = d.y + 16 := toInt16_eq (by omega) (by omega)
  have hput : ssfnPutc D { d with fg := fg } '\n' =
      { d with fg := fg, x := 0, y := toInt16 (d.y + 16) } := rfl
  have hstart : Sound g 0 (d.y + 16) := sound_lineStart hW (by omega) (by omega) (by omega)
  rw [hput, hy]
  exact hstart

theorem SoundCell.carriageReturn (hW : 8 ≤ g.width) (h : SoundCell g d.x d.y) :
    Sound g (ssfnPutc D { d with fg := fg } '\r').x (ssfnPutc D { d with fg := fg } '\r').y :=
  sound_lineStart hW h.top h.inRange.top h.inRange.bottom

theorem Sound.printOne (hg : SizeFits g) (hW : 8 ≤ g.width) (hH : 16 ≤ g.height)
    (h : Sound g d.x d.y) (hu : unicode ≠ '\t') :
    Sound g (printOne g D d unicode d.x d.y fg).x (printOne g D d unicode d.x d.y fg).y := by
  have hcell : SoundCell g (placeCursor g D d d.x d.y).x (placeCursor g D d d.x d.y).y :=
    h.place hW hH (hg.lineBelow h)
  rw [KnutOS.printOne]
  split_ifs with hback
  · exact hcell.erase hg.width hW
  · by_cases hcr : unicode = '\r'
    · rw [hcr]
      exact hcell.carriageReturn hW
    · by_cases hlf : unicode = '\n'
      · rw [hlf]
        exact hcell.lineFeed hg hW
      · have hwidth := hg.width
        have hfits := hcell.fits
        exact hcell.glyph (by omega) ⟨hcr, hlf, hu, hback⟩

theorem inRange_printOne (hW : 8 ≤ g.width) : InRange (printOne g D d unicode d.x d.y fg).x
    (printOne g D d unicode d.x d.y fg).y := by
  have hr : InRange (placeCursor g D d d.x d.y).x (placeCursor g D d d.x d.y).y :=
    (placeCursor_placed D d hW).inRange
  rw [printOne]
  split_ifs with hback
  · by_cases hx : (placeCursor g D d d.x d.y).x = 0
    · by_cases hy : (placeCursor g D d d.x d.y).y = 0
      · rwa [eraseChar_zero hx hy]
      · rw [eraseChar_lineAbove hx hy]
        exact inRange_toInt16 _ _
    · rw [eraseChar_cellBefore hx]
      exact ⟨(toInt16_bounds _).1, (toInt16_bounds _).2, hr.top, hr.bottom⟩
  · rw [ssfnPutc]
    split_ifs with hcr hlf
    · exact hr.lineStart
    · exact (inRange_toInt16 0 _).lineStart
    · exact ⟨(toInt16_bounds _).1, (toInt16_bounds _).2, hr.top, hr.bottom⟩

theorem sound_of_reachable (hg : SizeFits g) (hW : 8 ≤ g.width) (hH : 16 ≤ g.height)
    (h : ReachableCursor g x y) : Sound g x y := by
  obtain ⟨calls, rfl, rfl⟩ := h
  have hstart : Sound g 0 0 :=
    ⟨⟨by decide, by decide, by decide, by decide⟩, by decide, by decide, by omega⟩
  exact printStrings_keeps (P := fun d => Sound g d.x d.y) (Q := fun _ => True)
    (fun _ h => (h.place hW hH (hg.lineBelow h)).toSound) trivial
    (fun _ _ _ _ hu h => h.printOne hg hW hH hu) (fun _ _ _ _ => trivial) hstart

theorem inRange_of_reachable (hW : 8 ≤ g.width) (h : ReachableCursor g x y) : InRange x y := by
  obtain ⟨calls, rfl, rfl⟩ := h
  have hstart : InRange 0 0 := ⟨by decide, by decide, by decide, by decide⟩
  exact printStrings_keeps (P := fun d => InRange d.x d.y) (Q := fun _ => True)
    (fun d _ => (placeCursor_placed noCanvas d hW).inRange) trivial
    (fun _ _ _ _ _ _ => inRange_printOne hW) (fun _ _ _ _ => trivial) hstart

end Console

end KnutOS
