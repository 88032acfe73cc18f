import KnutOS.Devices.ConsoleCursor

/-! On which screens the console draws inside the framebuffer. -/
namespace KnutOS

/-- The cells that glyphs are drawn to, by their upper left corners. -/
def cellLog : Canvas (List (ℤ × ℤ)) where
  putGlyph cells x y _ _ := cells ++ [(x, y)]
  moveOneRowUp cells := cells

/-- What is printed on the console: glyphs and three of the characters that move the cursor. -/
def ConsoleChar (unicode : Char) : Prop :=
  Console.Glyph unicode ∨ unicode = '\t' ∨ unicode = '\n' ∨ unicode = '\x08'

/-- The whole cell lies inside the framebuffer. -/
def OnScreen (g : Gfx) (cell : ℤ × ℤ) : Prop :=
  0 ≤ cell.1 ∧ cell.1 + glyphWidth ≤ g.width ∧ 0 ≤ cell.2 ∧ cell.2 + glyphHeight ≤ g.height

/-- Whatever is printed after a reset of the screen, every glyph is drawn on the screen. -/
def TextOnScreen (g : Gfx) : Prop :=
  ∀ (c : Console (List (ℤ × ℤ))) (calls : List (List Char × BitVec 32)),
    (∀ call ∈ calls, ∀ u ∈ call.1, ConsoleChar u) →
      ∀ cell ∈ (printStrings g cellLog (framebufferResetScreen (fun _ => []) c) calls).canvas,
        OnScreen g cell

namespace Console

/-- The screen is a grid of cells, or a single line of them. -/
structure GridFits (g : Gfx) : Prop where
  width : g.width < 2 ^ 15
  height : g.height < 2 ^ 15
  rows : g.height % 16 = 0
  columns : g.width % 8 = 0 ∨ g.height = 16

variable {g : Gfx} {c : Console (List (ℤ × ℤ))} {unicode : Char} {fg : BitVec 32}

/-- A corner of the grid. Below the last line, it is the one at the left edge. -/
structure OnGrid (g : Gfx) (x y : ℤ) : Prop where
  left : 0 ≤ x
  right : x ≤ g.width
  column : x % 8 = 0
  top : 0 ≤ y
  row : y % 16 = 0
  bottom : y < g.height ∨ y = g.height ∧ x = 0

/-- The cursor is on the grid, and everything drawn is on the screen. -/
structure Tidy (g : Gfx) (c : Console (List (ℤ × ℤ))) : Prop where
  cursor : OnGrid g c.x c.y
  drawn : ∀ cell ∈ c.canvas, OnScreen g cell

/-- There is a cell at the cursor. -/
structure TidyCell (g : Gfx) (c : Console (List (ℤ × ℤ))) : Prop extends Tidy g c where
  fits : c.x + 8 ≤ g.width
  onScreen : c.y < g.height

variable {x y : ℤ}

theorem onGrid_lineStart (hW : 8 ≤ g.width) (hrow : y % 16 = 0) (htop : 0 ≤ y)
    (hlow : y ≤ g.height) : OnGrid g 0 y := ⟨by omega, by omega, by omega, htop, hrow, by omega⟩

theorem OnGrid.onScreen (hg : GridFits g) (h : OnGrid g x y) (hfit : x + 8 ≤ g.width)
    (hlow : y < g.height) : OnScreen g (x, y) := by
  have hrows := hg.rows
  have hrow := h.row
  refine ⟨h.left, hfit, h.top, ?_⟩
  rw [glyphHeight]
  omega

theorem OnGrid.inRange (hg : GridFits g) (h : OnGrid g x y) : InRange x y := by
  have hW := hg.width
  have hH := hg.height
  have hx := h.right
  have hleft := h.left
  have htop := h.top
  rcases h.bottom with hlow | ⟨hlow, _⟩ <;> exact ⟨by omega, by omega, by omega, by omega⟩

theorem drawn_append {cells : List (ℤ × ℤ)} (h : ∀ cell ∈ cells, OnScreen g cell)
    (hcell : OnScreen g (x, y)) : ∀ cell ∈ cells ++ [(x, y)], OnScreen g cell := by
  intro cell hmem
  rcases List.mem_append.mp hmem with hmem | hmem
  · exact h cell hmem
  · rw [List.mem_singleton.mp hmem]
    exact hcell

theorem Tidy.place (hg : GridFits g) (hW : 8 ≤ g.width) (hH : 16 ≤ g.height) (h : Tidy g c) :
    TidyCell g (placeCursor g cellLog c c.x c.y) := by
  have hrows := hg.rows
  have hheight := hg.height
  have hrow := h.cursor.row
  have htop := h.cursor.top
  have hpos : 0 ≤ g.height := by omega
  have hlast := h.cursor.bottom
  rcases placeCursor_cases (D := cellLog) (h.cursor.inRange hg) hpos (by omega) (by omega) with
    ⟨hfit, hlow, hplace⟩ | ⟨_, hlow, hplace⟩ | ⟨_, _, hplace⟩
  · rw [hplace]
    exact ⟨h, hfit, hlow⟩
  · have hgrid : OnGrid g 0 (c.y + 16) := onGrid_lineStart hW (by omega) (by omega) (by omega)
    rw [hplace]
    exact ⟨⟨hgrid, h.drawn⟩, hW, hlow⟩
  · have hgrid : OnGrid g 0 (g.height - 16) :=
      onGrid_lineStart hW (by omega) (by omega) (by omega)
    have hlow : g.height - 16 < g.height := by omega
    rw [hplace]
    exact ⟨⟨hgrid, h.drawn⟩, hW, hlow⟩

theorem TidyCell.glyph (hg : GridFits g) (h : TidyCell g c) (hu : Glyph unicode) :
    Tidy g (ssfnPutc cellLog { c with fg := fg } unicode) := by
  have hW := hg.width
  have hleft := h.cursor.left
  have hcolumn := h.cursor.column
  have hfits := h.fits
  have hx : toInt16 (c.x + 8) = c.x + 8 := toInt16_eq (by omega) (by omega)
  have hgrid : OnGrid g (c.x + 8) c.y :=
    ⟨by omega, hfits, by omega, h.cursor.top, h.cursor.row, .inl h.onScreen⟩
  rw [ssfnPutc_eq _ _ hu, hx]
  exact ⟨hgrid, drawn_append h.drawn (h.cursor.onScreen hg hfits h.onScreen)⟩

theorem TidyCell.lineFeed (hg : GridFits g) (hW : 8 ≤ g.width) (h : TidyCell g c) :
    Tidy g (ssfnPutc cellLog { c with fg := fg } '\n') := by
  have hH := hg.height
  have hrows := hg.rows
  have htop := h.cursor.top
  have hrow := h.cursor.row
  have hlow := h.onScreen
  have hy : toInt16 (c.y + 16) = c.y + 16 := toInt16_eq (by omega) (by omega)
  have hput : ssfnPutc cellLog { c with fg := fg } '\n' =
      { c with fg := fg, x := 0, y := toInt16 (c.y + 16) } := rfl
  have hgrid : OnGrid g 0 (c.y + 16) := onGrid_lineStart hW (by omega) (by omega) (by omega)
  rw [hput, hy]
  exact ⟨hgrid, h.drawn⟩

/-- A backspace that goes to the line above ends up on the grid, because the width is a multiple of
the glyph width, or because there is no line above. -/
theorem TidyCell.erase (hg : GridFits g) (hW : 8 ≤ g.width) (h : TidyCell g c) :
    Tidy g (eraseChar g cellLog c) := by
  have hwidth := hg.width
  have hcolumn := h.cursor.column
  have hleft := h.cursor.left
  have hfits := h.fits
  have htop := h.cursor.top
  have hrow := h.cursor.row
  have hlow := h.onScreen
  have hheight := hg.height
  by_cases hx : c.x = 0
  · by_cases hy : c.y = 0
    · rw [eraseChar_zero hx hy]
      exact h.toTidy
    · have hwide : g.width % 8 = 0 := by
        rcases hg.columns with hwide | hsingle
        · exact hwide
        · omega
      have hend : toInt16 (g.width - 8) = g.width - 8 := toInt16_eq (by omega) (by omega)
      have habove : toInt16 (c.y - 16) = c.y - 16 := toInt16_eq (by omega) (by omega)
      have hcell : OnGrid g (g.width - 8) (c.y - 16) :=
        ⟨by omega, by omega, by omega, by omega, by omega, .inl (by omega)⟩
      rw [eraseChar_lineAbove hx hy, hend, habove]
      exact ⟨hcell, drawn_append h.drawn (hcell.onScreen hg (by omega) (by omega))⟩
  · have hback : toInt16 (c.x - 8) = c.x - 8 := toInt16_eq (by omega) (by omega)
    have hcell : OnGrid g (c.x - 8) c.y :=
      ⟨by omega, by omega, by omega, htop, hrow, .inl hlow⟩
    rw [eraseChar_cellBefore hx, hback]
    exact ⟨hcell, drawn_append h.drawn (hcell.onScreen hg (by omega) hlow)⟩

theorem Tidy.printOne (hg : GridFits g) (hW : 8 ≤ g.width) (hH : 16 ≤ g.height) (h : Tidy g c)
    (hu : ConsoleChar unicode) (htab : unicode ≠ '\t') :
    Tidy g (printOne g cellLog c unicode c.x c.y fg) := by
  have hcell := h.place hg hW hH
  rcases hu with hu | rfl | rfl | rfl
  · rw [printOne_glyph hu]
    exact hcell.glyph hg hu
  · exact absurd rfl htab
  · exact hcell.lineFeed hg hW
  · exact hcell.erase hg hW

theorem textOnScreen_of_gridFits (hg : GridFits g) (hW : 8 ≤ g.width) (hH : 16 ≤ g.height) :
    TextOnScreen g := by
  intro c calls hcalls
  have hgrid : OnGrid g 0 0 := onGrid_lineStart hW (by decide) (by decide) (by omega)
  have hstart : Tidy g (framebufferResetScreen (fun _ => []) c) :=
    ⟨hgrid, by simp [framebufferResetScreen]⟩
  have hend : Tidy g (printStrings g cellLog (framebufferResetScreen (fun _ => []) c) calls) :=
    printStrings_keeps (fun _ h => (h.place hg hW hH).toTidy) (.inl (by decide))
      (fun _ _ _ hu htab h => h.printOne hg hW hH hu htab) hcalls hstart
  exact hend.drawn

/-! On the other screens, some text takes the cursor to a place from which the next glyph is drawn
outside. -/

/-- After a reset. -/
def resetConsole : Console (List (ℤ × ℤ) × ℕ) := ⟨0, 0, 0#32, ([], 0)⟩

/-- What has been printed since the reset. -/
def printed (g : Gfx) (string : List Char) : Console (List (ℤ × ℤ) × ℕ) :=
  framebufferPrintString g cellLog.counting resetConsole string 0#32

variable {string : List Char} {n k : ℕ}

theorem printed_append (string : List Char) (unicode : Char) :
    printed g (string ++ [unicode]) =
      framebufferPrintChar g cellLog.counting (printed g string) unicode (printed g string).x
        (printed g string).y 0#32 := by
  rw [printed, framebufferPrintString, List.foldl_append]
  rfl

theorem onScreen_of_printed (h : TextOnScreen g) (hs : ∀ u ∈ string, ConsoleChar u)
    (hat : (printed g string).At x y n) (hr : InRange x y) (hfit : x + 8 ≤ g.width)
    (hlow : y < g.height) : OnScreen g (x, y) := by
  obtain ⟨rfl, rfl, rfl⟩ := hat
  have hglyph : Glyph 'a' := by decide
  have hall : ∀ call ∈ [(string ++ ['a'], 0#32)], ∀ u ∈ call.1, ConsoleChar u := by
    intro call hcall u hu
    rw [List.mem_singleton.mp hcall] at hu
    rcases List.mem_append.mp hu with hu | hu
    · exact hs u hu
    · rw [List.mem_singleton.mp hu]
      exact .inl (by decide)
  apply h resetConsole.plain _ hall
  have hplain : printStrings g cellLog (framebufferResetScreen (fun _ => []) resetConsole.plain)
      [(string ++ ['a'], 0#32)] = (printed g (string ++ ['a'])).plain :=
    (plain_framebufferPrintString g cellLog resetConsole _ _).symm
  rw [hplain, printed_append, printChar_glyph hglyph, printOne_glyph hglyph,
    placeCursor_stay hr hfit hlow, ssfnPutc_eq _ _ hglyph]
  exact List.mem_append_right _ List.mem_cons_self

theorem consoleChar_replicate {unicode : Char} (hu : ConsoleChar unicode) (k : ℕ) :
    ∀ u ∈ List.replicate k unicode, ConsoleChar u := by
  intro u hmem
  rwa [List.eq_of_mem_replicate hmem]

section

variable (hat : (printed g string).At x y n) (hr : InRange x y) (hfit : x + 8 ≤ g.width)
  (hlow : y < g.height)

include hat hr hfit hlow

theorem printed_placed : placeCursor g cellLog.counting (printed g string) (printed g string).x
    (printed g string).y = printed g string := by
  obtain ⟨rfl, rfl, rfl⟩ := hat
  exact placeCursor_stay hr hfit hlow

theorem printed_glyph : (printed g (string ++ ['a'])).At (toInt16 (x + 8)) y n := by
  have hglyph : Glyph 'a' := by decide
  rw [printed_append, printChar_glyph hglyph, printOne_glyph hglyph,
    printed_placed hat hr hfit hlow, ssfnPutc_eq _ _ hglyph]
  obtain ⟨rfl, rfl, rfl⟩ := hat
  exact ⟨rfl, rfl, rfl⟩

theorem printed_lineFeed : (printed g (string ++ ['\n'])).At 0 (toInt16 (y + 16)) n := by
  rw [printed_append, framebufferPrintChar, if_neg (by decide), KnutOS.printOne,
    if_neg (by decide), printed_placed hat hr hfit hlow]
  obtain ⟨rfl, rfl, rfl⟩ := hat
  exact ⟨rfl, rfl, rfl⟩

theorem printed_backspace : (printed g (string ++ ['\x08'])) = eraseChar g cellLog.counting
    (printed g string) := by
  rw [printed_append, framebufferPrintChar, if_neg (by decide), KnutOS.printOne, if_pos rfl,
    printed_placed hat hr hfit hlow]

end

/-- Line feeds go down, as far as there are lines. -/
theorem printed_lineFeeds (hW : 8 ≤ g.width) (hk : 16 * (k : ℤ) < g.height + 16)
    (hk' : 16 * (k : ℤ) ≤ 2 ^ 15) :
    (printed g (List.replicate k '\n')).At 0 (toInt16 (16 * k)) 0 := by
  induction k with
  | zero => exact ⟨rfl, rfl, rfl⟩
  | succ k ih =>
    have hat := ih (by omega) (by omega)
    have hy : toInt16 (16 * k) = 16 * k := toInt16_eq (by omega) (by omega)
    have hnext : 16 * ((k + 1 : ℕ) : ℤ) = 16 * k + 16 := by omega
    rw [hy] at hat
    rw [List.replicate_succ', hnext]
    exact printed_lineFeed hat ⟨by decide, by decide, by omega, by omega⟩ (by omega) (by omega)

/-- A line below `2 ^ 15` gets a negative number. -/
theorem height_lt_of_textOnScreen (h : TextOnScreen g) (hW : 8 ≤ g.width) :
    g.height < 2 ^ 15 := by
  by_contra hle
  have hat : (printed g (List.replicate 2048 '\n')).At 0 (-2 ^ 15) 0 :=
    printed_lineFeeds hW (by omega) (by decide)
  have hcell := onScreen_of_printed h (consoleChar_replicate (.inr (.inr (.inl rfl))) _) hat
    ⟨by decide, by decide, by decide, by decide⟩ (by omega) (by omega)
  exact absurd hcell.2.2.1 (by decide)

/-- The last line is cut off. -/
theorem rows_of_textOnScreen (h : TextOnScreen g) (hW : 8 ≤ g.width) (hH : 16 ≤ g.height) :
    g.height % 16 = 0 := by
  have hheight := height_lt_of_textOnScreen h hW
  obtain ⟨k, hk⟩ := Int.eq_ofNat_of_zero_le (show 0 ≤ g.height / 16 by omega)
  have hat : (printed g (List.replicate k '\n')).At 0 (toInt16 (16 * k)) 0 :=
    printed_lineFeeds hW (by omega) (by omega)
  rw [toInt16_eq (by omega) (by omega)] at hat
  by_contra hne
  have hcell := onScreen_of_printed h (consoleChar_replicate (.inr (.inr (.inl rfl))) _) hat
    ⟨by decide, by decide, by omega, by omega⟩ (by omega) (by omega)
  have hbottom := hcell.2.2.2
  rw [glyphHeight] at hbottom
  omega

theorem printed_glyphs (hH : 0 < g.height) (hk : 8 * (k : ℤ) < g.width + 8)
    (hk' : 8 * (k : ℤ) ≤ 2 ^ 15) (hfit : 8 * (k : ℤ) ≤ g.width) :
    (printed g (List.replicate k 'a')).At (toInt16 (8 * k)) 0 0 := by
  induction k with
  | zero => exact ⟨rfl, rfl, rfl⟩
  | succ k ih =>
    have hat := ih (by omega) (by omega) (by omega)
    have hx : toInt16 (8 * k) = 8 * k := toInt16_eq (by omega) (by omega)
    have hnext : 8 * ((k + 1 : ℕ) : ℤ) = 8 * k + 8 := by omega
    rw [hx] at hat
    rw [List.replicate_succ', hnext]
    exact printed_glyph hat ⟨by omega, by omega, by decide, by decide⟩ (by omega) hH

/-- A column behind `2 ^ 15` gets a negative number. -/
theorem width_lt_of_textOnScreen (h : TextOnScreen g) (hH : 16 ≤ g.height) : g.width < 2 ^ 15 := by
  by_contra hle
  have hat : (printed g (List.replicate 4096 'a')).At (-2 ^ 15) 0 0 :=
    printed_glyphs (by omega) (by omega) (by decide) (by omega)
  have hcell := onScreen_of_printed h (consoleChar_replicate (.inl (by decide)) _) hat
    ⟨by decide, by decide, by decide, by decide⟩ (by omega) (by omega)
  exact absurd hcell.1 (by decide)

/-- Backspaces go left, past the edge if they do not come to it. -/
theorem printed_backspaces (hat : (printed g string).At x y n) (hr : InRange x y)
    (hfit : x + 8 ≤ g.width) (hlow : y < g.height) (hx : x % 8 ≠ 0) (hk : -2 ^ 15 ≤ x - 8 * k) :
    (printed g (string ++ List.replicate k '\x08')).At (x - 8 * k) y n := by
  induction k with
  | zero => simpa using hat
  | succ k ih =>
    have hright := hr.right
    have hlast := ih (by omega)
    have hnext : x - 8 * ((k + 1 : ℕ) : ℤ) = x - 8 * k - 8 := by omega
    rw [List.replicate_succ', ← List.append_assoc, hnext,
      printed_backspace hlast ⟨by omega, by omega, hr.top, hr.bottom⟩ (by omega) hlow]
    obtain ⟨hx', rfl, rfl⟩ := hlast
    rw [eraseChar_cellBefore (by omega), hx']
    exact ⟨toInt16_eq (by omega) (by omega), rfl, rfl⟩

/-- A backspace at the beginning of the second line goes to a column that may not be on the grid. -/
theorem printed_lineFeed_backspace (hW : 8 ≤ g.width) (hH : 32 ≤ g.height)
    (hW' : g.width < 2 ^ 15) : (printed g ['\n', '\x08']).At (g.width - 8) 0 0 := by
  have hstart : (printed g []).At 0 0 0 := ⟨rfl, rfl, rfl⟩
  have hbelow : (printed g ['\n']).At 0 16 0 :=
    printed_lineFeed hstart ⟨by decide, by decide, by decide, by decide⟩ hW (by omega)
  have hup : (eraseChar g cellLog.counting (printed g ['\n'])).At (g.width - 8) 0 0 :=
    eraseChar_up hbelow (by decide) (by decide) (by decide) hW hW'
  rwa [← printed_backspace hbelow ⟨by decide, by decide, by decide, by decide⟩ hW (by omega)] at hup

theorem columns_of_textOnScreen (h : TextOnScreen g) (hW : 8 ≤ g.width) (hH : 16 ≤ g.height) :
    g.width % 8 = 0 ∨ g.height = 16 := by
  have hwidth := width_lt_of_textOnScreen h hH
  have hrows := rows_of_textOnScreen h hW hH
  by_contra hnot
  obtain ⟨k, hk⟩ := Int.eq_ofNat_of_zero_le (show 0 ≤ g.width / 8 by omega)
  have hat := printed_lineFeed_backspace hW (by omega) hwidth
  have hleft := printed_backspaces (k := k) hat ⟨by omega, by omega, by decide, by decide⟩
    (by omega) (by omega) (by omega) (by omega)
  have hall : ∀ u ∈ ['\n', '\x08'] ++ List.replicate k '\x08', ConsoleChar u := by
    have hback : ConsoleChar '\x08' := .inr (.inr (.inr rfl))
    intro u hu
    rcases List.mem_append.mp hu with hu | hu
    · rcases List.mem_cons.mp hu with rfl | hu
      · exact .inr (.inr (.inl rfl))
      · rwa [List.mem_singleton.mp hu]
    · exact consoleChar_replicate hback k u hu
  have hcell := onScreen_of_printed h hall hleft ⟨by omega, by omega, by decide, by decide⟩
    (by omega) (by omega)
  have hneg := hcell.1
  omega

/-- On these framebuffers, and on no others, all text is on the screen. -/
theorem textOnScreen_iff (g : Gfx) (hW : 8 ≤ g.width) (hH : 16 ≤ g.height) : TextOnScreen g ↔
    g.width < 2 ^ 15 ∧ g.height < 2 ^ 15 ∧ g.height % 16 = 0 ∧
      (g.width % 8 = 0 ∨ g.height = 16) := by
  constructor
  · intro h
    exact ⟨width_lt_of_textOnScreen h hH, height_lt_of_textOnScreen h hW,
      rows_of_textOnScreen h hW hH, columns_of_textOnScreen h hW hH⟩
  · rintro ⟨hwidth, hheight, hrows, hcolumns⟩
    exact textOnScreen_of_gridFits ⟨hwidth, hheight, hrows, hcolumns⟩ hW hH

theorem textOnScreen_vga : TextOnScreen ⟨640#16, 480#16⟩ :=
  (textOnScreen_iff ⟨640#16, 480#16⟩ (by decide) (by decide)).mpr (by decide)

/-- The last line of a screen of 100 lines is 4 pixels high. -/
theorem text_cut_off : ¬ ∀ g : Gfx, 8 ≤ g.width → 16 ≤ g.height → TextOnScreen g := by
  intro h
  have hrows := rows_of_textOnScreen (h ⟨640#16, 100#16⟩ (by decide) (by decide)) (by decide)
    (by decide)
  exact absurd hrows (by decide)

end Console

end KnutOS
