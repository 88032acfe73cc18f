import KnutOS.Devices.ConsoleCursor
import KnutOS.Foundation.Run
import KnutOS.Shell.ShellScreen
import Mathlib.Data.Prod.Lex

/-! The barrier of `shell_print_char` against the end of the prompt, which moves with the screen. -/
namespace KnutOS

open Foundation

variable {σ : Type} {g : Gfx} {C : Canvas σ} {x y yBarrier row : ℤ} {n : ℕ} {key : Char}

/-- The cursor in the content of the screen: its line, counted over all scrolls, and its column. -/
def Console.position (c : Console (σ × ℕ)) : ℤ ×ₗ ℤ := toLex (c.y + 16 * c.canvas.2, c.x)

/-- The shell on a screen that counts its scrolls, and where the current prompt ended. -/
structure Session (σ : Type) where
  shell : Shell (σ × ℕ)
  prompt : ℤ ×ₗ ℤ
  deriving DecidableEq

/-- Without the count. -/
def Shell.plain (s : Shell (σ × ℕ)) : Shell σ :=
  ⟨s.console.plain, s.promptXBarrier, s.promptYBarrier⟩

namespace Session

/-- The shell after a call of `shell_prompt`. -/
def start (g : Gfx) (C : Canvas σ) (s : Shell (σ × ℕ)) : Session σ :=
  ⟨shellPrompt g C.counting s, (shellPrompt g C.counting s).console.position⟩

/-- A key event. A return makes a new prompt. -/
def press (g : Gfx) (C : Canvas σ) (s : Session σ) (key : Char) : Session σ :=
  ⟨shellPrintChar g C.counting s.shell key,
    if key = '\r' then (shellPrintChar g C.counting s.shell key).console.position else s.prompt⟩

theorem plain_shellPrompt (s : Shell (σ × ℕ)) :
    (shellPrompt g C.counting s).plain = shellPrompt g C s.plain := by
  have hline : (shellPrompt g C.counting s).console.plain = (shellPrompt g C s.plain).console := by
    rw [shellPrompt, Console.plain_framebufferPrintString, Console.plain_framebufferPrintString]
    rfl
  exact congrArg (fun c => (⟨c, c.x, c.y⟩ : Shell σ)) hline

theorem plain_shellPrintChar (s : Shell (σ × ℕ)) (key : Char) :
    (shellPrintChar g C.counting s key).plain = shellPrintChar g C s.plain key := by
  have hprinted : ∀ string yBarrier,
      Shell.plain ⟨framebufferPrintString g C.counting s.console string gfxBlue, s.promptXBarrier,
          yBarrier⟩ =
        ⟨framebufferPrintString g C s.plain.console string gfxBlue, s.promptXBarrier,
          yBarrier⟩ := by
    intro string yBarrier
    rw [Shell.plain, Console.plain_framebufferPrintString]
    rfl
  have hx : s.plain.console.x = s.console.x := rfl
  have hy : s.plain.console.y = s.console.y := rfl
  have hxb : s.plain.promptXBarrier = s.promptXBarrier := rfl
  have hyb : s.plain.promptYBarrier = s.promptYBarrier := rfl
  rw [shellPrintChar, shellPrintChar, hx, hy, hxb, hyb]
  split_ifs
  · rfl
  · exact (plain_shellPrompt _).trans (congrArg (shellPrompt g C) (hprinted ['\n'] _))
  · exact (plain_shellPrompt _).trans (congrArg (shellPrompt g C) (hprinted ['\n'] _))
  · rfl
  · exact hprinted ['\x08'] _
  · exact hprinted [key] _
  · exact hprinted [key] _

/-- The count is only a record: a key does to a session what it does to the shell without it. -/
theorem plain_press (s : Session σ) (key : Char) :
    (s.press g C key).shell.plain = shellPrintChar g C s.shell.plain key :=
  plain_shellPrintChar s.shell key

/-- What a keyboard sends: nothing, a return, a backspace, a tab or a printable character. -/
def Key (key : Char) : Prop :=
  key = '\x00' ∨ key = '\r' ∨ key = '\x08' ∨ key = '\t' ∨ Console.Printable key

instance (key : Char) : Decidable (Key key) := inferInstanceAs (Decidable (_ ∨ _))

/-- A backspace leaves the cursor at or behind the end of the prompt, and it changes nothing only at
that end. -/
def BackspaceSafe (g : Gfx) (C : Canvas σ) (s : Session σ) : Prop :=
  s.prompt ≤ (s.press g C '\x08').shell.console.position ∧
    ((s.press g C '\x08').shell = s.shell → s.shell.console.position = s.prompt)

/-- The cursor `(x, y)` after `n` scrolls, behind a prompt that ended in line `row`, and the
barrier. A full last line will scroll with the next glyph, which the barrier has done before. -/
structure Synced (g : Gfx) (x y : ℤ) (n : ℕ) (yBarrier row : ℤ) : Prop where
  inRange : Console.InRange x y
  column : x % 8 = 0
  left : 0 ≤ x
  right : x ≤ g.width
  onScreen : y < g.height
  line : (y + 16 * n - row) % 16 = 0
  behind : row < y + 16 * n ∨ row = y + 16 * n ∧ 24 ≤ x
  narrow : row < y + 16 * n → g.width < 2 ^ 15
  barrier : yBarrier + 16 * n = row - if x = g.width ∧ y + 16 = g.height then 16 else 0

def Inv (g : Gfx) (s : Session σ) : Prop :=
  ∃ x y n row, s.shell.console.At x y n ∧ s.shell.promptXBarrier = 24 ∧
    s.prompt = toLex (row, 24) ∧ Synced g x y n s.shell.promptYBarrier row

/-- The barrier keeps pace with the screen under this key. -/
structure KeepsPace (g : Gfx) (s : Shell (σ × ℕ)) (key : Char) : Prop where
  /-- No coordinate overflows. -/
  room : s.console.x + 8 * Console.cells key < 2 ^ 15 ∧ -2 ^ 31 ≤ s.promptYBarrier - 16 ∧
    (g.width < s.console.x + 8 * Console.cells key → s.console.y + 16 < 2 ^ 15)
  /-- If the screen scrolls, its lines are full and its last line ends with the screen. -/
  flush : g.width < s.console.x + 8 * Console.cells key → g.height ≤ s.console.y + 16 →
    g.width % 8 = 0 ∧ s.console.y + 16 = g.height
  /-- A tab that fills the last line begins in its last column or behind it. -/
  tab : s.console.y + 16 = g.height → g.width ≤ s.console.x + 8 * Console.cells key →
    g.width ≤ s.console.x + 8
  /-- A backspace that goes to the line above finds it, and finds it full. -/
  back : key = '\x08' →
    (s.console.x = 0 → g.width % 8 = 0 ∧ s.console.y ≠ 0 ∧ -2 ^ 15 ≤ s.console.y - 16) ∧
      (g.width < s.console.x + 8 → g.width % 8 = 0 ∧ s.console.y + 16 ≠ 0)

/-- Any key event. -/
def Press (g : Gfx) (C : Canvas σ) (s : Session σ) (key : Char) (t : Session σ) : Prop :=
  Key key ∧ t = s.press g C key

/-- A return may come at any time, and so may an event without a character. -/
def PacedPress (g : Gfx) (C : Canvas σ) (s : Session σ) (key : Char) (t : Session σ) : Prop :=
  Press g C s key t ∧ (key = '\x00' ∨ key = '\r' ∨ KeepsPace g s.shell key)

/-- The first line of the prompt ends, and its second line begins at the left edge. -/
theorem shellPrompt_console {τ : Type} (D : Canvas τ) (s : Shell τ) : ∃ above : Console τ,
    above.x = 0 ∧ Console.InRange 0 above.y ∧ (shellPrompt g D s).console =
      framebufferPrintString g D above ['└', '→', ' '] gfxPurple := by
  have habove := Console.printString_lineFeed g D s.console
    ['\n', '┌', '─', ' ', 'K', 'n', 'u', 't', 'O', 'S'] gfxPurple
  exact ⟨_, habove.1, habove.2, rfl⟩

theorem shellPrompt_at (C : Canvas σ) (hW : 72 < g.width) (hH : 48 ≤ g.height)
    (s : Shell (σ × ℕ)) : ∃ y n, y < g.height ∧ Console.InRange 24 y ∧
      (shellPrompt g C.counting s).console.At 24 y n := by
  obtain ⟨above, hx, hr, hprompt⟩ := shellPrompt_console (g := g) C.counting s
  have hglyphs : ∀ u ∈ ['└', '→', ' '], Console.Glyph u := by
    intro u hu
    simp only [List.mem_cons, List.not_mem_nil, or_false] at hu
    rcases hu with rfl | rfl | rfl <;> decide
  have hline : ∃ y n, y < g.height ∧ Console.InRange 8 y ∧
      (framebufferPrintString g C.counting above ['└', '→', ' '] gfxPurple).At 24 y n :=
    Console.printString_lineStart (l := ['→', ' ']) ⟨hx, rfl, rfl⟩ hr hglyphs (by simp; omega)
      (by omega) (by decide)
  obtain ⟨y, n, hscreen, hr8, hat⟩ := hline
  rw [hprompt]
  exact ⟨y, n, hscreen, ⟨by decide, by decide, hr8.top, hr8.bottom⟩, hat⟩

theorem prompt_inv {s : Session σ} (hW : 72 < g.width) (hH : 48 ≤ g.height) (r : Shell (σ × ℕ))
    (hs : s.shell = shellPrompt g C.counting r) (hp : s.prompt = s.shell.console.position) :
    Inv g s := by
  obtain ⟨y, n, hscreen, hr, hx, hy, hn⟩ := shellPrompt_at C hW hH r
  rw [← hs] at hx hy hn
  have hxb : s.shell.promptXBarrier = s.shell.console.x := by rw [hs]; rfl
  have hyb : s.shell.promptYBarrier = s.shell.console.y := by rw [hs]; rfl
  refine ⟨24, y, n, y + 16 * n, ⟨hx, hy, hn⟩, hxb.trans hx, ?_, ?_⟩
  · rw [hp, Console.position, hx, hy, hn]
  · rw [hyb, hy]
    refine ⟨hr, by decide, by decide, by omega, hscreen, by omega, .inr ⟨rfl, le_rfl⟩, by omega, ?_⟩
    split <;> omega

/-- Glyphs that stay on their line. -/
theorem Synced.stay (h : Synced g x y n yBarrier row) {k : ℕ} (hk : 1 ≤ k)
    (hfit : x + 8 * k ≤ g.width) (hx : x + 8 * k < 2 ^ 15)
    (htab : y + 16 = g.height → g.width ≤ x + 8 * k → g.width ≤ x + 8) :
    Synced g (x + 8 * k) y n
      (yBarrier - if y + 16 = g.height ∧ x + 8 = g.width then 16 else 0) row := by
  obtain ⟨⟨hlo, hhi, htop, hbottom⟩, hcol, hleft, hright, hscreen, hline, hbehind, hnarrow, hbar⟩ := h
  refine ⟨⟨?_, ?_, ?_, ?_⟩, ?_, ?_, ?_, ?_, ?_, ?_, ?_, ?_⟩ <;> omega

/-- Glyphs that go to the next line. -/
theorem Synced.wrap (h : Synced g x y n yBarrier row) (hW : 72 < g.width) {k m : ℕ} (hk : k ≤ 4)
    (hm : m < k) (hover : g.width < x + 8 * k) (hx : x + 8 * k < 2 ^ 15) (hrow : y + 16 < g.height)
    (hy : y + 16 < 2 ^ 15) :
    Synced g (8 + 8 * m) (y + 16) n
      (yBarrier - if y + 16 = g.height ∧ x + 8 = g.width then 16 else 0) row := by
  obtain ⟨⟨hlo, hhi, htop, hbottom⟩, hcol, hleft, hright, hscreen, hline, hbehind, hnarrow, hbar⟩ := h
  refine ⟨⟨?_, ?_, ?_, ?_⟩, ?_, ?_, ?_, ?_, ?_, ?_, ?_, ?_⟩ <;> omega

/-- Glyphs that scroll the screen. -/
theorem Synced.scroll (h : Synced g x y n yBarrier row) (hW : 72 < g.width) (hH : 48 ≤ g.height)
    {k m : ℕ} (hk : k ≤ 4) (hm : m < k) (hover : g.width < x + 8 * k) (hx : x + 8 * k < 2 ^ 15)
    (hy : y + 16 < 2 ^ 15) (hfull : g.width % 8 = 0) (hflush : y + 16 = g.height)
    (htab : g.width ≤ x + 8) :
    Synced g (8 + 8 * m) (g.height - 16) (n + 1)
      (yBarrier - if y + 16 = g.height ∧ x + 8 = g.width then 16 else 0) row := by
  obtain ⟨⟨hlo, hhi, htop, hbottom⟩, hcol, hleft, hright, hscreen, hline, hbehind, hnarrow, hbar⟩ := h
  refine ⟨⟨?_, ?_, ?_, ?_⟩, ?_, ?_, ?_, ?_, ?_, ?_, ?_, ?_⟩ <;> omega

/-- No cursor behind the prompt is before it. -/
theorem Inv.prompt_le {s : Session σ} (h : Inv g s) : s.prompt ≤ s.shell.console.position := by
  obtain ⟨x, y, n, row, ⟨hx, hy, hn⟩, _, hp, hsync⟩ := h
  rw [hp, Console.position, hx, hy, hn, Prod.Lex.toLex_le_toLex]
  exact hsync.behind

/-- The glyphs of a key take the barrier along. -/
theorem Synced.print {c : Console (σ × ℕ)} {unicode : Char} {k : ℕ} {fg : BitVec 32}
    (h : Synced g x y n yBarrier row) (hat : c.At x y n) (hu : Console.Glyph unicode)
    (hW : 72 < g.width) (hH : 48 ≤ g.height) (hk1 : 1 ≤ k) (hk4 : k ≤ 4) (hx : x + 8 * k < 2 ^ 15)
    (hroom : g.width < x + 8 * k → y + 16 < 2 ^ 15)
    (hflush : g.width < x + 8 * k → g.height ≤ y + 16 → g.width % 8 = 0 ∧ y + 16 = g.height)
    (htab : y + 16 = g.height → g.width ≤ x + 8 * k → g.width ≤ x + 8) :
    ∃ x' y' n', (Console.printMany g C.counting unicode fg k c).At x' y' n' ∧
      Synced g x' y' n' (yBarrier - if y + 16 = g.height ∧ x + 8 = g.width then 16 else 0) row := by
  by_cases hfit : x + 8 * k ≤ g.width
  · have hat' : (Console.printMany g C.counting unicode fg k c).At (x + 8 * k) y n :=
      Console.printMany_stay hat h.inRange hu hfit h.onScreen hx
    exact ⟨_, _, _, hat', h.stay hk1 hfit hx htab⟩
  have hover : g.width < x + 8 * k := Int.not_le.mp hfit
  have hy := hroom hover
  by_cases hrow : y + 16 < g.height
  · obtain ⟨m, hm, hat'⟩ := Console.printMany_wrap (C := C) hat h.inRange hu h.left h.right
      (by omega) hover hx hrow hy
    exact ⟨_, _, _, hat', h.wrap hW hk4 hm hover hx hrow hy⟩
  · obtain ⟨hfull, hlast⟩ := hflush hover (Int.not_lt.mp hrow)
    obtain ⟨m, hm, hat'⟩ := Console.printMany_scroll (C := C) hat h.inRange hu h.left h.right
      (by omega) hover hx h.onScreen (Int.not_lt.mp hrow) hy (by omega)
    exact ⟨_, _, _, hat', h.scroll hW hH hk4 hm hover hx hy hfull hlast (htab hlast hover.le)⟩

theorem Key.cases (h : Key key) : key = '\x00' ∨ key = '\r' ∨ key = '\x08' ∨
    (Console.Glyph key ∨ key = '\t') ∧ key ≠ '\x00' ∧ key ≠ '\r' ∧ key ≠ '\x08' := by
  by_cases h0 : key = '\x00'
  · exact .inl h0
  by_cases hr : key = '\r'
  · exact .inr (.inl hr)
  by_cases hb : key = '\x08'
  · exact .inr (.inr (.inl hb))
  obtain h | h | h | h | h := h
  · exact absurd h h0
  · exact absurd h hr
  · exact absurd h hb
  · exact .inr (.inr (.inr ⟨.inr h, h0, hr, hb⟩))
  · exact .inr (.inr (.inr ⟨.inl h.glyph, h0, hr, hb⟩))

theorem press_return (C : Canvas σ) (hW : 72 < g.width) (hH : 48 ≤ g.height) (s : Session σ) :
    Inv g (s.press g C '\r') := by
  have hprompt : ∃ r, (s.press g C '\r').shell = shellPrompt g C.counting r := ⟨_, rfl⟩
  obtain ⟨r, hr⟩ := hprompt
  exact prompt_inv hW hH r hr rfl

theorem press_printed (s : Session σ) (h0 : key ≠ '\x00') (hr : key ≠ '\r') (hb : key ≠ '\x08') :
    s.press g C key = ⟨⟨framebufferPrintString g C.counting s.shell.console [key] gfxBlue,
      s.shell.promptXBarrier,
      if s.shell.console.y + glyphHeight = g.height ∧ s.shell.console.x + glyphWidth = g.width then
        toInt32 (s.shell.promptYBarrier - glyphHeight)
      else s.shell.promptYBarrier⟩, s.prompt⟩ := by
  rw [press, shellPrintChar, if_neg h0, if_neg hr, if_neg hb, if_neg hr]
  split <;> rfl

theorem press_print {s : Session σ} (h : Inv g s) (hW : 72 < g.width) (hH : 48 ≤ g.height)
    (hkey : Console.Glyph key ∨ key = '\t') (h0 : key ≠ '\x00') (hr : key ≠ '\r')
    (hb : key ≠ '\x08') (hk : KeepsPace g s.shell key) : Inv g (s.press g C key) := by
  obtain ⟨x, y, n, row, hat, hxb, hp, hsync⟩ := h
  obtain ⟨⟨hx, hmin, hroom⟩, hflush, htab, _⟩ := hk
  have hcells : 1 ≤ Console.cells key ∧ Console.cells key ≤ 4 := by
    rw [Console.cells]
    split <;> omega
  have hplaced : Console.Placed g (placeCursor g C.counting s.shell.console s.shell.console.x
      s.shell.console.y) := Console.placeCursor_placed C.counting s.shell.console (by omega)
  have hone : ∃ unicode, Console.Glyph unicode ∧
      framebufferPrintString g C.counting s.shell.console [key] gfxBlue =
        Console.printMany g C.counting unicode gfxBlue (Console.cells key) s.shell.console :=
    Console.printString_one hkey hplaced
  obtain ⟨unicode, hu, hstring⟩ := hone
  rw [hat.1] at hx hroom hflush htab
  rw [hat.2.1] at hroom hflush htab
  have hprinted : ∃ x' y' n', (Console.printMany g C.counting unicode gfxBlue (Console.cells key)
      s.shell.console).At x' y' n' ∧ Synced g x' y' n'
        (s.shell.promptYBarrier - if y + 16 = g.height ∧ x + 8 = g.width then 16 else 0) row :=
    hsync.print hat hu hW hH hcells.1 hcells.2 hx hroom hflush htab
  obtain ⟨x', y', n', hat', hsync'⟩ := hprinted
  have hwrap : toInt32 (s.shell.promptYBarrier - glyphHeight) = s.shell.promptYBarrier - 16 := by
    have hbar := hsync.barrier
    have hbehind := hsync.behind
    have hbottom := hsync.inRange.bottom
    rw [toInt32, glyphHeight]
    split at hbar <;> omega
  rw [press_printed s h0 hr hb, hstring, hat.1, hat.2.1, hwrap, glyphHeight, glyphWidth]
  rw [apply_ite (s.shell.promptYBarrier - ·), Int.sub_zero] at hsync'
  exact ⟨x', y', n', row, hat', hxb, hp, hsync'⟩

/-- A backspace behind a full line: the cursor has gone to the next line, and comes back. -/
theorem Synced.back_full {c : Console (σ × ℕ)} (h : Synced g x y n yBarrier row)
    (hat : c.At x y n) (hW : 72 < g.width) (hH : 48 ≤ g.height) (hend : g.width < x + 8)
    (hroom : y + 16 < 2 ^ 15) (hflush : g.height ≤ y + 16 → y + 16 = g.height)
    (hfull : g.width % 8 = 0) (hy : y + 16 ≠ 0) :
    ∃ x' y' n', (eraseChar g C.counting (placeCursor g C.counting c c.x c.y)).At x' y' n' ∧
      x' ≠ x ∧ Synced g x' y' n' yBarrier row := by
  obtain ⟨hr, hcol, hleft, hright, hscreen, hline, hbehind, hnarrow, hbar⟩ := h
  obtain ⟨hlo, hhi, htop, hbottom⟩ := id hr
  have hx : x = g.width := by omega
  by_cases hrow : y + 16 < g.height
  · have hnext : (placeCursor g C.counting c c.x c.y).At 0 (y + 16) n :=
      Console.placeCursor_wrap hat hr hend hrow hroom
    have herased : (eraseChar g C.counting (placeCursor g C.counting c c.x c.y)).At (g.width - 8)
        (y + 16 - 16) n :=
      Console.eraseChar_up hnext hy (by omega) hroom (by omega) (by omega)
    refine ⟨_, _, _, herased, by omega, ?_⟩
    refine ⟨⟨?_, ?_, ?_, ?_⟩, ?_, ?_, ?_, ?_, ?_, ?_, ?_, ?_⟩ <;> omega
  · have hlast := hflush (Int.not_lt.mp hrow)
    have hnext : (placeCursor g C.counting c c.x c.y).At 0 (g.height - 16) (n + 1) :=
      Console.placeCursor_scroll hat hr hend (by omega) hroom (by omega)
    have herased : (eraseChar g C.counting (placeCursor g C.counting c c.x c.y)).At (g.width - 8)
        (g.height - 16 - 16) (n + 1) :=
      Console.eraseChar_up hnext (by omega) (by omega) (by omega) (by omega) (by omega)
    -- the scroll that the barrier was moved for
    refine ⟨_, _, _, herased, by omega, ?_⟩
    refine ⟨⟨?_, ?_, ?_, ?_⟩, ?_, ?_, ?_, ?_, ?_, ?_, ?_, ?_⟩ <;> omega

/-- A backspace with room for a glyph, which goes back on its line or to the line above. -/
theorem Synced.back_room {c : Console (σ × ℕ)} (h : Synced g x y n yBarrier row)
    (hat : c.At x y n) (hW : 72 < g.width) (hfit : x + 8 ≤ g.width)
    (hstart : x = 0 → g.width % 8 = 0 ∧ y ≠ 0 ∧ -2 ^ 15 ≤ y - 16)
    (hfree : ¬ (x = 24 ∧ y = yBarrier)) :
    ∃ x' y' n', (eraseChar g C.counting (placeCursor g C.counting c c.x c.y)).At x' y' n' ∧
      x' ≠ x ∧ Synced g x' y' n' yBarrier row := by
  obtain ⟨hr, hcol, hleft, hright, hscreen, hline, hbehind, hnarrow, hbar⟩ := h
  obtain ⟨hlo, hhi, htop, hbottom⟩ := id hr
  have hplace : placeCursor g C.counting c c.x c.y = c := by
    obtain ⟨rfl, rfl, rfl⟩ := hat
    exact Console.placeCursor_stay hr hfit hscreen
  rw [hplace]
  by_cases hx0 : x = 0
  · obtain ⟨hfull, hy, habove⟩ := hstart hx0
    subst hx0
    have herased : (eraseChar g C.counting c).At (g.width - 8) (y - 16) n :=
      Console.eraseChar_up hat hy habove hbottom (by omega) (by omega)
    refine ⟨_, _, _, herased, by omega, ?_⟩
    refine ⟨⟨?_, ?_, ?_, ?_⟩, ?_, ?_, ?_, ?_, ?_, ?_, ?_, ?_⟩ <;> omega
  · have herased : (eraseChar g C.counting c).At (x - 8) y n :=
      Console.eraseChar_back hat (by omega) hhi
    refine ⟨_, _, _, herased, by omega, ?_⟩
    refine ⟨⟨?_, ?_, ?_, ?_⟩, ?_, ?_, ?_, ?_, ?_, ?_, ?_, ?_⟩ <;> omega

theorem press_refused (s : Session σ)
    (hat : s.shell.console.x = s.shell.promptXBarrier ∧
      s.shell.console.y = s.shell.promptYBarrier) :
    s.press g C '\x08' = s := by
  have hshell : shellPrintChar g C.counting s.shell '\x08' = s.shell := if_pos hat
  rw [press, hshell]
  rfl

theorem press_erased (s : Session σ)
    (hat : ¬ (s.shell.console.x = s.shell.promptXBarrier ∧
      s.shell.console.y = s.shell.promptYBarrier)) :
    s.press g C '\x08' =
      ⟨⟨eraseChar g C.counting
        (placeCursor g C.counting s.shell.console s.shell.console.x s.shell.console.y),
        s.shell.promptXBarrier, s.shell.promptYBarrier⟩, s.prompt⟩ := by
  have hshell : shellPrintChar g C.counting s.shell '\x08' = { s.shell with
      console := framebufferPrintString g C.counting s.shell.console ['\x08'] gfxBlue } :=
    if_neg hat
  rw [press, hshell, Console.printString_backspace]
  rfl

/-- The cursor at the barrier is the end of the prompt. -/
theorem Synced.at_barrier {c : Console (σ × ℕ)} (h : Synced g x y n yBarrier row) (hat : c.At x y n)
    (hW : 72 < g.width) (hx : x = 24) (hy : y = yBarrier) : c.position = toLex (row, 24) := by
  have hbar := h.barrier
  rw [if_neg (by omega)] at hbar
  rw [Console.position, hat.1, hat.2.1, hat.2.2, hx, hy, hbar, Int.sub_zero]

theorem press_backspace {s : Session σ} (h : Inv g s) (hW : 72 < g.width) (hH : 48 ≤ g.height)
    (hk : KeepsPace g s.shell '\x08') : Inv g (s.press g C '\x08') ∧ BackspaceSafe g C s := by
  obtain ⟨x, y, n, row, hat, hxb, hp, hsync⟩ := id h
  obtain ⟨⟨hx, _, hroom⟩, hflush, _, hback⟩ := hk
  have hcell : (Console.cells '\x08' : ℤ) = 1 := rfl
  rw [hat.1, hcell] at hx hroom hflush
  rw [hat.2.1] at hroom hflush
  obtain ⟨hstart, hend⟩ := hback rfl
  rw [hat.1, hat.2.1] at hstart hend
  by_cases hfree : s.shell.console.x = s.shell.promptXBarrier ∧
      s.shell.console.y = s.shell.promptYBarrier
  · have hpressed := press_refused (g := g) (C := C) s hfree
    rw [BackspaceSafe, hpressed]
    refine ⟨h, h.prompt_le, fun _ => ?_⟩
    have hx24 : x = 24 := by rw [← hat.1, hfree.1, hxb]
    have hy : y = s.shell.promptYBarrier := by rw [← hat.2.1, hfree.2]
    exact (hsync.at_barrier hat hW hx24 hy).trans hp.symm
  · have hpressed := press_erased (g := g) (C := C) s hfree
    rw [hat.1, hat.2.1, hxb] at hfree
    have hmoved : ∃ x' y' n', (s.press g C '\x08').shell.console.At x' y' n' ∧ x' ≠ x ∧
        Synced g x' y' n' s.shell.promptYBarrier row := by
      rw [hpressed]
      by_cases hover : g.width < x + 8
      · obtain ⟨hfull, hy⟩ := hend hover
        exact hsync.back_full hat hW hH hover (hroom (by omega))
          (fun hlast => (hflush (by omega) hlast).2) hfull hy
      · exact hsync.back_room hat hW (by omega) hstart hfree
    obtain ⟨x', y', n', hat', hne, hsync'⟩ := hmoved
    have hinv : Inv g (s.press g C '\x08') := by
      refine ⟨x', y', n', row, hat', ?_, ?_, ?_⟩ <;> rw [hpressed]
      · exact hxb
      · exact hp
      · exact hsync'
    have hprompt : (s.press g C '\x08').prompt = s.prompt := by rw [hpressed]
    refine ⟨hinv, hprompt ▸ hinv.prompt_le, fun hsame => ?_⟩
    rw [hsame] at hat'
    exact absurd (hat'.1.symm.trans hat.1) hne

theorem pacedPress_inv {s t : Session σ} (hW : 72 < g.width) (hH : 48 ≤ g.height) (h : Inv g s)
    (hs : PacedPress g C s key t) : Inv g t := by
  obtain ⟨⟨hkey, rfl⟩, hpace⟩ := hs
  obtain rfl | rfl | rfl | ⟨hkey, h0, hr, hb⟩ := hkey.cases
  · exact h
  · exact press_return C hW hH s
  · exact (press_backspace h hW hH (hpace.resolve_left (by decide) |>.resolve_left (by decide))).1
  · exact press_print h hW hH hkey h0 hr hb (hpace.resolve_left h0 |>.resolve_left hr)

/-- As long as the barrier keeps pace, the prompt cannot be erased. -/
theorem prompt_stays (hW : 72 < g.width) (hH : 48 ≤ g.height) (s : Shell (σ × ℕ)) {keys : List Char}
    {t : Session σ} (h : Run (PacedPress g C) (start g C s) keys t)
    (hb : KeepsPace g t.shell '\x08') : BackspaceSafe g C t := by
  have hstart : Inv g (start g C s) := prompt_inv hW hH s rfl rfl
  have hinv : Inv g t := h.invariant hstart (fun _ _ _ hi hs => pacedPress_inv hW hH hi hs)
  exact (press_backspace hinv hW hH hb).2

def blankShell : Shell (Unit × ℕ) := ⟨⟨0, 0, 0, (), 0⟩, 0, 0⟩

def blankCanvas : Canvas Unit := ⟨fun _ _ _ _ _ => (), id⟩

/-- A session on a screen of three rows of ten glyphs. -/
def blankSession : Session Unit := start ⟨80, 48⟩ blankCanvas blankShell

theorem prompt_stays_typed : BackspaceSafe ⟨80, 48⟩ blankCanvas
    ((blankSession.press ⟨80, 48⟩ blankCanvas '\t').press ⟨80, 48⟩ blankCanvas 'a') := by
  have htab : KeepsPace ⟨80, 48⟩ blankSession.shell '\t' :=
    ⟨by decide +kernel, by decide +kernel, by decide +kernel, by decide +kernel⟩
  have ha : KeepsPace ⟨80, 48⟩ (blankSession.press ⟨80, 48⟩ blankCanvas '\t').shell 'a' :=
    ⟨by decide +kernel, by decide +kernel, by decide +kernel, by decide +kernel⟩
  have hkeys : Run (PacedPress ⟨80, 48⟩ blankCanvas) blankSession ['\t', 'a'] _ :=
    .stepL ⟨⟨by decide, rfl⟩, .inr (.inr htab)⟩
      (.stepL ⟨⟨by decide, rfl⟩, .inr (.inr ha)⟩ (.refl _))
  exact prompt_stays (by decide) (by decide) blankShell hkeys
    ⟨by decide +kernel, by decide +kernel, by decide +kernel, by decide +kernel⟩

theorem prompt_misplaced : ¬ ∀ (g : Gfx) (C : Canvas Unit) (s : Shell (Unit × ℕ)) (keys : List Char)
    (t : Session Unit), 72 < g.width → 48 ≤ g.height → Run (Press g C) (start g C s) keys t →
      BackspaceSafe g C t := by
  intro h
  have hkeys : Run (Press ⟨80, 48⟩ blankCanvas) blankSession ['\t', '\t', 'a', 'a'] _ :=
    .stepL ⟨by decide, rfl⟩ (.stepL ⟨by decide, rfl⟩ (.stepL ⟨by decide, rfl⟩
      (.stepL ⟨by decide, rfl⟩ (.refl _))))
  have hsafe := h _ _ blankShell _ _ (by decide) (by decide) hkeys
  -- the fourth space of the second tab has scrolled the screen
  exact absurd (hsafe.2 (by decide +kernel)) (by decide +kernel)

end Session

end KnutOS
