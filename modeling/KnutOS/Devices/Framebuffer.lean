import Mathlib.Logic.Function.Iterate
import Mathlib.Algebra.Group.Int.Defs

/-! The text console (`devices/framebuffer/framebuffer.c`): where characters go, how lines wrap, and
when the screen scrolls. -/
namespace KnutOS

/-- The conversion to `int16_t`, the type of the cursor in `ssfn_dst`. -/
def toInt16 (v : ℤ) : ℤ := (v + 2 ^ 15) % 2 ^ 16 - 2 ^ 15

/-- The conversion to `int`. -/
def toInt32 (v : ℤ) : ℤ := (v + 2 ^ 31) % 2 ^ 32 - 2 ^ 31

/-- The dimensions in `gfx`. -/
structure Gfx where
  fbWidth : BitVec 16
  fbHeight : BitVec 16

def Gfx.width (g : Gfx) : ℤ := g.fbWidth.toNat

def Gfx.height (g : Gfx) : ℤ := g.fbHeight.toNat

/-- The pixel is on the screen. -/
def Gfx.Visible (g : Gfx) (x y : ℤ) : Prop := 0 ≤ x ∧ x < g.width ∧ 0 ≤ y ∧ y < g.height

instance (g : Gfx) (x y : ℤ) : Decidable (g.Visible x y) :=
  inferInstanceAs (Decidable (_ ∧ _ ∧ _ ∧ _))

def glyphWidth : ℤ := 8

def glyphHeight : ℤ := 16

/-- What the console draws on: the glyphs of `ssfn_putc`, with the cursor, the character and the
foreground color, and `framebuffer_move_one_row_up`. -/
structure Canvas (σ : Type) where
  putGlyph : σ → ℤ → ℤ → Char → BitVec 32 → σ
  moveOneRowUp : σ → σ

/-- The cursor and the foreground color of `ssfn_dst`, and what has been drawn. -/
structure Console (σ : Type) where
  x : ℤ
  y : ℤ
  fg : BitVec 32
  canvas : σ
  deriving DecidableEq

section

variable {σ : Type} (g : Gfx) (C : Canvas σ)

/-- The cursor goes on by the 8 by 16 pixels of a glyph. -/
def ssfnPutc (c : Console σ) (unicode : Char) : Console σ :=
  if unicode = '\r' then { c with x := 0 }
  else if unicode = '\n' then { c with x := 0, y := toInt16 (c.y + 16) }
  else { c with x := toInt16 (c.x + 8), canvas := C.putGlyph c.canvas c.x c.y unicode c.fg }

/-- The beginning of `framebuffer_print_char`: the cursor wraps at the right edge, and the screen
scrolls at the bottom. -/
def placeCursor (c : Console σ) (x y : ℤ) : Console σ :=
  let c := { c with x := toInt16 x, y := toInt16 y }
  let c :=
    if c.x + glyphWidth > g.width then { c with x := 0, y := toInt16 (c.y + glyphHeight) } else c
  if c.y ≥ g.height then
    { c with
      x := 0
      y := toInt16 (g.height - glyphHeight)
      canvas := C.moveOneRowUp c.canvas }
  else c

/-- The branch for a backspace. -/
def eraseChar (c : Console σ) : Console σ :=
  if c.x = 0 then
    if c.y = 0 then c
    else
      let c := { c with x := toInt16 (g.width - glyphWidth), y := toInt16 (c.y - glyphHeight) }
      let c := ssfnPutc C c ' '
      { c with x := toInt16 (c.x - glyphWidth) }
  else
    let c := { c with x := toInt16 (c.x - glyphWidth) }
    let c := ssfnPutc C c ' '
    { c with x := toInt16 (c.x - glyphWidth) }

/-- `framebuffer_print_char` for a character that is not a tab. -/
def printOne (c : Console σ) (unicode : Char) (x y : ℤ) (foregroundColor : BitVec 32) : Console σ :=
  let c := placeCursor g C c x y
  if unicode = '\x08' then eraseChar g C c else ssfnPutc C { c with fg := foregroundColor } unicode

/-- A tab prints the string of one space four times, after the cursor has been placed for it. -/
def framebufferPrintChar (c : Console σ) (unicode : Char) (x y : ℤ) (foregroundColor : BitVec 32) :
    Console σ :=
  if unicode = '\t' then
    (fun c => printOne g C c ' ' c.x c.y foregroundColor)^[4] (placeCursor g C c x y)
  else printOne g C c unicode x y foregroundColor

/-- `setBackground` turns every pixel into the background color. -/
def framebufferResetScreen (setBackground : σ → σ) (c : Console σ) : Console σ :=
  { c with x := 0, y := 0, canvas := setBackground c.canvas }

def framebufferPrintString (c : Console σ) (string : List Char) (foregroundColor : BitVec 32) :
    Console σ :=
  string.foldl (fun c unicode => framebufferPrintChar g C c unicode c.x c.y foregroundColor) c

end

end KnutOS
