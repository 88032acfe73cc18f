import KnutOS.Devices.Framebuffer
import KnutOS.Foundation.Loop

/-! Drawing into the framebuffer (`devices/framebuffer/framebuffer.c`): pixels, lines, circles, and
the scroll. -/
namespace KnutOS

open Foundation

/-- With the length of a line in bytes. -/
structure Screen extends Gfx where
  fbPitch : BitVec 16

/-- The lines are at least as long in memory as on the screen. -/
def Screen.PitchFits (s : Screen) : Prop := 4 * s.fbWidth.toNat ≤ s.fbPitch.toNat

instance (s : Screen) : Decidable s.PitchFits := inferInstanceAs (Decidable (_ ≤ _))

/-- The colors at `fb_addr`, by their index. -/
abbrev Pixels := ℤ → BitVec 32

def Screen.fbIndex (s : Screen) (x y : ℤ) : ℤ := y * (s.fbPitch.toNat / 4 : ℕ) + x

def Pixels.set (fb : Pixels) (index : ℤ) (color : BitVec 32) : Pixels :=
  fun i => if i = index then color else fb i

def framebufferDrawPixel (s : Screen) (color : BitVec 32) (fb : Pixels) (p : ℤ × ℤ) : Pixels :=
  fb.set (s.fbIndex p.1 p.2) color

/-- The pixels of a line or a circle, in the order of the calls. -/
def drawPixels (s : Screen) (color : BitVec 32) (fb : Pixels) (pixels : List (ℤ × ℤ)) : Pixels :=
  pixels.foldl (framebufferDrawPixel s color) fb

/-- The variable of a `for` loop of `framebuffer_draw_line`, and the pixels drawn so far. -/
structure StraightState where
  i : ℤ
  drawn : List (ℤ × ℤ)

/-- One of the loops `for (int i = first; i <= last; i++)`. The sum is an `int` again. -/
def straightRound (pixel : ℤ → ℤ × ℤ) (last : ℤ) (s : StraightState) :
    Round StraightState (List (ℤ × ℤ)) :=
  if s.i ≤ last then .goOn ⟨toInt32 (s.i + 1), s.drawn ++ [pixel s.i]⟩ else .leave s.drawn

/-- The loop ends, having drawn these pixels. -/
def StraightLine (pixel : ℤ → ℤ × ℤ) (first last : ℤ) (drawn : List (ℤ × ℤ)) : Prop :=
  Returns (straightRound pixel last) ⟨first, []⟩ drawn

/-- The variables of the `while` loop, and the pixels drawn so far. -/
structure LineState where
  x : ℤ
  y : ℤ
  error1 : ℤ
  drawn : List (ℤ × ℤ)
deriving DecidableEq

/-- The variables that the loop does not change. -/
structure LineParams where
  dx : ℤ
  dy : ℤ
  sx : ℤ
  sy : ℤ
  xEndPos : ℤ
  yEndPos : ℤ

/-- The body of the loop. -/
def lineStep (l : LineParams) (s : LineState) : LineState :=
  let error2 := 2 * s.error1
  let s := if error2 ≥ l.dy then { s with error1 := s.error1 + l.dy, x := s.x + l.sx } else s
  let s := if error2 ≤ l.dx then { s with error1 := s.error1 + l.dx, y := s.y + l.sy } else s
  { s with drawn := s.drawn ++ [(s.x, s.y)] }

def lineRound (l : LineParams) (s : LineState) : Round LineState (List (ℤ × ℤ)) :=
  if s.x ≠ l.xEndPos ∧ s.y ≠ l.yEndPos then .goOn (lineStep l s) else .leave s.drawn

def lineParams (xStartPos yStartPos xEndPos yEndPos : ℤ) : LineParams where
  dx := if xStartPos < xEndPos then xEndPos - xStartPos else xStartPos - xEndPos
  sx := if xStartPos < xEndPos then 1 else -1
  dy := if yStartPos < yEndPos then -(yEndPos - yStartPos) else -(yStartPos - yEndPos)
  sy := if yStartPos < yEndPos then 1 else -1
  xEndPos := xEndPos
  yEndPos := yEndPos

def lineStart (l : LineParams) (xStartPos yStartPos : ℤ) : LineState :=
  ⟨xStartPos, yStartPos, l.dx + l.dy, [(xStartPos, yStartPos)]⟩

/-- `framebuffer_draw_line` returns, having drawn these pixels. -/
def FramebufferDrawLine (xStartPos yStartPos xEndPos yEndPos : ℤ) (drawn : List (ℤ × ℤ)) : Prop :=
  if xStartPos = xEndPos then
    if yStartPos < yEndPos then StraightLine (fun y => (xStartPos, y)) yStartPos yEndPos drawn
    else StraightLine (fun y => (xStartPos, y)) yEndPos yStartPos drawn
  else if yStartPos = yEndPos then
    if xStartPos < xEndPos then StraightLine (fun x => (x, yStartPos)) xStartPos xEndPos drawn
    else StraightLine (fun x => (x, yStartPos)) xEndPos xStartPos drawn
  else
    let l := lineParams xStartPos yStartPos xEndPos yEndPos
    Returns (lineRound l) (lineStart l xStartPos yStartPos) drawn

def drawCircleHelper (xc yc x y : ℤ) : List (ℤ × ℤ) :=
  [(xc + x, yc + y), (xc - x, yc + y), (xc + x, yc - y), (xc - x, yc - y), (xc + y, yc + x),
    (xc - y, yc + x), (xc + y, yc - x), (xc - y, yc - x)]

/-- The variables of the loop of `framebuffer_draw_circle`, and the offsets passed to
`draw_circle_helper` so far. -/
structure CircleState where
  x : ℤ
  y : ℤ
  d : ℤ
  offsets : List (ℤ × ℤ)
deriving DecidableEq

/-- The body of the loop. -/
def circleStep (s : CircleState) : CircleState :=
  let s := { s with x := s.x + 1 }
  let s :=
    if s.d > 0 then
      let s := { s with y := s.y - 1 }
      { s with d := s.d + 4 * (s.x - s.y) + 10 }
    else { s with d := s.d + 4 * s.x + 6 }
  { s with offsets := s.offsets ++ [(s.x, s.y)] }

def circleRound (s : CircleState) : Round CircleState (List (ℤ × ℤ)) :=
  if s.y ≥ s.x then .goOn (circleStep s) else .leave s.offsets

def circleStart (radius : ℤ) : CircleState := ⟨0, radius, 3 - 2 * radius, [(0, radius)]⟩

/-- `framebuffer_draw_circle` returns, having passed these offsets to `draw_circle_helper`. -/
def CircleOffsets (radius : ℤ) (offsets : List (ℤ × ℤ)) : Prop :=
  Returns circleRound (circleStart radius) offsets

/-- `framebuffer_draw_circle` returns, having drawn these pixels. -/
def FramebufferDrawCircle (xCenter yCenter radius : ℤ) (drawn : List (ℤ × ℤ)) : Prop :=
  ∃ offsets, CircleOffsets radius offsets ∧
    drawn = offsets.flatMap fun p => drawCircleHelper xCenter yCenter p.1 p.2

/-- The body of the loops of `framebuffer_move_one_row_up`. -/
def moveUpPixel (s : Screen) (bg : BitVec 32) (column : ℕ) (fb : Pixels) (row : ℕ) : Pixels :=
  let currentColor := fb (s.fbIndex row column)
  (fb.set (s.fbIndex row column) bg).set (s.fbIndex row (column - glyphHeight)) currentColor

def framebufferMoveOneRowUp (s : Screen) (bg : BitVec 32) (fb : Pixels) : Pixels :=
  (List.range' 16 (s.fbHeight.toNat - 16)).foldl
    (fun fb column => (List.range' 0 s.fbWidth.toNat).foldl (moveUpPixel s bg column) fb) fb

end KnutOS
