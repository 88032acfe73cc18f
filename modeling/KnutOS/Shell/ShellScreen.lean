import KnutOS.Devices.Framebuffer

/-! The shell's prompt and its input line (`shell/shell_screen.c`). -/
namespace KnutOS

def gfxBlue : BitVec 32 := 0xFF81A1C1#32

def gfxPurple : BitVec 32 := 0xFFB48EAD#32

/-- The console, and the static variables of `shell_screen.c`. -/
structure Shell (σ : Type) where
  console : Console σ
  promptXBarrier : ℤ
  promptYBarrier : ℤ
  deriving DecidableEq

section

variable {σ : Type} (g : Gfx) (C : Canvas σ)

/-- The barrier ends up where the cursor is. -/
def shellPrompt (s : Shell σ) : Shell σ :=
  let c := framebufferPrintString g C s.console
    ['\n', '┌', '─', ' ', 'K', 'n', 'u', 't', 'O', 'S', '\n'] gfxPurple
  let c := framebufferPrintString g C c ['└', '→', ' '] gfxPurple
  ⟨c, c.x, c.y⟩

/-- The key comes as `key_info.ascii_character`, where `KEY_RETURN` is `\r` and `KEY_BACKSPACE`
is `\b`. -/
def shellPrintChar (s : Shell σ) (asciiCharacter : Char) : Shell σ :=
  if asciiCharacter = '\x00' then s
  else if asciiCharacter = '\r' then
    let s :=
      if s.console.y + glyphHeight = g.height then
        { s with promptYBarrier := toInt32 (s.promptYBarrier + glyphHeight) }
      else s
    shellPrompt g C { s with console := framebufferPrintString g C s.console ['\n'] gfxBlue }
  else if asciiCharacter = '\x08' then
    if s.console.x = s.promptXBarrier ∧ s.console.y = s.promptYBarrier then s
    else { s with console := framebufferPrintString g C s.console ['\x08'] gfxBlue }
  else
    let s :=
      if s.console.y + glyphHeight = g.height ∧ s.console.x + glyphWidth = g.width then
        { s with promptYBarrier := toInt32 (s.promptYBarrier - glyphHeight) }
      else s
    { s with console := framebufferPrintString g C s.console [asciiCharacter] gfxBlue }

end

end KnutOS
