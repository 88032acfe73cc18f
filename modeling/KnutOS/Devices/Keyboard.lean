import KnutOS.Foundation.Loop

/-! The keyboard driver (`devices/ps2/keyboard/keyboard.c`): the command port, and the interrupt
handler with its table of key codes. -/
namespace KnutOS

open Foundation

/-- What the driver does to the two ports of the controller. -/
inductive KbAccess
  | readStatus (status : BitVec 8)
  | readData
  | writeData (byte : BitVec 8)
deriving DecidableEq

/-- The number of status reads so far, and every access in its order. -/
structure KbPort where
  statusReads : ℕ
  log : List KbAccess
deriving DecidableEq

namespace KbPort

/-- The controller answers the `n`-th read of its command register with `status n`. -/
def readStatus (p : KbPort) (status : ℕ → BitVec 8) : KbPort :=
  ⟨p.statusReads + 1, p.log ++ [.readStatus (status p.statusReads)]⟩

def readData (p : KbPort) : KbPort := { p with log := p.log ++ [.readData] }

def writeData (p : KbPort) (byte : BitVec 8) : KbPort :=
  { p with log := p.log ++ [.writeData byte] }

end KbPort

/-- The first loop of `keyboard_init`. -/
def clearDataRound (status : ℕ → BitVec 8) (p : KbPort) : Round KbPort KbPort :=
  if status p.statusReads &&& 0x1#8 ≠ 0 then .goOn (p.readStatus status).readData
  else .leave (p.readStatus status)

/-- The loop of `keyboard_send_command`: the write is the body of the `while`. -/
def sendCommandRound (status : ℕ → BitVec 8) (commandByte : BitVec 8) (p : KbPort) :
    Round KbPort KbPort :=
  if status p.statusReads &&& 0x2#8 ≠ 0 then .goOn ((p.readStatus status).writeData commandByte)
  else .leave (p.readStatus status)

/-- `keyboard_send_command` returns, and leaves the port as `p'`. -/
def KeyboardSendCommand (status : ℕ → BitVec 8) (commandByte : BitVec 8) (p p' : KbPort) : Prop :=
  Returns (sendCommandRound status commandByte) p p'

/-- `keyboard_init` has cleared the data register and calls `keyboard_send_command(0xF4)` with the
port as `p'`. -/
def KeyboardInitClears (status : ℕ → BitVec 8) (p p' : KbPort) : Prop :=
  Returns (clearDataRound status) p p'

namespace Key

def escape : BitVec 32 := 0x1001
def home : BitVec 32 := 0x400c
def pageUp : BitVec 32 := 0x400e
def f1 : BitVec 32 := 0x1201
def f2 : BitVec 32 := 0x1202
def f3 : BitVec 32 := 0x1203
def f4 : BitVec 32 := 0x1204
def f5 : BitVec 32 := 0x1205
def f6 : BitVec 32 := 0x1206
def f7 : BitVec 32 := 0x1207
def f8 : BitVec 32 := 0x1208
def f9 : BitVec 32 := 0x1209
def f10 : BitVec 32 := 0x120a
def f11 : BitVec 32 := 0x120b
def f12 : BitVec 32 := 0x120b
def kpNumlock : BitVec 32 := 0x300f
def capslock : BitVec 32 := 0x4001
def lshift : BitVec 32 := 0x4002
def lctrl : BitVec 32 := 0x4003
def lalt : BitVec 32 := 0x4004
def rshift : BitVec 32 := 0x4006
def rctrl : BitVec 32 := 0x4007
def ralt : BitVec 32 := 0x4008
def scrolllock : BitVec 32 := 0x4010
def unknown : BitVec 32 := 0x4012

/-- The key code of a key that has a character is the character. -/
def char (c : Char) : BitVec 32 := BitVec.ofNat 32 c.toNat

end Key

/-- The quote is `\x27`, the grave accent `\x60` and the backslash `\x5c`. -/
def standardKeycodes : List (BitVec 32) :=
  [Key.unknown, Key.escape, Key.char '1', Key.char '2', Key.char '3', Key.char '4', Key.char '5',
    Key.char '6', Key.char '7', Key.char '8', Key.char '9', Key.char '0', Key.char '-',
    Key.char '=', Key.char '\x08', Key.char '\t',
    -- 0x10
    Key.char 'q', Key.char 'w', Key.char 'e', Key.char 'r', Key.char 't', Key.char 'y',
    Key.char 'u', Key.char 'i', Key.char 'o', Key.char 'p', Key.char '[', Key.char ']',
    Key.char '\r', Key.lctrl, Key.char 'a', Key.char 's',
    -- 0x20
    Key.char 'd', Key.char 'f', Key.char 'g', Key.char 'h', Key.char 'j', Key.char 'k',
    Key.char 'l', Key.char ';', Key.char '\x27', Key.char '\x60', Key.lshift, Key.char '\x5c',
    Key.char 'z', Key.char 'x', Key.char 'c', Key.char 'v',
    -- 0x30
    Key.char 'b', Key.char 'n', Key.char 'm', Key.char ',', Key.char '.', Key.char '/',
    Key.rshift, Key.char '*', Key.ralt, Key.char ' ', Key.capslock, Key.f1, Key.f2, Key.f3, Key.f4,
    Key.f5,
    -- 0x40, and from 0x4a on the entries that the source marks 0x50 to 0x58
    Key.f6, Key.f7, Key.f8, Key.f9, Key.f10, Key.kpNumlock, Key.scrolllock, Key.home,
    Key.char '8', Key.pageUp, Key.char '2', Key.char '3', Key.char '0', Key.char '.', Key.unknown,
    Key.unknown, Key.unknown, Key.f11, Key.f12]

/-- The static variables; the flags are 0 or 1. -/
structure Keyboard where
  isKeyboardActive : Bool
  ctrl : Bool
  alt : Bool
  shift : Bool
  capslock : Bool
  numlock : Bool
  scrolllock : Bool
deriving DecidableEq

def Keyboard.initial : Keyboard := ⟨false, false, false, false, false, false, false⟩

def activateKeyboardProcessing (k : Keyboard) : Keyboard := { k with isKeyboardActive := true }

def disableKeyboardProcessing (k : Keyboard) : Keyboard := { k with isKeyboardActive := false }

/-- The characters with another one for shift, both as in `keycode_to_ascii`. -/
def shiftedSymbols : List (Char × Char) :=
  [('0', ')'), ('1', '!'), ('2', '@'), ('3', '#'), ('4', '$'), ('5', '%'), ('6', '^'), ('7', '&'),
    ('8', '*'), ('9', '('), (',', '<'), ('.', '>'), ('/', '?'), (';', ':'), ('\x27', '\x22'),
    ('[', '\x7b'), (']', '\x7d'), ('\x60', '~'), ('-', '_'), ('=', '+'), ('\x5c', '|')]

def shiftSymbol (character : Char) : Char := (shiftedSymbols.lookup character).getD character

def upperCase (character : Char) : Char :=
  if 'a' ≤ character ∧ character ≤ 'z' then Char.ofNat (character.toNat - 32) else character

/-- The key code is cut to a `uint8_t`. -/
def keycodeToAscii (k : Keyboard) (keycode : BitVec 32) : Char :=
  let character := Char.ofNat (keycode.setWidth 8).toNat
  if k.shift && k.capslock then shiftSymbol character
  else if k.shift && !k.capslock then shiftSymbol (upperCase character)
  else if !k.shift && k.capslock then upperCase character
  else character

structure KeyInfo where
  keycode : BitVec 32
  asciiCharacter : Char
deriving DecidableEq

/-- The index into `standard_keycodes`: a break code is looked up without its high bit. -/
def lookupIndex (scancode : BitVec 8) : ℕ :=
  if scancode &&& 0x80#8 ≠ 0 then (scancode - 0x80#8).toNat else scancode.toNat

/-- `behind` is what lies in memory behind the table. -/
def keyAt (behind : ℕ → BitVec 32) (index : ℕ) : BitVec 32 :=
  standardKeycodes[index]?.getD (behind index)

def breakFlags (k : Keyboard) (key : BitVec 32) : Keyboard :=
  if key = Key.lctrl ∨ key = Key.rctrl then { k with ctrl := false }
  else if key = Key.lalt ∨ key = Key.ralt then { k with alt := false }
  else if key = Key.lshift ∨ key = Key.rshift then { k with shift := false }
  else k

def makeFlags (k : Keyboard) (key : BitVec 32) : Keyboard :=
  if key = Key.lctrl ∨ key = Key.rctrl then { k with ctrl := true }
  else if key = Key.lalt ∨ key = Key.ralt then { k with alt := true }
  else if key = Key.lshift ∨ key = Key.rshift then { k with shift := true }
  else if key = Key.capslock then { k with capslock := !k.capslock }
  else if key = Key.kpNumlock then { k with numlock := !k.numlock }
  else if key = Key.scrolllock then { k with scrolllock := !k.scrolllock }
  else k

/-- Every key that changes a flag is above `0x7F`. -/
def makeCharacter (k : Keyboard) (key : BitVec 32) : Char :=
  if key ≤ 0x7F#32 then keycodeToAscii k key else '\x00'

/-- The new flags, and the `key_info` for `final_handler`. -/
def keyboardIrqHandler (behind : ℕ → BitVec 32) (k : Keyboard) (scancode : BitVec 8) :
    Keyboard × Option KeyInfo :=
  if !k.isKeyboardActive then (k, none)
  else
    let key := keyAt behind (lookupIndex scancode)
    if scancode &&& 0x80#8 ≠ 0 then (breakFlags k key, some ⟨Key.unknown, '\x00'⟩)
    else (makeFlags k key, some ⟨key, makeCharacter k key⟩)

/-- Successive interrupts, one for each byte. -/
def keyboardIrqs (behind : ℕ → BitVec 32) (k : Keyboard) (scancodes : List (BitVec 8)) : Keyboard :=
  scancodes.foldl (fun k scancode => (keyboardIrqHandler behind k scancode).1) k

end KnutOS
