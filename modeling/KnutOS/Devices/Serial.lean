import KnutOS.Foundation.Handshake
import KnutOS.Foundation.Run
import KnutOS.Libk.Strings

/-! The serial console (`devices/serial/serial.c`), with the UART behind its ports. -/
namespace KnutOS

open Foundation

/-- `COM1`. -/
def com1 : BitVec 16 := 0x3F8#16

/-- The registers of a 16550 UART, what waits to be transmitted, and what has gone over the line. -/
structure Uart where
  ier : Byte
  lcr : Byte
  fcr : Byte
  mcr : Byte
  dll : Byte
  dlm : Byte
  queue : List Byte
  line : List Byte

namespace Uart

/-- The two ports at `COM1` are those of the divisor. -/
def dlab (u : Uart) : Bool := u.lcr.getLsbD 7

/-- The queue of the transmitter is the holding register, unless the FIFO is on. -/
def room (u : Uart) : ℕ := if u.fcr.getLsbD 0 then 16 else 1

def outb (u : Uart) (port : BitVec 16) (value : Byte) : Uart :=
  if port = com1 then
    if u.dlab then { u with dll := value }
    else { u with queue := if u.queue.length < u.room then u.queue ++ [value] else u.queue }
  else if port = com1 + 1#16 then
    if u.dlab then { u with dlm := value } else { u with ier := value }
  else if port = com1 + 2#16 then
    { u with fcr := value, queue := if value.getLsbD 2 then [] else u.queue }
  else if port = com1 + 3#16 then { u with lcr := value }
  else if port = com1 + 4#16 then { u with mcr := value }
  else u

/-- The line status at `COM1 + 5`. Its bits other than the one for the transmitter are `others`. -/
def lineStatus (u : Uart) (others : Byte) : Byte :=
  if u.queue = [] then others ||| 0x20#8 else others &&& 0xDF#8

/-- The transmitter sends a byte. -/
def transmit (u : Uart) : Uart :=
  match u.queue with
  | [] => u
  | b :: queue => { u with queue := queue, line := u.line ++ [b] }

end Uart

def serialInit (u : Uart) : Uart :=
  let u := u.outb (com1 + 1#16) 0x00#8
  let u := u.outb (com1 + 3#16) 0x80#8
  let u := u.outb (com1 + 0#16) 0x03#8
  let u := u.outb (com1 + 1#16) 0x00#8
  let u := u.outb (com1 + 3#16) 0x03#8
  let u := u.outb (com1 + 2#16) 0xC7#8
  u.outb (com1 + 4#16) 0x0B#8

def isTransmitEmpty (u : Uart) (others : Byte) : BitVec 32 :=
  (u.lineStatus others).setWidth 32 &&& 0x20#32

/-- `serial_send_string` on its way: at the character `str`, for which `serial_send_char` has left
its loop or not. The source counts in an `int i` and reads `str[i]`; here `str` itself advances, which
is the same for a string of less than `2 ^ 31` bytes. -/
structure Sending where
  str : BitVec 64
  ready : Bool
  uart : Uart

/-- The next access to a port, as long as there are characters. -/
def serialSendStep (m : Bytes) (others : Byte) (s : Sending) : Sending :=
  let c := m s.str
  if c = 0#8 then s
  else if s.ready then ⟨s.str + 1#64, false, s.uart.outb com1 c⟩
  else { s with ready := isTransmitEmpty s.uart others ≠ 0#32 }

/-- A move of the kernel, which reads the line status with these other bits, or of the UART. -/
inductive SerialMove
  | kernel (others : Byte)
  | uart

def serialMove (m : Bytes) : SerialMove → Sending → Sending
  | .kernel others, s => serialSendStep m others s
  | .uart, s => { s with uart := s.uart.transmit }

namespace Serial

open Strings

variable {m : Bytes} {u : Uart} {str : BitVec 64} {bs : List Byte} {turn : ℕ → SerialMove}
  {s : Sending} {n : ℕ}

/-- 38400 baud and 8N1, with the FIFO on and empty. The interrupts are off, unless they were on and
the divisor was selected before. -/
theorem serialInit_eq (u : Uart) :
    serialInit u =
      ⟨if u.dlab then u.ier else 0#8, 0x03#8, 0xC7#8, 0x0B#8, 0x03#8, 0x00#8, [], u.line⟩ := by
  by_cases hd : u.lcr[7] = true
  · simp [serialInit, Uart.outb, com1, Uart.dlab, hd]
  · simp [serialInit, Uart.outb, com1, Uart.dlab, hd]

theorem dlab_serialInit (u : Uart) : (serialInit u).dlab = false := by
  rw [serialInit_eq]
  exact (by decide : (0x03#8).getLsbD 7 = false)

theorem isTransmitEmpty_iff (u : Uart) (others : Byte) :
    isTransmitEmpty u others ≠ 0#32 ↔ u.queue = [] := by
  rw [isTransmitEmpty, Uart.lineStatus]
  by_cases hq : u.queue = []
  · simp only [hq, if_true, iff_true]
    decide +revert
  · simp only [hq, if_false, iff_false, not_not]
    decide +revert

def party : SerialMove → Handshake.Party
  | .kernel _ => .sender
  | .uart => .receiver

/-- The string that is left is what the sender still has to do. -/
structure Sends (m : Bytes) (room : ℕ) (s : Sending) (h : Handshake Byte) : Prop where
  spelled : Spelled m s.str (h.todo ++ [0#8])
  noTerminator : 0#8 ∉ h.todo
  ready : s.ready = h.ready
  queue : s.uart.queue = h.queue
  line : s.uart.line = h.delivered
  dlab : s.uart.dlab = false
  room_eq : s.uart.room = room

theorem Sends.kernel {room : ℕ} {h : Handshake Byte} (hs : Sends m room s h) (others : Byte) :
    Sends m room (serialSendStep m others s) (h.send room) := by
  cases htodo : h.todo with
  | nil =>
    have hz : m s.str = 0#8 := by
      have := hs.spelled
      rw [htodo] at this
      exact this.1
    rwa [serialSendStep, if_pos hz, Handshake.send, htodo]
  | cons b todo =>
    obtain ⟨hb, htail⟩ : m s.str = b ∧ Spelled m (s.str + 1#64) (todo ++ [0#8]) := by
      have := hs.spelled
      rwa [htodo] at this
    have hmem := hs.noTerminator
    rw [htodo, List.mem_cons, not_or] at hmem
    have hne : m s.str ≠ 0#8 := fun hz => hmem.1 (hz.symm.trans hb)
    cases hready : h.ready with
    | true =>
      have hr : s.ready = true := hs.ready.trans hready
      simp only [serialSendStep, if_neg hne, hr, if_true, Handshake.send, htodo, hready]
      have hout : s.uart.outb com1 (m s.str) =
          { s.uart with queue := if h.queue.length < room then h.queue ++ [b] else h.queue } := by
        simp only [Uart.outb, if_true, hs.dlab, Bool.false_eq_true, if_false, hs.room_eq, hs.queue, hb]
      rw [hout]
      exact ⟨htail, hmem.2, rfl, rfl, hs.line, hs.dlab, hs.room_eq⟩
    | false =>
      have hr : s.ready = false := hs.ready.trans hready
      simp only [serialSendStep, if_neg hne, hr, Bool.false_eq_true, if_false, Handshake.send, htodo,
        hready]
      refine ⟨?_, ?_, ?_, hs.queue, hs.line, hs.dlab, hs.room_eq⟩
      · simpa [htodo] using hs.spelled
      · simpa [htodo] using hs.noTerminator
      · have hempty := isTransmitEmpty_iff s.uart others
        rw [hs.queue] at hempty
        cases hq : h.queue with
        | nil => simpa [hq] using hempty
        | cons a q => simpa [hq] using hempty

theorem Sends.transmit {room : ℕ} {h : Handshake Byte} (hs : Sends m room s h) :
    Sends m room { s with uart := s.uart.transmit } h.receive := by
  cases hq : h.queue with
  | nil =>
    have hsq := hs.queue.trans hq
    simp only [Uart.transmit, hsq, Handshake.receive, hq]
    exact hs
  | cons b queue =>
    have hsq := hs.queue.trans hq
    simp only [Uart.transmit, hsq, Handshake.receive, hq]
    refine ⟨hs.spelled, hs.noTerminator, hs.ready, rfl, ?_, hs.dlab, hs.room_eq⟩
    exact congrArg (· ++ [b]) hs.line

theorem Sends.move {room : ℕ} {h : Handshake Byte} (a : SerialMove) (hs : Sends m room s h) :
    Sends m room (serialMove m a s) (Handshake.move room (party a) h) := by
  cases a with
  | kernel others => exact hs.kernel others
  | uart => exact hs.transmit

theorem room_pos (u : Uart) : 0 < u.room := by
  rw [Uart.room]
  split <;> decide

/-- The sender has a string to send, and the UART may still have something from before. -/
def start (u : Uart) (bs : List Byte) : Handshake Byte := ⟨bs, false, u.queue, u.line⟩

theorem sends_start (hd : u.dlab = false) (h : Spelled m str (bs ++ [0#8])) (h0 : 0#8 ∉ bs) :
    Sends m u.room ⟨str, false, u⟩ (start u bs) := ⟨h, h0, rfl, rfl, rfl, hd, rfl⟩

theorem start_sound (u : Uart) (bs : List Byte) : (start u bs).Sound := fun h => Bool.noConfusion h

/-- Whenever the kernel and the UART get to move: no byte is lost, doubled or overtaken. -/
theorem serialSendString_safe (hd : u.dlab = false) (h : Spelled m str (bs ++ [0#8])) (h0 : 0#8 ∉ bs)
    (turn : ℕ → SerialMove) (n : ℕ) :
    ∃ todo, Spelled m (after (serialMove m) turn ⟨str, false, u⟩ n).str (todo ++ [0#8]) ∧
      (after (serialMove m) turn ⟨str, false, u⟩ n).uart.line ++
        ((after (serialMove m) turn ⟨str, false, u⟩ n).uart.queue ++ todo) =
      u.line ++ (u.queue ++ bs) := by
  have hsim := after_simulates party turn (sends_start hd h h0)
    (fun a _ _ hs => Sends.move a hs) n
  have hall := Handshake.after_all (fun k => party (turn k)) (start_sound u bs) (room_pos u) n
  rw [Handshake.all, ← hsim.line, ← hsim.queue] at hall
  exact ⟨_, hsim.spelled, hall⟩

/-- The FIFO is on, and the UART has sent something before. -/
def freshUart : Uart := ⟨0#8, 0x03#8, 0xC7#8, 0x0B#8, 0x03#8, 0#8, [], [0x0A#8]⟩

/-- `ok` at `0x1000`. -/
def okString : Bytes := storeBytes (fun _ => 0#8) 0x1000#64 [0x6F#8, 0x6B#8]

theorem spelled_okString : Spelled okString 0x1000#64 ([0x6F#8, 0x6B#8] ++ [0#8]) := by
  refine ⟨?_, ?_, ?_, trivial⟩ <;> decide +kernel

/-- The kernel and the UART take turns. -/
def turns (k : ℕ) : SerialMove := if k % 2 = 0 then .kernel 0#8 else .uart

theorem serialSendString_safe_okString :
    ∃ todo, Spelled okString (after (serialMove okString) turns ⟨0x1000#64, false, freshUart⟩ 3).str
          (todo ++ [0#8]) ∧
        (after (serialMove okString) turns ⟨0x1000#64, false, freshUart⟩ 3).uart.line ++
          ((after (serialMove okString) turns ⟨0x1000#64, false, freshUart⟩ 3).uart.queue ++ todo) =
          [0x0A#8, 0x6F#8, 0x6B#8] :=
  serialSendString_safe (by decide) spelled_okString (by decide) turns 3

/-- As long as both get to move again and again, the whole string is transmitted. -/
theorem serialSendString_delivers (hd : u.dlab = false) (h : Spelled m str (bs ++ [0#8]))
    (h0 : 0#8 ∉ bs) (hfair : Fair party turn) :
    ∃ n, m (after (serialMove m) turn ⟨str, false, u⟩ n).str = 0#8 ∧
      (after (serialMove m) turn ⟨str, false, u⟩ n).uart.queue = [] ∧
      (after (serialMove m) turn ⟨str, false, u⟩ n).uart.line = u.line ++ (u.queue ++ bs) := by
  have hfair' : Fair id fun k => party (turn k) := hfair
  obtain ⟨n, ⟨htodo, hqueue⟩, hall⟩ :=
    Handshake.exists_delivered (start_sound u bs) (room_pos u) hfair'
  have hsim := after_simulates party turn (sends_start hd h h0)
    (fun a _ _ hs => Sends.move a hs) n
  have hspelled := hsim.spelled
  rw [htodo] at hspelled
  exact ⟨n, hspelled.1, hsim.queue.trans hqueue, hsim.line.trans hall⟩

theorem fair_turns : Fair party turns := by
  intro p n
  cases p with
  | sender => exact ⟨2 * n, by omega, by simp [turns, party]⟩
  | receiver => exact ⟨2 * n + 1, by omega, by simp [turns, party, Nat.add_mod]⟩

theorem serialSendString_delivers_okString :
    ∃ n, (after (serialMove okString) turns ⟨0x1000#64, false, freshUart⟩ n).uart.line =
      [0x0A#8, 0x6F#8, 0x6B#8] := by
  have hd : freshUart.dlab = false := by decide
  obtain ⟨n, -, -, hline⟩ := serialSendString_delivers hd spelled_okString (by decide) fair_turns
  exact ⟨n, hline⟩

/-! One string after the other -/

/-- `serial_send_string` has been called with the string `bs`, and has returned. -/
def Sent (u : Uart) (bs : List Byte) (u' : Uart) : Prop :=
  ∃ m str turn n, Spelled m str (bs ++ [0#8]) ∧ 0#8 ∉ bs ∧
    m (after (serialMove m) turn ⟨str, false, u⟩ n).str = 0#8 ∧
    (after (serialMove m) turn ⟨str, false, u⟩ n).uart = u'

theorem Sent.step {u' : Uart} (hd : u.dlab = false) (h : Sent u bs u') :
    u'.dlab = false ∧ u'.line ++ u'.queue = u.line ++ u.queue ++ bs := by
  obtain ⟨m, str, turn, n, hspelled, h0, hend, rfl⟩ := h
  have hsim := after_simulates party turn (sends_start hd hspelled h0)
    (fun a _ _ hs => Sends.move a hs) n
  have hall := Handshake.after_all (fun k => party (turn k)) (start_sound u bs) (room_pos u) n
  -- the string is at its end, so that nothing is left to be sent
  have htodo : (after (Handshake.move u.room) (fun k => party (turn k)) (start u bs) n).todo = [] := by
    cases hleft : (after (Handshake.move u.room) (fun k => party (turn k)) (start u bs) n).todo with
    | nil => rfl
    | cons b todo =>
      have hb := hsim.spelled
      have hmem := hsim.noTerminator
      rw [hleft] at hb hmem
      exact absurd (hend.symm.trans hb.1) (fun hz => hmem (hz ▸ List.mem_cons_self))
  rw [Handshake.all, htodo, List.append_nil, ← hsim.line, ← hsim.queue] at hall
  exact ⟨hsim.dlab, hall.trans (List.append_assoc _ _ _).symm⟩

/-- All that is sent in calls one after the other arrives in this order, behind what was on the line
before the console was set up. -/
theorem serial_in_order {u' : Uart} {bss : List (List Byte)}
    (h : Run Sent (serialInit u) bss u') : u'.line ++ u'.queue = u.line ++ bss.flatten := by
  have hrun : ∀ {v v' : Uart} {bss : List (List Byte)}, Run Sent v bss v' → v.dlab = false →
      v'.line ++ v'.queue = v.line ++ v.queue ++ bss.flatten := by
    intro v v' bss hrun
    induction hrun with
    | refl v => exact fun _ => by simp
    | stepL hsent _ ih =>
      intro hd
      obtain ⟨hd', hline⟩ := hsent.step hd
      rw [ih hd', hline, List.flatten_cons, List.append_assoc _ _ (List.flatten _)]
  have hinit := hrun h (dlab_serialInit u)
  rwa [serialInit_eq, List.append_nil] at hinit

/-- `ok`, and then its second letter. -/
theorem serial_in_order_okString :
    ∃ u', Run Sent (serialInit freshUart) [[0x6F#8, 0x6B#8], [0x6B#8]] u' ∧
      u'.line ++ u'.queue = [0x0A#8, 0x6F#8, 0x6B#8, 0x6B#8] := by
  let first := after (serialMove okString) turns ⟨0x1000#64, false, serialInit freshUart⟩ 8
  let second := after (serialMove okString) turns ⟨0x1001#64, false, first.uart⟩ 8
  have hfirst : Sent (serialInit freshUart) [0x6F#8, 0x6B#8] first.uart :=
    ⟨okString, 0x1000#64, turns, 8, spelled_okString, by decide, by decide +kernel, rfl⟩
  have hletter : Spelled okString 0x1001#64 ([0x6B#8] ++ [0#8]) := by
    refine ⟨?_, ?_, trivial⟩ <;> decide +kernel
  have hsecond : Sent first.uart [0x6B#8] second.uart :=
    ⟨okString, 0x1001#64, turns, 8, hletter, by decide, by decide +kernel, rfl⟩
  have hrun : Run Sent (serialInit freshUart) [[0x6F#8, 0x6B#8], [0x6B#8]] second.uart :=
    .stepL hfirst (.stepL hsecond (.refl _))
  exact ⟨_, hrun, serial_in_order hrun⟩

end Serial

end KnutOS
