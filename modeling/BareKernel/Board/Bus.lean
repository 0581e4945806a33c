import BareKernel.Board.Uart
import BareKernel.Firmware.Message

/-! The devices as the kernel meets them: the words that each polled register will deliver, in
order, what the firmware will write into messages and when, and a record of every access so far. A
register whose words have run out reads as idle, so every poll ends. -/

namespace BareKernel.Board

inductive Access where
  | read (addr : Nat) (value : UInt32)
  /-- A poll of the UART that its script no longer answers: 0. -/
  | idle (addr : Nat)
  /-- A mailbox read that its script no longer answers: the request last posted. -/
  | echo (addr : Nat) (request : UInt32)
  | write (addr : Nat) (value : UInt32)
  | store (addr value : Nat)
  /-- A request handed to the firmware, with the message as it was at that moment. -/
  | post (addr : Nat) (request : UInt32) (message : Firmware.Message)
  | transmit (byte : UInt8)

structure Bus where
  uartFlags : List UInt32 := []
  mailStatus0 : List UInt32 := []
  mailStatus1 : List UInt32 := []
  mailRead0 : List UInt32 := []
  /-- Words that the firmware puts, by index, into each message in turn when it is posted. -/
  replies : List (List (Nat × UInt32)) := []
  /-- Words that it puts there while it is waited for, by each access that follows a post. -/
  rewrites : List (List (Nat × UInt32)) := []
  pinSelect : UInt32 := 0
  trace : Array Access := #[]

namespace Bus

def record (b : Bus) (a : Access) : Bus := { b with trace := b.trace.push a }

def write (b : Bus) (addr : Nat) (value : UInt32) : Bus := b.record (.write addr value)

def store (b : Bus) (addr value : Nat) : Bus := b.record (.store addr value)

def transmit (b : Bus) (byte : UInt8) : Bus := b.record (.transmit byte)

/-! ## UART flags -/

/-- Read the UART flags once; the answer is whether every flag of `mask` is clear. -/
def pollUart (b : Bus) (mask : UInt32) : Bool × Bus :=
  match b.uartFlags with
  | [] => (true, b.record (.idle Uart.flagRegister))
  | w :: rest => (w &&& mask = 0, { b with uartFlags := rest }.record (.read Uart.flagRegister w))

/-! ## Pins -/

def pinSelectRegister : Nat := gpioBase + 0x04

def readPins (b : Bus) : UInt32 × Bus :=
  (b.pinSelect, b.record (.read pinSelectRegister b.pinSelect))

def writePins (b : Bus) (value : UInt32) : Bus :=
  { b with pinSelect := value }.write pinSelectRegister value

/-! ## Mailbox -/

def awaitStatus (addr : Nat) (mask : UInt32) :
    List UInt32 → Array Access → List UInt32 × Array Access
  | [], trace => ([], trace.push (.read addr 0))
  | w :: rest, trace =>
    let trace := trace.push (.read addr w)
    if w &&& mask = 0 then (rest, trace) else awaitStatus addr mask rest trace

/-- Read the status of the outgoing mailbox until it has room. -/
def awaitRoom (b : Bus) (addr : Nat) (full : UInt32) : Bus :=
  let ⟨flags, s0, s1, r0, replies, rewrites, pins, trace⟩ := b
  let (s1, trace) := awaitStatus addr full s1 trace
  ⟨flags, s0, s1, r0, replies, rewrites, pins, trace⟩

/-- The message after the firmware's next answer has been written into it. -/
def answer (b : Bus) (m : Firmware.Message) : Firmware.Message × Bus :=
  match b.replies with
  | [] => (m, b)
  | words :: rest => (m.setWords words, { b with replies := rest })

/-- An access after a post, by which the firmware may have written into the message once more. -/
def observe (b : Bus) (m : Firmware.Message) (a : Access) : Firmware.Message × Bus :=
  match b.rewrites with
  | [] => (m, b.record a)
  | words :: rest => (m.setWords words, { b with rewrites := rest }.record a)

/-- Read the status of the incoming mailbox until it holds something. -/
def awaitMail (addr : Nat) (empty : UInt32) :
    List UInt32 → Firmware.Message → Bus → Firmware.Message × Bus
  | [], m, b => { b with mailStatus0 := [] }.observe m (.read addr 0)
  | w :: rest, m, b =>
    let read := { b with mailStatus0 := rest }.observe m (.read addr w)
    if w &&& empty = 0 then read else awaitMail addr empty rest read.1 read.2

end Bus

end BareKernel.Board
