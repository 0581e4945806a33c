import BareKernel.Board.Bus

/-! The mailbox handshake. A request names the message's address and a channel in one word; the
firmware has answered when the same word comes back. -/

namespace BareKernel.Firmware

def propertyChannel : UInt32 := 8

/-- Status of the outgoing mailbox: no room. -/
def mailFull : UInt32 := 0x80000000

/-- Status of the incoming mailbox: nothing there. -/
def mailEmpty : UInt32 := 0x40000000

/-- A mailbox with its registers from `base` on and its message buffer at `buffer`. -/
structure Mailbox where
  base : Nat
  buffer : UInt32
  message : Message := .blank

namespace Mailbox

open Board

def read0 (m : Mailbox) : Nat := m.base

def status0 (m : Mailbox) : Nat := m.base + 0x18

def write1 (m : Mailbox) : Nat := m.base + 0x20

def status1 (m : Mailbox) : Nat := m.base + 0x38

/-- The address in the upper bits and the channel in the lowest four. -/
def request (m : Mailbox) : UInt32 := (m.buffer &&& ~~~0xF) ||| (propertyChannel &&& 0xF)

/-- Wait for a word and read it, with `rest` to come. The message is what the firmware has made of it
by then. -/
def hear (m : Mailbox) (rest : List UInt32) (word : Access) (bus : Bus) : Mailbox × Bus :=
  let (message, bus) := Bus.awaitMail m.status0 mailEmpty bus.mailStatus0 m.message bus
  let (message, bus) := { bus with mailRead0 := rest }.observe message word
  ({ m with message := message }, bus)

/-- Read what comes in until it is the request; other words are dropped. -/
def awaitEcho : List UInt32 → Mailbox → Bus → Mailbox × Bus
  | [], m, bus => m.hear [] (.echo m.read0 m.request) bus
  | w :: rest, m, bus =>
    let heard := m.hear rest (.read m.read0 w) bus
    if w = m.request then heard else awaitEcho rest heard.1 heard.2

/-- Post the message that is in the buffer and wait for the firmware to have answered it. -/
def exchange (m : Mailbox) (bus : Bus) : Mailbox × Bus :=
  let bus := bus.awaitRoom m.status1 mailFull
  let bus := bus.record (.post m.write1 m.request m.message)
  let (message, bus) := bus.answer m.message
  awaitEcho bus.mailRead0 { m with message := message } bus

/-- One tag and its values to the firmware and back; a message that is too long touches neither
the buffer nor a device. -/
def call (tag : UInt32) (values : List UInt32) (m : Mailbox) (bus : Bus) :
    Except Error (List UInt32) × Mailbox × Bus :=
  match Message.encode tag values with
  | .error e => (.error e, m, bus)
  | .ok message =>
    let (m, bus) := exchange { m with message := message } bus
    (m.message.decode values, m, bus)

def channel : Channel (StateM (Mailbox × Bus)) := fun tag values (m, bus) =>
  let (r, m, bus) := call tag values m bus
  (r, m, bus)

end Mailbox

end BareKernel.Firmware
