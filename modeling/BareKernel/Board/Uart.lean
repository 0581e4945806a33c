import BareKernel.Board.MemoryMap

/-! The UART: its registers, their fields, and the bytes that go over the wire for a text, where a
newline goes out as carriage return and line feed. -/

namespace BareKernel.Board.Uart

def flagRegister : Nat := uartBase + 0x18

def integerDivisorRegister : Nat := uartBase + 0x24

def fractionDivisorRegister : Nat := uartBase + 0x28

def lineControlRegister : Nat := uartBase + 0x2C

def controlRegister : Nat := uartBase + 0x30

def interruptClearRegister : Nat := uartBase + 0x44

/-- Flag 5. -/
def transmitFull : UInt32 := 0x20

/-- Flag 3. -/
def busy : UInt32 := 0x08

/-- Eight data bits, with the FIFOs on. -/
def lineFormat : UInt32 := 0x70

/-- The UART and both directions on. -/
def enable : UInt32 := 0x301

/-- The function bits of pins 14 and 15. -/
def pinMask : UInt32 := 0x3F000

/-- The function that routes both pins to the UART. -/
def pinFunction : UInt32 := 0x24000

/-- The clock over sixteen times the baud rate, in 64ths, rounded up. -/
def divisor : Nat := (uartClockHz * 4 + baudRate - 1) / baudRate

def newline : UInt8 := 10

def carriageReturn : UInt8 := 13

/-- The bytes that go out for these bytes of text. -/
def wire : List UInt8 → List UInt8
  | [] => []
  | b :: rest => if b = newline then carriageReturn :: b :: wire rest else b :: wire rest

/-- Every newline goes out as CR LF, every other byte as it is, in the order of the text. -/
theorem wire_eq_flatMap (bytes : List UInt8) :
    wire bytes = bytes.flatMap fun b => if b = 10 then [13, 10] else [b] := by
  induction bytes with
  | nil => rfl
  | cons b rest ih =>
    by_cases hb : b = 10
    · subst hb
      rw [List.flatMap_cons, ← ih]
      rfl
    · rw [List.flatMap_cons, ← ih, if_neg hb]
      exact if_neg hb

/-- A text's own bytes. -/
def bytesOf (s : String) : List UInt8 := s.toUTF8.toList

end BareKernel.Board.Uart
