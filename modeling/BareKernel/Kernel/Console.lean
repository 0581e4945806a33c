import BareKernel.Kernel.Machine

/-! The console among several cores: one call's text goes out whole, because the call holds the
console's lock; a text of several pieces takes several calls. -/

namespace BareKernel.Kernel

open Board.Uart

/-- Program pins, divisors and line format, with the UART off and idle. -/
def setUpConsole : Code Unit := do
  call (.writeDevice controlRegister 0)
  call (.pollUart busy)
  let pins ← call .readPins
  call (.writePins ((pins &&& ~~~pinMask) ||| pinFunction))
  call (.writeDevice interruptClearRegister 0x7FF)
  call (.writeDevice integerDivisorRegister (UInt32.ofNat (divisor / 64)))
  call (.writeDevice fractionDivisorRegister (UInt32.ofNat (divisor % 64)))
  call (.writeDevice lineControlRegister lineFormat)
  call (.writeDevice controlRegister enable)
  call .setConsoleReady

def putByte (b : UInt8) : Code Unit := do
  call (.pollUart transmitFull)
  call (.transmit b)

def putBytes : List UInt8 → Code Unit
  | [] => pure ()
  | b :: rest => do
    putByte b
    putBytes rest

def put (s : String) : Code Unit := do
  if ← call .readConsoleReady then guarded .console (putBytes (wire (bytesOf s)))

/-- Formatted text goes out piece by piece. -/
def print (pieces : List String) : Code Unit := pieces.forM put

def printLine (pieces : List String) : Code Unit := do
  print pieces
  put "\n"

end BareKernel.Kernel
