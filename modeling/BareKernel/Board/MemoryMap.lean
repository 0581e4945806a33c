/-! Physical addresses and fixed numbers of the board. -/

namespace BareKernel.Board

/-- Start of the 16 MB peripheral window. -/
def peripheralBase : Nat := 0x3F000000

def peripheralSize : Nat := 16 * 1024 * 1024

/-- Mailboxes and timers of the cores themselves, right after the window. -/
def localPeripheralBase : Nat := 0x40000000

def mailboxBase : Nat := peripheralBase + 0xB880

def gpioBase : Nat := peripheralBase + 0x200000

def uartBase : Nat := peripheralBase + 0x201000

def coreCount : Nat := 4

/-- Where the firmware looks for the address a parked core should start at, by core. -/
def spinTable : List Nat := [0xD8, 0xE0, 0xE8, 0xF0]

def uartClockHz : Nat := 48000000

def baudRate : Nat := 115200

end BareKernel.Board
