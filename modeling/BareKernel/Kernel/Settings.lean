import BareKernel.Board.MemoryMap
import BareKernel.Log.Record

/-! The kernel's own fixed numbers. -/

namespace BareKernel.Kernel

def coreCount : Nat := Board.coreCount

/-- The core that sets everything up. -/
def primaryCore : Nat := 0

def stackBytes : Nat := 0x10000

/-- The most verbose level that reaches the console. -/
def logLevel : Log.Level := .debug

/-- Longer lines are cut. -/
def logLineBytes : Nat := 256

end BareKernel.Kernel
