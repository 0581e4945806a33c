/-! What the kernel knows of the processor: the memory attribute slots, the values that
control paging, and the answers of the build that runs without the real hardware. -/

namespace BareKernel.Board.Processor

/-! ## Memory attribute slots -/

def deviceStrict : Nat := 0

def deviceEarlyAck : Nat := 1

def deviceGathering : Nat := 2

def normalNonCacheable : Nat := 3

def normalCacheable : Nat := 4

/-- The byte of each slot, slot 0 in the lowest. -/
def attributeIndirection : Nat :=
  0x00 <<< (8 * deviceStrict) ||| 0x04 <<< (8 * deviceEarlyAck) |||
    0x0C <<< (8 * deviceGathering) ||| 0x44 <<< (8 * normalNonCacheable) |||
    0xFF <<< (8 * normalCacheable)

/-! ## Control of paging -/

/-- 64 less the 39 bits of a virtual address. -/
def sizeOffset : Nat := 25

/-- Write-back, inner-shareable walks over a 4 KB granule for one half of the address space. -/
def walkControl (granule : Nat) : Nat :=
  sizeOffset ||| 0b01 <<< 8 ||| 0b01 <<< 10 ||| 0b11 <<< 12 ||| granule <<< 14

/-- The lower half in the low 16 bits, the upper half above; the granule is spelled differently
in the two. -/
def pagingControl : Nat := walkControl 0b00 ||| walkControl 0b10 <<< 16

def controlPaging : Nat := 1 <<< 0

def controlDataCache : Nat := 1 <<< 2

def controlInstructionCache : Nat := 1 <<< 12

/-! ## Without the real hardware -/

def coreId : Nat := 0

def exceptionLevel : Nat := 1

def pagingEnabled : Bool := false

def cacheLineBytes : Nat := 64

end BareKernel.Board.Processor
