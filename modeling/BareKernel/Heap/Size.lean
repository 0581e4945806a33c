/-! Sizes of the heap, in units of eight bytes, and the number of units that serve a request. -/

namespace BareKernel.Heap

def unitBytes : Nat := 8

/-- Header and footer of a block. -/
def tagUnits : Nat := 2

/-- Header, two links and footer: what a free block needs. -/
def minBlockUnits : Nat := 4

/-- Each end of the arena is a taken block of this size. -/
def sentinelUnits : Nat := 2

def minArenaUnits : Nat := 2 * sentinelUnits + minBlockUnits

/-- Free-list nodes that one request looks at. -/
def scanLimit : Nat := 20

def payloadAlign : Nat := unitBytes

/-- The largest block whose byte size is a signed 64-bit number. -/
def maxRequestUnits : Nat := 0x7FFFFFFFFFFFFFFF / unitBytes

/-- The payload rounded up to units, with both tags, and never less than a free block needs. -/
def unitsFor (bytes : Nat) : Option Nat :=
  let units := max minBlockUnits ((bytes + (unitBytes - 1)) / unitBytes + tagUnits)
  if units ≤ maxRequestUnits then some units else none

theorem minBlockUnits_le_of_unitsFor {bytes units : Nat} (h : unitsFor bytes = some units) :
    minBlockUnits ≤ units := by
  simp only [unitsFor] at h
  split at h
  · cases h
    exact Nat.le_max_left _ _
  · contradiction

end BareKernel.Heap
