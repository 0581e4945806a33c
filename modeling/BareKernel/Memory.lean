/-! Memory as a run of 64-bit units. The heap keeps its tags and links in whole units; its clients
read and write bytes, little endian within a unit. -/

namespace BareKernel

/-- Units at consecutive addresses. The first address is aligned and not null, and the last one
is still a 64-bit address. -/
structure Memory where
  base : Nat
  units : Array Int64
  base_ne_zero : base ≠ 0
  base_aligned : base % 8 = 0
  end_le : base + 8 * units.size ≤ 0x10000000000000000

/-- A range of addresses that somebody hands over, with no promise on its alignment or that there
is memory behind it. -/
structure Region where
  base : Nat
  size : Nat

namespace Memory

def len (m : Memory) : Nat := m.units.size

def zeroed (base len : Nat) (h₀ : base ≠ 0) (ha : base % 8 = 0)
    (he : base + 8 * len ≤ 0x10000000000000000) : Memory where
  base := base
  units := Array.replicate len 0
  base_ne_zero := h₀
  base_aligned := ha
  end_le := by simpa using he

/-- An index outside the memory changes nothing. -/
def setUnit (m : Memory) (i : Nat) (v : Int64) : Memory where
  base := m.base
  units := m.units.setIfInBounds i v
  base_ne_zero := m.base_ne_zero
  base_aligned := m.base_aligned
  end_le := by simpa using m.end_le

def contains (m : Memory) (addr : Nat) : Bool :=
  m.base ≤ addr && addr < m.base + 8 * m.len

/-- The unit that holds the byte at `addr`, 0 outside. -/
def unitOf (m : Memory) (addr : Nat) : Int64 :=
  if m.contains addr then m.units.getD ((addr - m.base) / 8) 0 else 0

def byteAt (m : Memory) (addr : Nat) : UInt8 :=
  ((m.unitOf addr).toUInt64 >>> (8 * ((addr - m.base) % 8)).toUInt64).toUInt8

/-- Replace byte `k` of a unit. -/
def withByte (u : UInt64) (k : Nat) (b : UInt8) : UInt64 :=
  (u &&& ~~~((0xFF : UInt64) <<< (8 * k).toUInt64)) ||| (b.toUInt64 <<< (8 * k).toUInt64)

/-- An address outside the memory changes nothing. -/
def setByte (m : Memory) (addr : Nat) (b : UInt8) : Memory :=
  if m.contains addr then
    let i := (addr - m.base) / 8
    let u := m.units.getD i 0
    m.setUnit i (withByte u.toUInt64 ((addr - m.base) % 8) b).toInt64
  else m

/-- Replace the whole unit that holds the byte at `addr`. -/
def setUnitOf (m : Memory) (addr : Nat) (v : Int64) : Memory :=
  if m.contains addr then m.setUnit ((addr - m.base) / 8) v else m

/-- How many bytes of a region, from its first on, this memory holds. -/
def bytesWithin (m : Memory) (r : Region) : Nat :=
  if m.base ≤ r.base then min r.size (m.base + 8 * m.len - r.base) else 0

/-- A copy of units of this memory, from an aligned address on. -/
def window (m : Memory) (base len : Nat) (ha : base % 8 = 0) (hb : m.base ≤ base)
    (he : base + 8 * len ≤ m.base + 8 * m.len) : Memory where
  base := base
  units := Array.ofFn fun i : Fin len => m.unitOf (base + 8 * i)
  base_ne_zero := by have := m.base_ne_zero; omega
  base_aligned := ha
  end_le := by
    have := m.end_le
    simp only [Array.size_ofFn]
    unfold Memory.len at he
    omega

@[simp] theorem len_setUnit (m : Memory) (i : Nat) (v : Int64) : (m.setUnit i v).len = m.len := by
  simp [len, setUnit]

@[simp] theorem base_setUnit (m : Memory) (i : Nat) (v : Int64) : (m.setUnit i v).base = m.base :=
  rfl

theorem getElem?_setUnit (m : Memory) (i j : Nat) (v : Int64) :
    (m.setUnit i v).units[j]? =
      if i = j then (if i < m.len then some v else none) else m.units[j]? :=
  Array.getElem?_setIfInBounds

@[simp] theorem len_window (m : Memory) (base len : Nat) (ha hb he) :
    (m.window base len ha hb he).len = len := by
  simp [Memory.len, window]

end Memory

end BareKernel
