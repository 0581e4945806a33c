import BareKernel.KernelMemory

/-! Allocation by layout. Payloads are aligned to 8 as they come; for a stricter alignment the
block is larger, the address handed out is the first suitable one that leaves a word below it
inside the block, and that word keeps the address of the block's payload. -/

namespace BareKernel.Heap

/-- A size and a power of two; the size rounded up to it is still a signed 64-bit number. -/
structure Layout where
  size : Nat
  align : Nat
  align_eq : 1 <<< align.log2 = align
  size_le : size + align ≤ 0x8000000000000000

namespace Layout

def errorMessage : String := "invalid parameters to Layout::from_size_align"

def ofSizeAlign? (size align : Nat) : Option Layout :=
  if h : 1 <<< align.log2 = align ∧ size + align ≤ 0x8000000000000000 then
    some ⟨size, align, h.1, h.2⟩
  else none

/-- The first multiple of `align` that is not below `n`. -/
def roundUp (n align : Nat) : Nat := (n + align - 1) / align * align

end Layout

end Heap

namespace KernelMemory

open Heap

def stashBytes : Nat := 8

/-- Null when there is no room. -/
def allocateLayout (m : KernelMemory) (layout : Layout) : Except Fatal Nat × KernelMemory :=
  if layout.align ≤ payloadAlign then
    let (r, m) := m.allocate layout.size
    (r.map fun p => p.getD 0, m)
  else
    let (r, m) := m.allocate (layout.size + layout.align)
    match r with
    | .error e => (.error e, m)
    | .ok none => (.ok 0, m)
    | .ok (some raw) =>
      let aligned := Layout.roundUp (raw + unitBytes) layout.align
      (.ok aligned, m.setNumberAt (aligned - stashBytes) stashBytes raw)

def freeLayout (m : KernelMemory) (addr : Nat) (layout : Layout) :
    Except Fatal Unit × KernelMemory :=
  if addr = 0 then (.ok (), m)
  else if layout.align ≤ payloadAlign then m.free addr
  else
    let raw := m.numberAt (addr - stashBytes) stashBytes
    m.free raw

def allocateZeroed (m : KernelMemory) (layout : Layout) : Except Fatal Nat × KernelMemory :=
  let (r, m) := m.allocateLayout layout
  match r with
  | .ok addr =>
    if addr = 0 then (.ok 0, m)
    else (.ok addr, m.setBytes addr (List.replicate layout.size 0))
  | .error e => (.error e, m)

/-- A block of the new size with the bytes that both have in common; the old one is given back
only when there was room for the new one. -/
def reallocate (m : KernelMemory) (addr : Nat) (old new : Layout) :
    Except Fatal Nat × KernelMemory :=
  let (r, m) := m.allocateLayout new
  match r with
  | .error e => (.error e, m)
  | .ok fresh =>
    if fresh = 0 then (.ok 0, m)
    else
      let kept := m.bytesAt addr (min old.size new.size)
      let (r, m) := (m.setBytes fresh kept).freeLayout addr old
      (r.map fun _ => fresh, m)

/-- Move a value, given as its bytes, into a block of its own. Both a stricter alignment and a
full heap are fatal. -/
def allocateObject (m : KernelMemory) (align : Nat) (bytes : List UInt8) :
    Except Fatal Nat × KernelMemory :=
  if payloadAlign < align then (.error (.unsupportedAlignment align), m)
  else
    let (r, m) := m.allocate (max bytes.length 1)
    match r with
    | .error e => (.error e, m)
    | .ok none => (.error (.outOfMemory bytes.length), m)
    | .ok (some addr) => (.ok addr, m.setBytes addr bytes)

/-- Drop a value that was moved into a block of its own, and give the block back. A value may write
its own bytes while it is dropped; `left` is what it leaves of them. -/
def freeObject (m : KernelMemory) (addr : Nat) (left : List UInt8) :
    Except Fatal Unit × KernelMemory :=
  (m.setBytes addr left).free addr

end KernelMemory

end BareKernel
