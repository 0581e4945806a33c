import BareKernel.Heap.Action
import BareKernel.Heap.Size

/-! Blocks. The first and the last unit of a block hold the same signed tag: its magnitude is the
size in units, positive for a free block and negative for a taken one. A free block keeps the
indices of its neighbours on the free list in the two units after its header. Index 0 is the
leading sentinel and stands for no block in a link. -/

namespace BareKernel.Heap

def sizeOfTag (tag : Int64) : Nat := tag.toInt.natAbs

def isFreeTag (tag : Int64) : Bool := 0 < tag.toInt

def isTakenTag (tag : Int64) : Bool := tag.toInt < 0

def freeTag (size : Nat) : Int64 := Int64.ofNat size

def takenTag (size : Nat) : Int64 := -Int64.ofNat size

/-- A link is stored as the unsigned 64-bit number. -/
def linkOfUnit (u : Int64) : Nat := u.toUInt64.toNat

def unitOfLink (i : Nat) : Int64 := Int64.ofNat i

/-- The block whose header is at this index. -/
structure Block where
  index : Nat
  deriving DecidableEq, Repr

namespace Block

open Heap.Action (plus read write)

def tag (b : Block) : Action Int64 := read b.index

def size (b : Block) : Action Nat := do return sizeOfTag (← b.tag)

def isFree (b : Block) : Action Bool := do return isFreeTag (← b.tag)

def isTaken (b : Block) : Action Bool := do return isTakenTag (← b.tag)

def footerIndex (b : Block) : Action Nat := do return (← plus b.index (← b.size)) - 1

def footerTag (b : Block) : Action Int64 := do read (← b.footerIndex)

/-- The block whose last unit is at `footer`. -/
def endingAt (footer : Nat) : Action Block := do
  return ⟨footer + 1 - sizeOfTag (← read footer)⟩

def left (b : Block) : Action Block := endingAt (b.index - 1)

def right (b : Block) : Action Block := do return ⟨← plus b.index (← b.size)⟩

def next (b : Block) : Action Nat := do return linkOfUnit (← read (← plus b.index 1))

def prev (b : Block) : Action Nat := do return linkOfUnit (← read (← plus b.index 2))

def setNext (b : Block) (i : Nat) : Action Unit := do write (← plus b.index 1) (unitOfLink i)

def setPrev (b : Block) (i : Nat) : Action Unit := do write (← plus b.index 2) (unitOfLink i)

def writeTags (b : Block) (tag : Int64) (size : Nat) : Action Unit := do
  if size < tagUnits then .fail (.fault .blockTooSmall)
  write b.index tag
  write ((← plus b.index size) - 1) tag

def markFree (b : Block) (size : Nat) : Action Unit := b.writeTags (freeTag size) size

def markTaken (b : Block) (size : Nat) : Action Unit := b.writeTags (takenTag size) size

/-- Clear both tags, so that a pointer kept to this block no longer finds one. -/
def scrub (b : Block) : Action Unit := do
  let footer ← b.footerIndex
  write b.index 0
  write footer 0

/-- Both tags are inside the arena of `len` units and agree. -/
def check (len : Nat) (b : Block) : Action Unit := do
  if len ≤ b.index then .fail (.error .indexOutOfRange)
  let size ← b.size
  if size = 0 then .fail (.error .corruptBlock)
  if len < (← plus b.index size) then .fail (.error .corruptBlock)
  if (← b.tag) ≠ (← b.footerTag) then .fail (.error .corruptBlock)

/-- A link needs no block when it stands for none. -/
def checkLink (len i : Nat) : Action Unit :=
  if i = 0 then pure () else check len ⟨i⟩

/-- Check the link only in a heap that has its consistency checks on. -/
def guardLink (checks : Bool) (len i : Nat) : Action Unit :=
  if checks then checkLink len i else pure ()

end Block

/-- The address of the first byte after the header at `index`. -/
def payloadOf (base index : Nat) : Nat := base + (index + 1) * unitBytes

/-- The header index that a payload address belongs to. The two sentinels have no payload that
was ever handed out. -/
def indexOfPayload (base len addr : Nat) : Except Error Nat :=
  if addr ≤ base ∨ base + len * unitBytes ≤ addr ∨ (addr - base) % unitBytes ≠ 0 then
    .error .foreignPointer
  else
    let index := (addr - base) / unitBytes - 1
    if index = 0 ∨ len ≤ index + sentinelUnits then .error .foreignPointer else .ok index

end BareKernel.Heap
