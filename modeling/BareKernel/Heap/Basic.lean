import BareKernel.Heap.FreeList

/-! The three operations on the arena: lay it out, hand out a block, take one back. -/

namespace BareKernel.Heap

/-- Cut `units` units off the best fit. What is left becomes a free block if it is large enough
for one and stays part of the block otherwise. The answer is the header index. -/
def takeFit (checks : Bool) (len units : Nat) : Action (Option Nat) := do
  let some index ← FreeList.bestFit checks len units | return none
  let block : Block := ⟨index⟩
  let size ← block.size
  FreeList.unlink index
  let extra := size - units
  if minBlockUnits ≤ extra then
    block.markTaken units
    FreeList.push (← Action.plus index units) extra
  else
    block.markTaken size
  .countAllocation (pure (some index))

/-- Merge `block` into a free block on its left. The answer is where the merged block starts and
its size, which is read again after the neighbour has left the list. -/
def absorbLeft (block left : Block) (size : Nat) : Action (Nat × Nat) := do
  if ← left.isFree then
    FreeList.unlink left.index
    block.scrub
    return (left.index, ← Action.plus size (← left.size))
  else return (block.index, size)

/-- The size of a block after a free block on its right has become part of it. -/
def absorbRight (right : Block) (size : Nat) : Action Nat := do
  if ← right.isFree then
    let rightSize ← right.size
    FreeList.unlink right.index
    right.scrub
    Action.plus size rightSize
  else return size

/-- Give back the block with this payload, merged with its free neighbours. -/
def giveBack (checks : Bool) (base len addr : Nat) : Action Unit := do
  match indexOfPayload base len addr with
  | .error e => .fail (.error e)
  | .ok index =>
    let block : Block := ⟨index⟩
    Block.guardLink checks len index
    if !(← block.isTaken) then .fail (.error .doubleFree)
    let left ← block.left
    let right ← block.right
    Block.guardLink checks len left.index
    Block.guardLink checks len right.index
    let (start, size) ← absorbLeft block left (← block.size)
    FreeList.push start (← absorbRight right size)
    .countFree (pure ())

/-- As `takeFit`, with the address of the payload for an answer. -/
def takePayload (checks : Bool) (base len units : Nat) : Action (Option Nat) := do
  return (← takeFit checks len units).map (payloadOf base)

/-- As `giveBack`, except that the arena's own base is ignored. -/
def givePayload (checks : Bool) (base len addr : Nat) : Action Unit :=
  if addr = base then pure () else giveBack checks base len addr

/-- A taken sentinel at each end and one free block between them. -/
def layOut (len : Nat) : Action Unit := do
  Block.markTaken ⟨0⟩ sentinelUnits
  FreeList.push sentinelUnits (len - 2 * sentinelUnits)
  Block.markTaken ⟨len - sentinelUnits⟩ sentinelUnits

/-- A heap over the whole of `arena`, with everything between the sentinels free. -/
def ofArena (arena : Memory) : Heap := ((layOut arena.len).run ⟨arena, 0, 0, 0⟩).2

end BareKernel.Heap
