import BareKernel.Heap.Block

/-! The whole-arena check: sentinels, tags of every block, no two free neighbours, and a free list
of exactly the free blocks. -/

namespace BareKernel.Heap.Integrity

/-- Follow the tags from `index` to the end of the arena and count the free blocks. -/
def countFreeBlocks (len : Nat) (index found : Nat) (afterFree : Bool) : Action Nat :=
  if h : index < len then do
    let block : Block := ⟨index⟩
    block.check len
    let isFree ← block.isFree
    if isFree && afterFree then .fail (.error .uncoalesced)
    let size ← block.size
    -- the check has refused a block without size
    if hs : size = 0 then .fail (.error .corruptBlock)
    else countFreeBlocks len (index + size) (if isFree then found + 1 else found) isFree
  else if index ≠ len then .fail (.error .corruptBlock)
  else pure found
termination_by len - index

/-- A free-list node is a free block and points back at the node before it. -/
def checkNode (len prev node : Nat) : Action Unit := do
  Block.check len ⟨node⟩
  if !(← Block.isFree ⟨node⟩) then .fail (.error .freeListCorrupt)
  if (← Block.prev ⟨node⟩) ≠ prev then .fail (.error .freeListCorrupt)

/-- Follow the free list from `node`, with `missing` free blocks left to visit. -/
def checkList (len missing prev node : Nat) : Action Unit := do
  if node = 0 then
    if missing ≠ 0 then .fail (.error .freeListCorrupt)
  else
    checkNode len prev node
    match missing with
    | 0 => .fail (.error .freeListCorrupt)
    | missing + 1 => checkList len missing node (← Block.next ⟨node⟩)

def check (len : Nat) : Action Unit := do
  let sentinel := takenTag sentinelUnits
  if (← Block.tag ⟨0⟩) ≠ sentinel then .fail (.error .corruptBlock)
  if (← Block.tag ⟨len - sentinelUnits⟩) ≠ sentinel then .fail (.error .corruptBlock)
  let freeBlocks ← countFreeBlocks len 0 0 false
  checkList len freeBlocks 0 (← Action.head)

end BareKernel.Heap.Integrity
