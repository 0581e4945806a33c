import BareKernel.Heap.Block

/-! The free list, linked through the free blocks themselves, and the search for a block in it.
New nodes go to the front. -/

namespace BareKernel.Heap.FreeList

/-- Turn the `size` units from `index` on into a free block in front of the list. -/
def push (index size : Nat) : Action Unit := do
  let block : Block := ⟨index⟩
  block.markFree size
  let first ← Action.head
  block.setNext first
  block.setPrev 0
  if first ≠ 0 then Block.setPrev ⟨first⟩ index
  Action.setHead index

def unlink (index : Nat) : Action Unit := do
  let block : Block := ⟨index⟩
  let next ← block.next
  let prev ← block.prev
  if prev = 0 then Action.setHead next else Block.setNext ⟨prev⟩ next
  if next ≠ 0 then Block.setPrev ⟨next⟩ prev

/-- A block of `size` units improves on `best` when it serves the request and is smaller. -/
def better (units size : Nat) (best : Option (Nat × Nat)) : Bool :=
  units ≤ size && best.all fun b => size < b.2

/-- Look at up to `attempts` nodes from `index` on and return the smallest that holds `units`
units, the first one among equals. -/
def scan (checks : Bool) (len units : Nat) :
    (attempts index : Nat) → (best : Option (Nat × Nat)) → Action (Option Nat)
  | 0, _, best => pure (best.map (·.1))
  | attempts + 1, index, best => do
    if index = 0 then return best.map (·.1)
    let block : Block := ⟨index⟩
    Block.guardLink checks len index
    if !(← block.isFree) then .fail (.error .freeListCorrupt)
    let size ← block.size
    let best := if better units size best then some (index, size) else best
    -- the last node that is looked at need not have a link
    if attempts = 0 then return best.map (·.1)
    scan checks len units attempts (← block.next) best

def bestFit (checks : Bool) (len units : Nat) : Action (Option Nat) := do
  scan checks len units scanLimit (← Action.head) none

end BareKernel.Heap.FreeList
