import BareKernel.Heap.Block

/-! Counts over the arena, gathered by one walk along the tags and one along the free list. -/

namespace BareKernel.Heap

structure Stats where
  totalUnits : Nat := 0
  freeUnits : Nat := 0
  takenUnits : Nat := 0
  sentinelUnits : Nat := 0
  freeBlocks : Nat := 0
  takenBlocks : Nat := 0
  largestFreeUnits : Nat := 0
  freeListLen : Nat := 0
  allocations : Nat := 0
  frees : Nat := 0
  deriving DecidableEq, Repr

namespace Stats

/-- Count the block with this tag at `index`. -/
def count (len index : Nat) (tag : Int64) (s : Stats) : Stats :=
  let size := sizeOfTag tag
  if index = 0 ∨ index = len - Heap.sentinelUnits then
    { s with sentinelUnits := s.sentinelUnits + size }
  else if isFreeTag tag then
    { s with
      freeUnits := s.freeUnits + size
      freeBlocks := s.freeBlocks + 1
      largestFreeUnits := max s.largestFreeUnits size }
  else
    { s with takenUnits := s.takenUnits + size, takenBlocks := s.takenBlocks + 1 }

/-- Count the blocks from `index` on; a unit without a size ends the walk. -/
def countBlocks (len index : Nat) (s : Stats) : Action Stats :=
  if _h : index < len then do
    let tag ← Block.tag ⟨index⟩
    if _hs : sizeOfTag tag = 0 then return s
    else countBlocks len (index + sizeOfTag tag) (s.count len index tag)
  else pure s
termination_by len - index

/-- Count at most `limit` nodes of the free list. -/
def countNodes : (limit node : Nat) → Action Nat
  | 0, _ => pure 0
  | limit + 1, node => do
    if node = 0 then return 0
    return (← countNodes limit (← Block.next ⟨node⟩)) + 1

/-- The free list is followed to one node past the number of free blocks at most. -/
def collect (len allocations frees : Nat) : Action Stats := do
  let s ← countBlocks len 0
    { totalUnits := len, allocations := allocations, frees := frees }
  let nodes ← countNodes (s.freeBlocks + 1) (← Action.head)
  return { s with freeListLen := nodes }

/-- The share of the free units that the largest free block holds; 1 when nothing is free. -/
def contiguity (s : Stats) : Float :=
  if s.freeUnits = 0 then 1.0
  else s.largestFreeUnits.toUInt64.toFloat / s.freeUnits.toUInt64.toFloat

end Stats

end BareKernel.Heap
