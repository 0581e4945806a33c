import BareKernel.Paging.Descriptor

/-! The kernel's five page tables. Two first-level entries of the identity map lead to 1024
second-level entries, one for each 2 MB of the lowest 2 GB; the last entry of the higher half
leads through a second-level to a third-level table that maps nothing yet. -/

namespace BareKernel.Paging

def entriesPerTable : Nat := 512

def blockShift : Nat := 21

def blockBytes : Nat := 1 <<< blockShift

/-- Each first-level entry covers 1 GB. -/
def firstLevelShift : Nat := 30

def identityBlocks : Nat := 2 * entriesPerTable

def entryBytes : Nat := 8

structure Table (n : Nat) where
  entries : Vector Descriptor n

namespace Table

variable {n : Nat}

def blank (n : Nat) : Table n := ⟨Vector.replicate n .invalid⟩

/-- Make every entry invalid. -/
def clear (t : Table n) : Table n := ⟨t.entries.map fun _ => .invalid⟩

theorem clear_eq_blank (t : Table n) : t.clear = blank n := by
  refine congrArg Table.mk (Vector.ext fun i hi => ?_)
  rw [Vector.getElem_map, Vector.getElem_replicate]

def get (t : Table n) (i : Nat) : Except Fault Descriptor :=
  if h : i < n then .ok (t.entries.get ⟨i, h⟩) else .error (.indexOutside n i)

def set (t : Table n) (i : Nat) (d : Descriptor) : Except Fault (Table n) :=
  if h : i < n then .ok ⟨t.entries.set i d h⟩ else .error (.indexOutside n i)

/-- The distance of entry `i` from the first one. -/
def offsetOf (_t : Table n) (i : Nat) : Except Fault Nat :=
  if i < n then .ok (entryBytes * i) else .error (.indexOutside n i)

/-- Replace every entry from `first` up to `last`. A range that leaves the table faults at its
first index outside. -/
def fill (t : Table n) (first last : Nat) (entry : Nat → Descriptor) : Except Fault (Table n) :=
  if first < last ∧ n < last then .error (.indexOutside n (max first n))
  else .ok ⟨t.entries.mapIdx fun i d => if first ≤ i ∧ i < last then entry i else d⟩

end Table

/-- The tables lie one after another from `origin` on, in the order of the fields. -/
structure AddressSpace where
  origin : Nat
  identityL2 : Table identityBlocks
  identityL1 : Table entriesPerTable
  virtualL1 : Table entriesPerTable
  virtualL2 : Table entriesPerTable
  virtualL3 : Table entriesPerTable

namespace AddressSpace

/-- Nothing is mapped. -/
def blank (origin : Nat) : AddressSpace where
  origin := origin
  identityL2 := .blank _
  identityL1 := .blank _
  virtualL1 := .blank _
  virtualL2 := .blank _
  virtualL3 := .blank _

def identityL2Base (s : AddressSpace) : Nat := s.origin

def identityL1Base (s : AddressSpace) : Nat := s.identityL2Base + entryBytes * identityBlocks

def virtualL1Base (s : AddressSpace) : Nat := s.identityL1Base + entryBytes * entriesPerTable

def virtualL2Base (s : AddressSpace) : Nat := s.virtualL1Base + entryBytes * entriesPerTable

def virtualL3Base (s : AddressSpace) : Nat := s.virtualL2Base + entryBytes * entriesPerTable

def blockIndex (addr : Nat) : Nat := addr / blockBytes

/-- The entry that maps block `i` onto itself. -/
def identityBlock (c : MemoryClass) (i : Nat) : Descriptor :=
  .block (BitVec.ofNat 64 (i * blockBytes)) (.ofClass c)

/-- Fill in the second level of the identity map: cacheable memory up to `cacheableEnd`,
non-cacheable memory up to the peripherals, the peripherals and the block at `localBase` as
devices. -/
def identityLayout (t : Table identityBlocks)
    (cacheableEnd peripheralBase peripheralEnd localBase : Nat) :
    Except Fault (Table identityBlocks) := do
  let boundary := blockIndex cacheableEnd
  let start := blockIndex peripheralBase
  let t ← t.fill 0 boundary (identityBlock .normalCacheable)
  let t ← t.fill boundary start (identityBlock .normalNonCacheable)
  let t ← t.fill start (blockIndex peripheralEnd) (identityBlock .device)
  t.fill (blockIndex localBase) (blockIndex localBase + 1) (identityBlock .device)

/-- Clear the tables and write the whole layout into them. -/
def populate (s : AddressSpace) (cacheableEnd peripheralBase peripheralSize localBase : Nat) :
    Except Fault AddressSpace := do
  if peripheralBase < cacheableEnd then throw .cacheableAbovePeripherals
  if cacheableEnd % blockBytes ≠ 0 then throw .cacheableUnaligned
  let peripheralEnd := peripheralBase + peripheralSize
  if 0x10000000000000000 ≤ peripheralEnd then throw .sumTooLarge
  let identityL2 ←
    identityLayout s.identityL2.clear cacheableEnd peripheralBase peripheralEnd localBase
  let entry (addr : Nat) := Descriptor.table (BitVec.ofNat 64 addr)
  let lower ← entry s.identityL2Base
  let upper ← entry (s.identityL2Base + entryBytes * entriesPerTable)
  let last := entriesPerTable - 1
  return {
    origin := s.origin
    identityL2 := identityL2
    identityL1 := ← (← s.identityL1.clear.set 0 lower).set 1 upper
    virtualL1 := ← s.virtualL1.clear.set last (← entry s.virtualL2Base)
    virtualL2 := ← s.virtualL2.clear.set last (← entry s.virtualL3Base)
    virtualL3 := s.virtualL3.clear }

/-- The first of the 512 second-level entries that a first-level entry leads to, if the table it
names lies within this space's own array. -/
def firstOf (s : AddressSpace) (next : BitVec 64) : Option Nat :=
  if next.toNat < s.identityL2Base then none
  else
    let offset := next.toNat - s.identityL2Base
    if offset % entryBytes ≠ 0 then none
    else if offset / entryBytes + entriesPerTable ≤ identityBlocks then some (offset / entryBytes)
    else none

/-- The index of the second-level entry that governs `addr`. -/
def lookup (s : AddressSpace) (addr : BitVec 64) : Option Nat := do
  let top ← s.identityL1.entries[addr.toNat >>> firstLevelShift]?
  let first ← s.firstOf (← top.nextTable)
  let index := first + addr.toNat / blockBytes % entriesPerTable
  let entry ← s.identityL2.entries[index]?
  if entry.isValid then some index else none

def classify (s : AddressSpace) (addr : BitVec 64) : Option MemoryClass := do
  let entry ← s.identityL2.entries[← s.lookup addr]?
  entry.memoryClass

def physicalAddress (s : AddressSpace) (addr : BitVec 64) : Option (BitVec 64) := do
  let entry ← s.identityL2.entries[← s.lookup addr]?
  let output ← entry.output
  return output ||| (addr &&& BitVec.ofNat 64 (blockBytes - 1))

def mappedBlocks (s : AddressSpace) : Nat := s.identityL2.entries.toList.countP (·.isValid)

def text (s : AddressSpace) : String :=
  "AddressSpace \x7b identity_base: " ++ Text.hex s.identityL1Base ++ ", virtual_base: " ++
    Text.hex s.virtualL1Base ++ ", mapped_blocks: " ++ toString s.mappedBlocks ++ " \x7d"

/-- Equal neighbours of a list: the value, its first position and how often it follows. -/
def runsOf {α : Type} [DecidableEq α] (first : Nat) : List α → List (α × Nat × Nat)
  | [] => []
  | a :: rest =>
    let tail := runsOf (first + 1) rest
    match tail with
    | (b, _, n) :: more => if a = b then (a, first, n + 1) :: more else (a, first, 1) :: tail
    | [] => [(a, first, 1)]

def classRuns (s : AddressSpace) : List (Option MemoryClass × Nat × Nat) :=
  runsOf 0 (s.identityL2.entries.toList.map (·.memoryClass))

end AddressSpace

end BareKernel.Paging
