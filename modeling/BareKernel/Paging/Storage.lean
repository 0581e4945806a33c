import BareKernel.Board.MemoryMap
import BareKernel.Firmware.Message
import BareKernel.Log.Record
import BareKernel.Paging.AddressSpace

/-! The address space in its write-once home, and the layout that the firmware's answer decides:
memory below the co-processor's is cacheable, the rest of the RAM is shared with it and is not. -/

namespace BareKernel.Paging

structure TableStorage where
  space : AddressSpace
  isBuilt : Bool

namespace TableStorage

def blank (origin : Nat) : TableStorage := ⟨.blank origin, false⟩

def space? (s : TableStorage) : Option AddressSpace := if s.isBuilt then some s.space else none

def keepRecord : Log.Record where
  level := .warn
  target := "cinder_paging::storage"
  pieces := ["translation tables already built, keeping existing tables"]

end TableStorage

private def layoutRecord (level : Log.Level) (pieces : List String) : Log.Record :=
  { level := level, target := "cinder_paging::builder", pieces := pieces }

/-- The end of cacheable memory: the reported start of the co-processor's, rounded down to a block
and not above the peripherals; nothing is cacheable when the firmware did not say. -/
def cacheableBoundary : Except Firmware.Error Firmware.MemoryWindow → Nat × List Log.Record
  | .error e =>
    (0, [layoutRecord .warn
      ["VC memory query failed: ", e.message, "; mapping all RAM non-cacheable"]])
  | .ok window =>
    let boundary := window.base / blockBytes * blockBytes
    if Board.peripheralBase < boundary then
      (Board.peripheralBase, [layoutRecord .warn
        ["VC memory base ", Text.hex window.base, " above peripherals, clamping to ",
          Text.hex Board.peripheralBase]])
    else (boundary, [])

def builtRecord (boundary : Nat) : Log.Record :=
  let b := Text.hex boundary
  let p := Text.hex Board.peripheralBase
  layoutRecord .info ["translation tables: cacheable [0, ", b, "), non-cacheable [", b, ", ", p,
    "), device from ", p]

namespace AddressSpace

/-- The board's layout with this end of cacheable memory. -/
def populateBoard (s : AddressSpace) (boundary : Nat) : Except Fault AddressSpace :=
  s.populate boundary Board.peripheralBase Board.peripheralSize Board.localPeripheralBase

end AddressSpace

namespace TableStorage

/-- Populate the tables unless they are built already; the answer tells whether they were not. -/
def buildWith (s : TableStorage) (layout : AddressSpace → Except Fault AddressSpace) :
    Except Fault (Bool × List Log.Record) × TableStorage :=
  if s.isBuilt then (.ok (false, [keepRecord]), s)
  else
    match layout s.space with
    | .ok space => (.ok (true, []), ⟨space, true⟩)
    | .error e => (.error e, s)

/-- The stores to the tables' home: all of the space at once, and the flag. -/
structure Stores (m : Type → Type) where
  space : AddressSpace → m Unit
  built : m Unit

section

variable {m : Type → Type} [Monad m]

/-- Write the board's layout with the end of cacheable memory that the firmware's answer gives. -/
def fill (log : Log.Record → m Unit) (channel : Firmware.Channel m) (stores : Stores m)
    (space : AddressSpace) : m (Except Fault AddressSpace) := do
  let (boundary, records) := cacheableBoundary (← Firmware.videoMemory channel)
  records.forM log
  match space.populateBoard boundary with
  | .ok space =>
    stores.space space
    log (builtRecord boundary)
    return .ok space
  | .error e => return .error e

/-- Build the tables unless they are built already; the firmware is asked only when there is
something to build, and the flag is set once everything is written. -/
def buildIn (log : Log.Record → m Unit) (channel : Firmware.Channel m) (stores : Stores m)
    (s : TableStorage) : m (Except Fault AddressSpace) := do
  if s.isBuilt then
    log keepRecord
    return .ok s.space
  else
    match ← fill log channel stores s.space with
    | .ok space =>
      stores.built
      return .ok space
    | .error e => return .error e

/-- The stores to a storage that is handed on. -/
def handedOn : Stores (StateT TableStorage m) where
  space space := modify fun s => { s with space := space }
  built := modify fun s => { s with isBuilt := true }

/-- Build the tables of this storage. -/
def build (log : Log.Record → m Unit) (channel : Firmware.Channel m) (s : TableStorage) :
    m (Except Fault Unit × TableStorage) := do
  let (r, s) ← (s.buildIn (fun record => StateT.lift (log record))
    (fun tag values => StateT.lift (channel tag values)) handedOn).run s
  return (r.map fun _ => (), s)

end

end TableStorage

end BareKernel.Paging
