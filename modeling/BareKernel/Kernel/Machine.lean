import BareKernel.Boot.Journal
import BareKernel.Firmware.Mailbox
import BareKernel.Heap.Layout
import BareKernel.Paging.Storage
import BareKernel.Sync.AtomicCell
import BareKernel.Sync.Barrier
import BareKernel.Sync.SpinLock

/-! What the cores of the kernel share, and the single operations through which their code uses
it. -/

namespace BareKernel

open Sync

/-- The two barriers of a boot, by the address of their counts in the heap. -/
structure Rendezvous where
  start : Nat
  stop : Nat
  deriving DecidableEq, Repr

/-- What the primary core publishes to the others. -/
structure Release where
  isReleased : Bool := false
  rendezvous : Option Rendezvous := none
  deriving DecidableEq, Repr

inductive LockName where
  | heap
  | console
  | mailbox
  | critical
  deriving DecidableEq, Repr

structure Locks where
  heap : SpinLock := {}
  console : SpinLock := {}
  mailbox : SpinLock := {}
  critical : SpinLock := {}
  deriving DecidableEq, Repr

namespace Locks

def get (l : Locks) : LockName → SpinLock
  | .heap => l.heap
  | .console => l.console
  | .mailbox => l.mailbox
  | .critical => l.critical

def set (l : Locks) (lock : SpinLock) : LockName → Locks
  | .heap => { l with heap := lock }
  | .console => { l with console := lock }
  | .mailbox => { l with mailbox := lock }
  | .critical => { l with critical := lock }

end Locks

structure Kernel where
  memory : KernelMemory
  tables : Paging.TableStorage
  mailbox : Firmware.Mailbox
  bus : Board.Bus := {}
  /-- Locks are bypassed until the gate opens, while only one core runs. -/
  gateOpen : Bool := false
  locks : Locks := {}
  release : Release := {}
  /-- Text is dropped before the console is set up. -/
  consoleReady : Bool := false
  /-- Records are dropped before logging is set up, and those more verbose than this after. -/
  logLimit : Option Log.Level := none
  /-- How often the kernel's body has been entered. -/
  entered : AtomicCell UInt32 := ⟨0⟩
  journal : Array Boot.Entry := #[]
  /-- Records on a platform that keeps them. -/
  records : Array Log.Record := #[]

namespace Kernel

/-- Why a core stops for good. -/
inductive Panic where
  | heap (e : Heap.Fatal)
  | heapInit (e : Heap.Error)
  | tables (e : Paging.Fault)
  | noTables (core : Nat)
  | noRendezvous
  deriving DecidableEq, Repr

def Panic.message : Panic → String
  | heap e => e.message
  | heapInit e => "kernel heap init failed: " ++ e.message
  | tables e => e.message
  | noTables core => "core " ++ toString core ++ " reached translation enable without tables"
  | noRendezvous => "rendezvous barriers not allocated"

/-! ## Operations -/

inductive Op where
  | readGate
  | openGate
  | take (l : LockName)
  | release (l : LockName)
  | readConsoleReady
  | setConsoleReady
  | readLogLimit
  | setLogLimit (l : Log.Level)
  | keepRecord (r : Log.Record)
  | note (core : Nat) (e : Boot.Event)
  | pollUart (mask : UInt32)
  | transmit (b : UInt8)
  | readPins
  | writePins (v : UInt32)
  | writeDevice (addr : Nat) (v : UInt32)
  | storeSpinTable (addr v : Nat)
  | exchange (tag : UInt32) (values : List UInt32)
  | readTables
  | writeTables (t : Paging.TableStorage)
  | markBuilt
  | initHeap (r : Region)
  | allocate (size : Nat)
  | allocateObject (align : Nat) (bytes : List UInt8)
  | free (addr : Nat)
  | heapStats
  | heapIntegrity
  | publish (r : Rendezvous)
  | readRendezvous
  | setReleased
  | awaitReleased
  | arrive (barrier : Nat)
  | awaitComplete (barrier : Nat)
  | countEntered

abbrev Reply : Op → Type
  | .readGate | .readConsoleReady => Bool
  | .readLogLimit => Option Log.Level
  | .readPins => UInt32
  | .exchange _ _ => Except Firmware.Error (List UInt32)
  | .readTables => Paging.TableStorage
  | .initHeap _ => Except Heap.Error Log.Record
  | .allocate _ => Except Heap.Fatal (Option Nat)
  | .allocateObject _ _ => Except Heap.Fatal Nat
  | .free _ => Except Heap.Fatal Unit
  | .heapStats => Except Heap.Failure Heap.Stats
  | .heapIntegrity => Except Heap.Failure Unit
  | .readRendezvous => Option Rendezvous
  | .countEntered => UInt32
  | _ => Unit

/-- The barrier whose count is at this address. -/
def barrierAt (k : Kernel) (addr : Nat) : Barrier := ⟨UInt32.ofNat (k.memory.numberAt addr 4)⟩

def setBarrier (k : Kernel) (addr : Nat) (b : Barrier) : Kernel :=
  { k with memory := k.memory.setNumberAt addr 4 b.remaining.toNat }

def record (k : Kernel) (core : Nat) (e : Boot.Event) : Kernel :=
  { k with
    journal := k.journal.push
      { core := core
        event := e
        gateOpen := k.gateOpen
        tablesBuilt := k.tables.isBuilt
        heapReady := k.memory.isInitialised
        startRemaining :=
          k.release.rendezvous.map fun r => (k.barrierAt r.start).remaining.toNat } }

/-- A call of the heap. -/
def onMemory {α : Type} (k : Kernel) (f : KernelMemory → α × KernelMemory) : Option α × Kernel :=
  let (r, memory) := f k.memory
  (some r, { k with memory := memory })

def perform : (o : Op) → Kernel → Option (Reply o) × Kernel
  | .readGate, k => (some k.gateOpen, k)
  | .openGate, k => (some (), { k with gateOpen := true })
  | .take l, k =>
    let (free, lock) := (k.locks.get l).tryAcquire
    (if free then some () else none, { k with locks := k.locks.set lock l })
  | .release l, k => (some (), { k with locks := k.locks.set (k.locks.get l).release l })
  | .readConsoleReady, k => (some k.consoleReady, k)
  | .setConsoleReady, k => (some (), { k with consoleReady := true })
  | .readLogLimit, k => (some k.logLimit, k)
  | .setLogLimit l, k => (some (), { k with logLimit := some l })
  | .keepRecord r, k => (some (), { k with records := k.records.push r })
  | .note core e, k => (some (), k.record core e)
  | .pollUart mask, k =>
    let (clear, bus) := k.bus.pollUart mask
    (if clear then some () else none, { k with bus := bus })
  | .transmit b, k => (some (), { k with bus := k.bus.transmit b })
  | .readPins, k =>
    let (pins, bus) := k.bus.readPins
    (some pins, { k with bus := bus })
  | .writePins v, k => (some (), { k with bus := k.bus.writePins v })
  | .writeDevice addr v, k => (some (), { k with bus := k.bus.write addr v })
  | .storeSpinTable addr v, k => (some (), { k with bus := k.bus.store addr v })
  | .exchange tag values, k =>
    let (r, mailbox, bus) := Firmware.Mailbox.call tag values k.mailbox k.bus
    (some r, { k with mailbox := mailbox, bus := bus })
  | .readTables, k => (some k.tables, k)
  | .writeTables t, k => (some (), { k with tables := t })
  | .markBuilt, k => (some (), { k with tables := { k.tables with isBuilt := true } })
  | .initHeap r, k => k.onMemory fun m => m.init r
  | .allocate size, k => k.onMemory fun m => m.allocate size
  | .allocateObject align bytes, k => k.onMemory fun m => m.allocateObject align bytes
  | .free addr, k => k.onMemory fun m => m.free addr
  | .heapStats, k => (some k.memory.stats, k)
  | .heapIntegrity, k => (some k.memory.checkIntegrity, k)
  | .publish r, k => (some (), { k with release := { k.release with rendezvous := some r } })
  | .readRendezvous, k => (some k.release.rendezvous, k)
  | .setReleased, k => (some (), { k with release := { k.release with isReleased := true } })
  | .awaitReleased, k => (if k.release.isReleased then some () else none, k)
  | .arrive barrier, k => (some (), k.setBarrier barrier (k.barrierAt barrier).arrive)
  | .awaitComplete barrier, k => (if (k.barrierAt barrier).isComplete then some () else none, k)
  | .countEntered, k =>
    let (n, cell) := k.entered.addFetch 1
    (some n, { k with entered := cell })

/-- Only a full transmitter or a busy UART clears up without another core. -/
def machine : Machine Kernel where
  Op := Op
  Reply := Reply
  perform := perform
  patience := fun k => k.bus.uartFlags.length

abbrev Code := Program machine Panic

def call (o : Op) : Code (Reply o) := Program.call (M := machine) o

def heapCall {α : Type} (r : Except Heap.Fatal α) : Code α :=
  match r with
  | .ok a => pure a
  | .error e => .stop (.heap e)

/-- Hold a lock for this code, unless the gate is closed. -/
def guarded {α : Type} (l : LockName) (code : Code α) : Code α := do
  if ← call .readGate then
    call (.take l)
    let a ← code
    call (.release l)
    return a
  else code

/-- Hold a lock for this code, whatever the gate. -/
def locked {α : Type} (l : LockName) (code : Code α) : Code α := do
  call (.take l)
  let a ← code
  call (.release l)
  return a

def allocate (size : Nat) : Code (Option Nat) := do
  heapCall (← guarded .heap (call (.allocate size)))

def free (addr : Nat) : Code Unit := do heapCall (← guarded .heap (call (.free addr)))

/-- A barrier of its own in the heap, by its address. -/
def allocateBarrier (b : Barrier) : Code Nat := do
  heapCall (← guarded .heap
    (call (.allocateObject 4 (KernelMemory.bytesOf 4 b.remaining.toNat))))

/-- Meet at the barrier at this address. -/
def sync (barrier : Nat) : Code Unit := do
  call (.arrive barrier)
  call (.awaitComplete barrier)

end Kernel

end BareKernel
