import BareKernel.Kernel.Machine
import BareKernel.Kernel.Settings

/-! The boot of every core, from reset to the end. The primary core sets the kernel up while the
others wait; all of them then turn on paging with the same tables, and meet before and after
the kernel's body. -/

namespace BareKernel.Boot

open Kernel

/-- What the boot needs of a board. -/
structure Platform where
  consoleInit : Code Unit
  firmware : Firmware.Channel Code
  heapRegion : Code Region
  /-- Start the other cores. -/
  wake : Code Unit
  enable (identity higherHalf : Nat) : Code Unit
  log : Log.Record → Code Unit

/-- How many cores take part: at least one, and as many as a barrier can count. -/
structure CoreCount where
  val : Nat
  pos : 0 < val
  lt : val < 0x100000000

namespace CoreCount

def errorMessage : String :=
  "assertion failed: core_count > 0 && core_count <= u32::MAX as usize"

def ofNat? (n : Nat) : Option CoreCount :=
  if h : 0 < n ∧ n < 0x100000000 then some ⟨n, h.1, h.2⟩ else none

end CoreCount

def record (level : Log.Level) (pieces : List String) : Log.Record :=
  { level := level, target := "cinder_kernel::boot", pieces := pieces }

structure Sequencer where
  platform : Platform
  cores : CoreCount

namespace Sequencer

variable (b : Sequencer)

def reach (core : Nat) (s : State) : Code Unit := call (.note core (.reached s))

def request (core : Nat) (s : Service) : Code Unit := call (.note core (.called s))

/-- The stores to the tables that all cores share, as they were when this core read them. -/
def tableStores (tables : Paging.TableStorage) : Paging.TableStorage.Stores Code where
  space space := call (.writeTables { tables with space := space })
  built := call .markBuilt

def buildTables (core : Nat) : Code Unit := do
  request core .firmware
  let tables ← call .readTables
  match ← tables.buildIn b.platform.log b.platform.firmware (tableStores tables) with
  | .ok space => b.platform.log (record .debug [space.text])
  | .error e => .stop (.tables e)

def setUpHeap (core : Nat) : Code Unit := do
  request core .heapRegion
  let region ← b.platform.heapRegion
  match ← call (.initHeap region) with
  | .ok r => b.platform.log r
  | .error e => .stop (.heapInit e)

def primaryInit (core : Nat) : Code Unit := do
  request core .consoleInit
  b.platform.consoleInit
  b.buildTables core
  b.setUpHeap core
  let barrier : Sync.Barrier := ⟨UInt32.ofNat b.cores.val⟩
  let start ← allocateBarrier barrier
  let stop ← allocateBarrier barrier
  call (.publish ⟨start, stop⟩)

/-- Nothing may take a lock between the gate and this core's own paging. -/
def releaseSecondaries (core : Nat) : Code Unit := do
  if 1 < b.cores.val then
    b.platform.log (record .info
      ["releasing ", toString (b.cores.val - 1), " secondary cores"])
    request core .wake
    b.platform.wake
  call .openGate
  call .setReleased

def enablePaging (core : Nat) : Code Unit := do
  match (← call .readTables).space? with
  | none => .stop (.noTables core)
  | some space =>
    request core (.enable space.identityL1Base space.virtualL1Base)
    b.platform.enable space.identityL1Base space.virtualL1Base
    b.platform.log (record .debug ["translation enabled"])

def rendezvous : Code Rendezvous := do
  match ← call .readRendezvous with
  | some r => return r
  | none => .stop .noRendezvous

/-- A core that takes part, from its first state on. -/
def participate (core : Nat) (body : Nat → Code Unit) : Code Unit := do
  if core = primaryCore then
    reach core .primaryInit
    b.primaryInit core
    reach core .releaseSecondaries
    b.releaseSecondaries core
  else
    reach core .awaitRelease
    call .awaitReleased
  reach core .pagingEnable
  b.enablePaging core
  reach core .startRendezvous
  Kernel.sync (← rendezvous).start
  reach core .kernelRunning
  body core
  reach core .stopRendezvous
  Kernel.sync (← rendezvous).stop
  if core = primaryCore then
    b.platform.log (record .info ["all ", toString b.cores.val, " cores stopped"])

/-- One core's boot, around the kernel's body. A core beyond the count goes straight to the
end. -/
def run (core : Nat) (body : Nat → Code Unit) : Code State := do
  reach core .coldReset
  if core < b.cores.val then b.participate core body
  reach core .halted
  return .halted

end Sequencer

/-- How often a core can wait for others: for its release and at both barriers. -/
def waitsPerCore : Nat := 3

/-- Boot these cores together. Every round lets some core past a wait. -/
def runCores (b : Sequencer) (cores : List Nat) (body : Nat → Code Unit) (k : Kernel) :
    Sync.Crew Kernel.machine Panic State :=
  let crew : Sync.Crew Kernel.machine Panic State :=
    ⟨k, cores.map fun core => b.run core body⟩
  crew.run (waitsPerCore * cores.length + 1)

end BareKernel.Boot
