import BareKernel.Boot.Sequencer
import BareKernel.Kernel.Logging

/-! The board as the boot uses it: output on the UART, the firmware behind the mailbox, and cores
that are parked until the spin table tells them where to start. -/

namespace BareKernel.Board

open Kernel

/-- What the board has to know of the kernel's image. -/
structure Image where
  heapRegion : Region
  /-- Where the other cores start. -/
  entry : Nat
  /-- An emulator's cores run already and wait for an event. -/
  isEmulated : Bool := false

def platformRecord (level : Log.Level) (pieces : List String) : Log.Record :=
  { level := level, target := "cinder_kernel::platform::rpi3", pieces := pieces }

def firmware : Firmware.Channel Code := fun tag values =>
  guarded .mailbox (call (.exchange tag values))

def logFirmwareRevision : Code Unit := do
  match ← firmware Firmware.tagFirmwareRevision [0] with
  | .ok values =>
    log (platformRecord .info ["firmware revision ", Text.hex (values.getD 0 0).toNat])
  | .error e => log (platformRecord .warn ["firmware revision query failed: ", e.message])

def consoleInit : Code Unit := do
  setUpConsole
  setUpLogging
  log (platformRecord .info ["cinder: ", toString coreCount, " cores, EL",
    toString Processor.exceptionLevel])
  logFirmwareRevision

def releaseParked (entry : Nat) : Nat → List Nat → Code Unit
  | _, [] => pure ()
  | core, slot :: rest => do
    call (.storeSpinTable slot entry)
    log
      { level := .debug
        target := "cinder_pal::spin_table"
        pieces := ["spin table: core ", toString core, " -> ", Text.hex entry] }
    releaseParked entry (core + 1) rest

/-- Point every core but the first at `entry`. -/
def releaseSecondaries (entry : Nat) : Code Unit := releaseParked entry 1 (spinTable.drop 1)

def wake (image : Image) : Code Unit :=
  if image.isEmulated then
    log (platformRecord .debug ["secondary cores already running, release by event"])
  else releaseSecondaries image.entry

/-- Paging itself needs the real processor; elsewhere there is nothing to turn on. -/
def platform (image : Image) : Boot.Platform where
  consoleInit := consoleInit
  firmware := firmware
  heapRegion := pure image.heapRegion
  wake := wake image
  enable _ _ := pure ()
  log := log

end BareKernel.Board
