import BareKernel.Proofs.Boot.Stages

/-! The board's platform keeps to what the boot allows a platform. -/

namespace BareKernel.Board

open Kernel Sync

/-- Operations on devices and on their settings, which one core may do freely while it sets up. -/
def IsDevice : Op → Prop
  | .setConsoleReady | .setLogLimit _ | .pollUart _ | .transmit _ | .readPins | .writePins _
  | .writeDevice _ _ | .storeSpinTable _ _ => True
  | _ => False

theorem uses_device {o : Op} (ho : IsDevice o) : Uses .setup (call o) := by
  refine .call fun c => ?_
  cases o <;> first | exact .inl rfl | exact ho.elim

theorem uses_log_setup (r : Log.Record) : Uses .setup (log r) := (uses_log r).of_logging (by decide)

theorem uses_firmware (tag : UInt32) (values : List UInt32) : Uses .setup (firmware tag values) :=
  .guarded (by decide) (fun _ hu => ⟨.inl rfl, hu⟩) fun _ _ => rfl

theorem uses_setUpConsole : Uses .setup setUpConsole := by
  refine (uses_device (by exact trivial)).bind fun _ => ?_
  refine (uses_device (by exact trivial)).bind fun _ => ?_
  refine (uses_device (o := .readPins) trivial).bind fun pins => ?_
  refine (uses_device (by exact trivial)).bind fun _ => ?_
  refine (uses_device (by exact trivial)).bind fun _ => ?_
  refine (uses_device (by exact trivial)).bind fun _ => ?_
  refine (uses_device (by exact trivial)).bind fun _ => ?_
  refine (uses_device (by exact trivial)).bind fun _ => ?_
  refine (uses_device (by exact trivial)).bind fun _ => ?_
  exact uses_device (by exact trivial)

theorem uses_logFirmwareRevision : Uses .setup logFirmwareRevision := by
  refine (uses_firmware _ _).bind fun r => ?_
  cases r with
  | ok values => exact uses_log_setup _
  | error e => exact uses_log_setup _

theorem uses_consoleInit : Uses .setup consoleInit := by
  have hlevel : Uses .setup setUpLogging := uses_device trivial
  refine uses_setUpConsole.bind fun _ => hlevel.bind fun _ => ?_
  exact (uses_log_setup _).bind fun _ => uses_logFirmwareRevision

theorem uses_releaseParked (entry : Nat) (core : Nat) (slots : List Nat) :
    Uses .setup (releaseParked entry core slots) := by
  induction slots generalizing core with
  | nil => exact .pure ()
  | cons slot rest ih =>
    exact (uses_device (by exact trivial)).bind fun _ => (uses_log_setup _).bind fun _ => ih _

theorem uses_wake (image : Image) : Uses .setup (wake image) := by
  unfold wake
  split
  · exact uses_log_setup _
  · exact uses_releaseParked image.entry 1 _

/-- Paging is turned on in silence, and everything else is the setup's. -/
theorem orderly_platform (image : Image) : (platform image).Orderly where
  consoleInit := uses_consoleInit
  firmware := uses_firmware
  heapRegion := .pure _
  wake := uses_wake image
  enable _ _ := .pure ()
  log := uses_log

end BareKernel.Board
