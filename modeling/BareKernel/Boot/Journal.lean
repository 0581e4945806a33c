import BareKernel.Boot.State

/-! What happens during a boot, in order: the states that cores reach, and what they ask of the
platform and of the firmware. -/

namespace BareKernel.Boot

/-- A service of the platform that the boot has called for. -/
inductive Service where
  | consoleInit
  | firmware
  | heapRegion
  | wake
  /-- Paging on the core itself, with the tables of the two halves of the address space. -/
  | enable (identity higherHalf : Nat)
  deriving DecidableEq, Repr

inductive Event where
  | reached (state : State)
  | called (service : Service)
  | asked (tag : UInt32) (values : List UInt32)
  deriving DecidableEq, Repr

/-- An event of one core, and what had been set up when it happened. -/
structure Entry where
  core : Nat
  event : Event
  gateOpen : Bool
  tablesBuilt : Bool
  heapReady : Bool
  /-- How many cores had still to come to the start rendezvous, once there was one. -/
  startRemaining : Option Nat
  deriving DecidableEq, Repr

/-- A core that enters the kernel's body: how often paging had been turned on by then, and
how many cores had still to come to the start rendezvous. -/
structure Entrance where
  core : Nat
  enables : Nat
  startRemaining : Nat
  deriving DecidableEq, Repr

/-- The entrances among these entries, after `enables` earlier calls. -/
def entrancesFrom : Nat → List Entry → List Entrance
  | _, [] => []
  | enables, e :: rest =>
    match e.event with
    | .called (.enable _ _) => entrancesFrom (enables + 1) rest
    | .reached .kernelRunning =>
      ⟨e.core, enables, e.startRemaining.getD 0⟩ :: entrancesFrom enables rest
    | _ => entrancesFrom enables rest

def entrances (entries : List Entry) : List Entrance := entrancesFrom 0 entries

end BareKernel.Boot
