/-! Where a core is between reset and the end. The primary core sets everything up and releases
the others; all of them then meet before the kernel's body and after it. -/

namespace BareKernel.Boot

inductive State where
  | coldReset
  | primaryInit
  | releaseSecondaries
  | awaitRelease
  | pagingEnable
  | startRendezvous
  | kernelRunning
  | stopRendezvous
  | halted
  deriving DecidableEq, Repr

namespace State

def text : State → String
  | coldReset => "cold reset"
  | primaryInit => "primary init"
  | releaseSecondaries => "release secondaries"
  | awaitRelease => "await release"
  | pagingEnable => "translation enable"
  | startRendezvous => "start rendezvous"
  | kernelRunning => "kernel running"
  | stopRendezvous => "stop rendezvous"
  | halted => "halted"

/-- Every state, in the order in which they are declared. -/
def all : List State :=
  [coldReset, primaryInit, releaseSecondaries, awaitRelease, pagingEnable, startRendezvous,
    kernelRunning, stopRendezvous, halted]

end State

end BareKernel.Boot
