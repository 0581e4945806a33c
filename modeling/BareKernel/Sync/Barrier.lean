import BareKernel.Sync.Program

/-! A barrier for one meeting: every participant counts down once and waits for zero. -/

namespace BareKernel.Sync

structure Barrier where
  remaining : UInt32
  deriving DecidableEq, Repr

namespace Barrier

def emptyMessage : String := "barrier needs at least one participant"

def ofParticipants? (n : UInt32) : Option Barrier := if n = 0 then none else some ⟨n⟩

def arrive (b : Barrier) : Barrier := ⟨b.remaining - 1⟩

def isComplete (b : Barrier) : Bool := b.remaining = 0

def text (b : Barrier) : String :=
  "Barrier \x7b remaining: " ++ toString b.remaining.toNat ++ " \x7d"

inductive Op where
  | arrive
  | await

def perform : Op → Barrier → Option Unit × Barrier
  | .arrive, b => (some (), b.arrive)
  | .await, b => (if b.isComplete then some () else none, b)

def machine : Machine Barrier where
  Op := Op
  Reply := fun _ => Unit
  perform := perform

/-- Meet the other participants. -/
def sync : Program machine Empty Unit := do
  .call (M := machine) .arrive
  .call (M := machine) .await

end Barrier

end BareKernel.Sync
