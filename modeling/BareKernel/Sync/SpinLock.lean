import BareKernel.Text.Hex

/-! A lock made of one flag. It knows no owner: whoever releases it frees it. A guard stands for
the duty to release it once, at the guard's end. -/

namespace BareKernel.Sync

structure SpinLock where
  taken : Bool := false
  deriving DecidableEq, Repr

namespace SpinLock

/-- Set the flag; the answer is whether it was clear. -/
def tryAcquire (l : SpinLock) : Bool × SpinLock := (!l.taken, ⟨true⟩)

def release (_ : SpinLock) : SpinLock := ⟨false⟩

def text (l : SpinLock) : String := "SpinLock \x7b taken: " ++ Text.yesNo l.taken ++ " \x7d"

end SpinLock

/-- A lock and how many of its guards are alive. -/
structure GuardedLock where
  lock : SpinLock := {}
  guards : Nat := 0
  deriving DecidableEq, Repr

namespace GuardedLock

/-- Nothing while the lock is held: the caller waits. -/
def acquire? (g : GuardedLock) : Option GuardedLock :=
  match g.lock.tryAcquire with
  | (true, lock) => some { g with lock := lock }
  | (false, _) => none

/-- As `acquire?`, with a guard for the caller. -/
def lock? (g : GuardedLock) : Option GuardedLock :=
  g.acquire?.map fun g => { g with guards := g.guards + 1 }

/-- Lock only where locks are needed yet; the answer is whether there is a guard. -/
def lockIf? (g : GuardedLock) (enabled : Bool) : Option (Bool × GuardedLock) :=
  if enabled then g.lock?.map fun g => (true, g) else some (false, g)

/-- The guard is made before the outcome is known. A caller that gets none has it end at once,
and its end releases the lock. -/
def tryLock (g : GuardedLock) : Bool × GuardedLock :=
  match g.lock.tryAcquire with
  | (true, lock) => (true, ⟨lock, g.guards + 1⟩)
  | (false, lock) => (false, ⟨lock.release, g.guards⟩)

/-- End a guard; the answer is whether there was one. -/
def dropGuard (g : GuardedLock) : Bool × GuardedLock :=
  if g.guards = 0 then (false, g) else (true, ⟨g.lock.release, g.guards - 1⟩)

end GuardedLock

end BareKernel.Sync
