import BareKernel.Sync.AtomicCell
import BareKernel.Sync.Program
import BareKernel.Sync.SpinLock

/-! Cores that count together: each adds one, again and again, to a shared number under a lock,
or to an atomic cell. -/

namespace BareKernel.Sync

structure Counter where
  /-- The lock of the number itself. -/
  own : SpinLock := {}
  /-- The lock of the whole kernel. -/
  critical : SpinLock := {}
  value : Nat := 0
  cell : AtomicCell UInt32 := ⟨0⟩

namespace Counter

inductive Lock where
  | own
  | critical

def lock (c : Counter) : Lock → SpinLock
  | .own => c.own
  | .critical => c.critical

def setLock (c : Counter) (l : SpinLock) : Lock → Counter
  | .own => { c with own := l }
  | .critical => { c with critical := l }

inductive Op where
  | take (l : Lock)
  | release (l : Lock)
  | read
  | write (n : Nat)
  | add (n : UInt32)

abbrev Reply : Op → Type
  | .read => Nat
  | .add _ => UInt32
  | _ => Unit

def perform : (o : Op) → Counter → Option (Reply o) × Counter
  | .take l, c =>
    let (free, lock) := (c.lock l).tryAcquire
    (if free then some () else none, c.setLock lock l)
  | .release l, c => (some (), c.setLock (c.lock l).release l)
  | .read, c => (some c.value, c)
  | .write n, c => (some (), { c with value := n })
  | .add n, c =>
    let (old, cell) := c.cell.fetchAdd n
    (some old, { c with cell := cell })

def machine : Machine Counter where
  Op := Op
  Reply := Reply
  perform := perform

abbrev Code := Program machine Empty

def take (l : Lock) : Code Unit := .call (M := machine) (.take l)

def release (l : Lock) : Code Unit := .call (M := machine) (.release l)

def read : Code Nat := .call (M := machine) .read

def write (n : Nat) : Code Unit := .call (M := machine) (.write n)

def add (n : UInt32) : Code UInt32 := .call (M := machine) (.add n)

/-- One more, under a lock. -/
def increment (l : Lock) : Code Unit := do
  take l
  let n ← read
  write (n + 1)
  release l

/-- One more, in a single operation. -/
def incrementCell : Code Unit := do
  let _ ← add 1

end Counter

end BareKernel.Sync
