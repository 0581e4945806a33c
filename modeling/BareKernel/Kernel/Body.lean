import BareKernel.Kernel.Logging

/-! What the cores do between the two rendezvous. Each one greets, counts itself, and says goodbye,
all in the critical section; the primary core then reports on the heap. -/

namespace BareKernel.Kernel

def greet (core : Nat) : Code Unit := do
  let entered ← locked .critical do
    printLine ["Hello from core ", toString core]
    let entered ← call .countEntered
    printLine ["Goodbye from core ", toString core]
    return entered
  log
    { level := .debug
      target := "cinder_kernel::shared"
      pieces := ["core ", toString core, " done, ", toString entered.toNat, " cores through"] }

def heapRecord (level : Log.Level) (pieces : List String) : Log.Record :=
  { level := level, target := "cinder_kernel::memory::heap", pieces := pieces }

def statsRecord (s : Heap.Stats) : Log.Record :=
  heapRecord .info ["heap: ", toString s.freeUnits, " free / ", toString s.takenUnits,
    " taken units in ", toString s.freeBlocks, " free and ", toString s.takenBlocks,
    " taken blocks, ", toString s.allocations, " allocations, ", toString s.frees, " frees"]

/-- A line on the heap's use, and one more if it is damaged. -/
def report : Code Unit := do
  match ← guarded .heap (call .heapStats) with
  | .ok s => log (statsRecord s)
  | .error (.fault f) => .stop (.heap (.fault f))
  | .error (.error _) => pure ()
  match ← guarded .heap (call .heapIntegrity) with
  | .ok () => pure ()
  | .error (.fault f) => .stop (.heap (.fault f))
  | .error (.error e) => log (heapRecord .error ["heap integrity check failed: ", e.message])

def body (core : Nat) : Code Unit := do
  greet core
  if core = primaryCore then report

/-- Allocate a block, if there is room, and give it back. -/
def exerciseHeap (size : Nat) : Code Unit := do
  match ← allocate size with
  | some addr => free addr
  | none => pure ()

/-- The critical section around a value that is at hand. -/
def critical {α : Type} (a : α) : Code α := locked .critical (pure a)

end BareKernel.Kernel
