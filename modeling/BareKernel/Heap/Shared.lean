import BareKernel.Heap.Basic
import BareKernel.Sync.Program
import BareKernel.Sync.SpinLock

/-! Heap calls of several cores. A call holds the heap's lock from before its first access to
after its last; every access is an operation of its own. -/

namespace BareKernel.Heap

open Sync

structure Shared where
  heap : Heap
  lock : SpinLock := {}

namespace Shared

inductive Op where
  | take
  | release
  | readUnit (i : Nat)
  | writeUnit (i : Nat) (v : Int64)
  | readHead
  | writeHead (i : Nat)
  | countAllocation
  | countFree
  | readByte (addr : Nat)
  | writeByte (addr : Nat) (b : UInt8)

/-- There is no unit outside the arena to read or to write. -/
abbrev Reply : Op → Type
  | .readUnit _ => Option Int64
  | .writeUnit _ _ => Bool
  | .readHead => Nat
  | .readByte _ => UInt8
  | _ => Unit

def perform : (o : Op) → Shared → Option (Reply o) × Shared
  | .take, s =>
    let (free, lock) := s.lock.tryAcquire
    (if free then some () else none, { s with lock := lock })
  | .release, s => (some (), { s with lock := s.lock.release })
  | .readUnit i, s => (some s.heap.arena.units[i]?, s)
  | .writeUnit i v, ⟨heap, lock⟩ =>
    if i < heap.arena.len then (some true, ⟨heap.setUnit i v, lock⟩) else (some false, ⟨heap, lock⟩)
  | .readHead, s => (some s.heap.head, s)
  | .writeHead i, ⟨heap, lock⟩ => (some (), ⟨{ heap with head := i }, lock⟩)
  | .countAllocation, ⟨heap, lock⟩ =>
    (some (), ⟨{ heap with allocations := heap.allocations + 1 }, lock⟩)
  | .countFree, ⟨heap, lock⟩ => (some (), ⟨{ heap with frees := heap.frees + 1 }, lock⟩)
  | .readByte addr, s => (some (s.heap.arena.byteAt addr), s)
  | .writeByte addr b, ⟨heap, lock⟩ =>
    (some (), ⟨{ heap with arena := heap.arena.setByte addr b }, lock⟩)

def machine : Machine Shared where
  Op := Op
  Reply := Reply
  perform := perform

abbrev Code := Program machine Fatal

def take : Code Unit := .call (M := machine) .take

def release : Code Unit := .call (M := machine) .release

def readByte (addr : Nat) : Code UInt8 := .call (M := machine) (.readByte addr)

def writeByte (addr : Nat) (b : UInt8) : Code Unit := .call (M := machine) (.writeByte addr b)

/-- Heap code among the operations of other cores. -/
def attempt {α : Type} : Action α → Code (Except Failure α)
  | .done a => pure (.ok a)
  | .fail e => pure (.error e)
  | .readUnit i k => .op (M := machine) (.readUnit i) fun
    | some v => attempt (k v)
    | none => pure (.error (.fault .outsideArena))
  | .writeUnit i v k => .op (M := machine) (.writeUnit i v) fun
    | true => attempt k
    | false => pure (.error (.fault .outsideArena))
  | .readHead k => .op (M := machine) .readHead fun i => attempt (k i)
  | .writeHead i k => .op (M := machine) (.writeHead i) fun _ => attempt k
  | .countAllocation k => .op (M := machine) .countAllocation fun _ => attempt k
  | .countFree k => .op (M := machine) .countFree fun _ => attempt k

def locked {α : Type} (code : Action α) : Code (Except Failure α) := do
  take
  let r ← attempt code
  release
  return r

/-- What the calls need to know of the heap: whether it checks itself, and its arena's place. -/
structure Setting where
  checks : Bool
  base : Nat
  len : Nat

def allocate (h : Setting) (size : Nat) : Code (Option Nat) :=
  if size = 0 then pure none
  else
    match unitsFor size with
    | none => pure none
    | some units => do
      match ← locked (takePayload h.checks h.base h.len units) with
      | .ok p => return p
      | .error (.error e) => .stop (.corruptOnAllocate e)
      | .error (.fault f) => .stop (.fault f)

def free (h : Setting) (addr : Nat) : Code Unit :=
  if addr = 0 then pure ()
  else do
    match ← locked (givePayload h.checks h.base h.len addr) with
    | .ok () => return
    | .error (.error e) => .stop (.corruptOnFree addr e)
    | .error (.fault f) => .stop (.fault f)

/-! ## Exercise -/

def fill (addr : Nat) (b : UInt8) : Nat → Code Unit
  | 0 => pure ()
  | n + 1 => do
    writeByte (addr + n) b
    fill addr b n

def holds (addr : Nat) (b : UInt8) : Nat → Code Bool
  | 0 => pure true
  | n + 1 => do
    if (← readByte (addr + n)) = b then holds addr b n else return false

/-- Allocate a block of each size, fill them all, look how many still hold what was written, and
free them. -/
def exercise (h : Setting) (b : UInt8) (sizes : List Nat) : Code Nat := do
  let blocks ← sizes.filterMapM fun size => return (← allocate h size).map fun addr => (addr, size)
  blocks.forM fun (addr, size) => fill addr b size
  let intact ← blocks.filterM fun (addr, size) => holds addr b size
  blocks.forM fun (addr, _) => free h addr
  return intact.length

/-- The number of intact blocks over all rounds. -/
def exerciseRounds (h : Setting) (b : UInt8) (sizes : List Nat) : Nat → Code Nat
  | 0 => pure 0
  | n + 1 => do
    let intact ← exercise h b sizes
    return intact + (← exerciseRounds h b sizes n)

end Shared

end BareKernel.Heap
