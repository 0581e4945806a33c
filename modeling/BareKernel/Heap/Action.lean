import BareKernel.Heap.Error
import BareKernel.Memory

/-! Heap code as a sequence of accesses to the heap's words. An `Action` names one access and what
follows from its answer, so the same code runs alone, from start to end (`Action.run`), or one
access at a time between the accesses of other cores (`Action.step`). What was written before a
failure stays written. -/

namespace BareKernel

/-- An arena in use: its units, the first node of the free list (0 when it is empty), and how
often a block was handed out and taken back. -/
structure Heap where
  arena : Memory
  head : Nat
  allocations : Nat
  frees : Nat

namespace Heap

def setUnit (h : Heap) (i : Nat) (v : Int64) : Heap := { h with arena := h.arena.setUnit i v }

inductive Action (α : Type) where
  | done (a : α)
  | fail (f : Failure)
  | readUnit (i : Nat) (next : Int64 → Action α)
  | writeUnit (i : Nat) (v : Int64) (next : Action α)
  | readHead (next : Nat → Action α)
  | writeHead (i : Nat) (next : Action α)
  | countAllocation (next : Action α)
  | countFree (next : Action α)

namespace Action

variable {α β : Type}

def bind : Action α → (α → Action β) → Action β
  | done a, f => f a
  | fail e, _ => fail e
  | readUnit i k, f => readUnit i fun v => (k v).bind f
  | writeUnit i v k, f => writeUnit i v (k.bind f)
  | readHead k, f => readHead fun i => (k i).bind f
  | writeHead i k, f => writeHead i (k.bind f)
  | countAllocation k, f => countAllocation (k.bind f)
  | countFree k, f => countFree (k.bind f)

instance : Monad Action where
  pure := done
  bind := bind

/-- One access; an action that is over stays as it is. -/
def step : Action α → Heap → Action α × Heap
  | done a, h => (done a, h)
  | fail e, h => (fail e, h)
  | readUnit i k, h =>
    match h.arena.units[i]? with
    | some v => (k v, h)
    | none => (fail (.fault .outsideArena), h)
  | writeUnit i v k, h =>
    if i < h.arena.len then (k, h.setUnit i v) else (fail (.fault .outsideArena), h)
  | readHead k, h => (k h.head, h)
  | writeHead i k, h => (k, { h with head := i })
  | countAllocation k, h => (k, { h with allocations := h.allocations + 1 })
  | countFree k, h => (k, { h with frees := h.frees + 1 })

/-- All accesses, one after another. -/
def run : Action α → Heap → Except Failure α × Heap
  | done a, h => (.ok a, h)
  | fail e, h => (.error e, h)
  | readUnit i k, h =>
    match h.arena.units[i]? with
    | some v => (k v).run h
    | none => (.error (.fault .outsideArena), h)
  | writeUnit i v k, h =>
    if i < h.arena.len then k.run (h.setUnit i v) else (.error (.fault .outsideArena), h)
  | readHead k, h => (k h.head).run h
  | writeHead i k, h => k.run { h with head := i }
  | countAllocation k, h => k.run { h with allocations := h.allocations + 1 }
  | countFree k, h => k.run { h with frees := h.frees + 1 }

@[simp] theorem run_pure (a : α) (h : Heap) : (pure a : Action α).run h = (.ok a, h) := rfl

@[simp] theorem run_fail (e : Failure) (h : Heap) : (fail e : Action α).run h = (.error e, h) :=
  rfl

theorem run_bind (x : Action α) (f : α → Action β) (h : Heap) :
    (x >>= f).run h =
      match x.run h with
      | (.ok a, h') => (f a).run h'
      | (.error e, h') => (.error e, h') := by
  change (x.bind f).run h = _
  induction x generalizing h with
  | done a => rfl
  | fail e => rfl
  | readUnit i k ih =>
    simp only [bind, run]
    cases h.arena.units[i]? with
    | none => rfl
    | some v => exact ih v h
  | writeUnit i v k ih =>
    simp only [bind, run]
    by_cases hi : i < h.arena.len
    · simp only [hi, if_true]
      exact ih _
    · simp only [hi, if_false]
  | readHead k ih => exact ih _ h
  | writeHead i k ih => exact ih _
  | countAllocation k ih => exact ih _
  | countFree k ih => exact ih _

/-- Taking one access first does not change where an action ends. -/
theorem run_step (x : Action α) (h : Heap) : (x.step h).1.run (x.step h).2 = x.run h := by
  cases x with
  | readUnit i k =>
    simp only [step, run]
    cases h.arena.units[i]? <;> rfl
  | writeUnit i v k =>
    simp only [step, run]
    by_cases hi : i < h.arena.len <;> simp only [hi, if_true, if_false, run_fail]
  | _ => rfl

/-- A 64-bit sum, refused when it does not fit. -/
def plus (a b : Nat) : Action Nat :=
  if a + b < 0x10000000000000000 then pure (a + b) else fail (.fault .sumTooLarge)

def read (i : Nat) : Action Int64 := readUnit i done

def write (i : Nat) (v : Int64) : Action Unit := writeUnit i v (done ())

def head : Action Nat := readHead done

def setHead (i : Nat) : Action Unit := writeHead i (done ())

end Action

end Heap

end BareKernel
