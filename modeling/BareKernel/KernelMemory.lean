import BareKernel.Heap.Basic
import BareKernel.Heap.Integrity
import BareKernel.Heap.Stats
import BareKernel.Log.Record

/-! The kernel's memory: its RAM and the one heap that lives in it. The heap owns the units of its
arena from the moment it is set up; every other byte stays with the RAM. -/

namespace BareKernel

/-- Without `heap` no arena has been handed over yet. -/
structure KernelMemory where
  ram : Memory
  checks : Bool
  heap : Option Heap := none

namespace KernelMemory

open Heap

def isInitialised (m : KernelMemory) : Bool := m.heap.isSome

def initRecord (base len : Nat) : Log.Record where
  level := .debug
  target := "cinder_alloc::heap"
  pieces := ["heap: ", toString len, " units at ", Text.hex base, ", ",
    toString (len - 2 * sentinelUnits), " usable"]

/-- Hand a region to the heap, which takes the whole units that the RAM holds of it. -/
def init (m : KernelMemory) (region : Region) : Except Error Log.Record × KernelMemory :=
  match m with
  | ⟨ram, checks, some heap⟩ => (.error .alreadyInitialised, ⟨ram, checks, some heap⟩)
  | ⟨ram, checks, none⟩ =>
    if h : region.base = 0 ∨ region.base % unitBytes ≠ 0 then
      (.error .misaligned, ⟨ram, checks, none⟩)
    else
      let len := ram.bytesWithin region / unitBytes
      if hl : len < minArenaUnits then (.error .arenaTooSmall, ⟨ram, checks, none⟩)
      else
        let arena := ram.window region.base len (by simp only [unitBytes] at h; omega)
          (by grind [Memory.bytesWithin, minArenaUnits, unitBytes, sentinelUnits, minBlockUnits])
          (by grind [Memory.bytesWithin, minArenaUnits, unitBytes, sentinelUnits, minBlockUnits])
        (.ok (initRecord region.base len), ⟨ram, checks, some (Heap.ofArena arena)⟩)

/-- Run heap code alone. -/
def perform {α : Type} (m : KernelMemory) (code : Memory → Action α) :
    Except Failure α × KernelMemory :=
  match m with
  | ⟨ram, checks, none⟩ => (.error (.error .notInitialised), ⟨ram, checks, none⟩)
  | ⟨ram, checks, some heap⟩ =>
    let code := code heap.arena
    let (r, heap) := code.run heap
    (r, ⟨ram, checks, some heap⟩)

/-- The address of `size` fresh bytes, aligned to 8, or nothing for a request of no bytes, before
the heap is set up, and when no block in reach of the scan fits. -/
def allocate (m : KernelMemory) (size : Nat) : Except Fatal (Option Nat) × KernelMemory :=
  if size = 0 || !m.isInitialised then (.ok none, m)
  else
    match unitsFor size with
    | none => (.ok none, m)
    | some units =>
      let checks := m.checks
      let (r, m) := m.perform fun arena => takePayload checks arena.base arena.len units
      match r with
      | .ok p => (.ok p, m)
      | .error (.error e) => (.error (.corruptOnAllocate e), m)
      | .error (.fault f) => (.error (.fault f), m)

/-- Null and the arena's own base are ignored. -/
def tryFree (m : KernelMemory) (addr : Nat) : Except Failure Unit × KernelMemory :=
  if addr = 0 then (.ok (), m)
  else
    let checks := m.checks
    m.perform fun arena => givePayload checks arena.base arena.len addr

/-- As `tryFree`, for a caller who cannot go on after an error. -/
def free (m : KernelMemory) (addr : Nat) : Except Fatal Unit × KernelMemory :=
  let (r, m) := m.tryFree addr
  match r with
  | .ok () => (.ok (), m)
  | .error (.error e) => (.error (.corruptOnFree addr e), m)
  | .error (.fault f) => (.error (.fault f), m)

def contains (m : KernelMemory) (addr : Nat) : Bool :=
  m.heap.any fun heap => heap.arena.contains addr

/-- All counts are 0 before the heap is set up. -/
def stats (m : KernelMemory) : Except Failure Stats :=
  match m.heap with
  | none => .ok {}
  | some heap => ((Stats.collect heap.arena.len heap.allocations heap.frees).run heap).1

def checkIntegrity (m : KernelMemory) : Except Failure Unit :=
  match m.heap with
  | none => .error (.error .notInitialised)
  | some heap => ((Integrity.check heap.arena.len).run heap).1

/-! ## Bytes and units -/

def byteAt (m : KernelMemory) (addr : Nat) : UInt8 :=
  match m.heap with
  | some heap => if heap.arena.contains addr then heap.arena.byteAt addr else m.ram.byteAt addr
  | none => m.ram.byteAt addr

def setByte (m : KernelMemory) (addr : Nat) (b : UInt8) : KernelMemory :=
  match m with
  | ⟨ram, checks, none⟩ => ⟨ram.setByte addr b, checks, none⟩
  | ⟨ram, checks, some heap⟩ =>
    if heap.arena.contains addr then
      ⟨ram, checks, some { heap with arena := heap.arena.setByte addr b }⟩
    else ⟨ram.setByte addr b, checks, some heap⟩

/-- The whole unit at an aligned address. -/
def unitAt (m : KernelMemory) (addr : Nat) : Int64 :=
  match m.heap with
  | some heap => if heap.arena.contains addr then heap.arena.unitOf addr else m.ram.unitOf addr
  | none => m.ram.unitOf addr

def setUnitAt (m : KernelMemory) (addr : Nat) (v : Int64) : KernelMemory :=
  match m with
  | ⟨ram, checks, none⟩ => ⟨ram.setUnitOf addr v, checks, none⟩
  | ⟨ram, checks, some heap⟩ =>
    if heap.arena.contains addr then
      ⟨ram, checks, some { heap with arena := heap.arena.setUnitOf addr v }⟩
    else ⟨ram.setUnitOf addr v, checks, some heap⟩

def bytesAt (m : KernelMemory) (addr len : Nat) : List UInt8 :=
  (List.range len).map fun i => m.byteAt (addr + i)

def setBytes (m : KernelMemory) (addr : Nat) : List UInt8 → KernelMemory
  | [] => m
  | b :: rest => (m.setByte addr b).setBytes (addr + 1) rest

/-- The number in `len` bytes from `addr` on, the lowest byte first. -/
def numberAt (m : KernelMemory) (addr len : Nat) : Nat :=
  (m.bytesAt addr len).foldr (fun b n => b.toNat + 256 * n) 0

/-- The lowest `len` bytes of a number, the lowest first. -/
def bytesOf : (len n : Nat) → List UInt8
  | 0, _ => []
  | len + 1, n => n.toUInt8 :: bytesOf len (n / 256)

def setNumberAt (m : KernelMemory) (addr len n : Nat) : KernelMemory :=
  m.setBytes addr (bytesOf len n)

end KernelMemory

end BareKernel
