import BareKernel.Proofs.Kernel.Client

/-! The protocol of a boot. One core at a time sets things up, and each stage of it permits only
the next thing that others will rely on; once released, every core turns paging on before it
touches anything, and takes part in both meetings around the kernel's body. -/

namespace BareKernel

/-- The cores meet twice. -/
inductive Meeting where
  | start
  | stop
  deriving DecidableEq, Repr

/-- How far along the boot a core has counted itself down. -/
def Meeting.rank : Meeting → Nat
  | .start => 5
  | .stop => 10

/-- The address of a meeting's barrier. -/
def Rendezvous.at (r : Rendezvous) : Meeting → Nat
  | .start => r.start
  | .stop => r.stop

namespace Boot

open Kernel Sync

/-- What the platform may do depends on where it is called: the devices while one core sets up,
nothing that is shared while paging is turned on, the console in between. -/
structure Platform.Orderly (p : Platform) : Prop where
  consoleInit : Uses .setup p.consoleInit
  firmware : ∀ tag values, Uses .setup (p.firmware tag values)
  heapRegion : Uses .setup p.heapRegion
  wake : Uses .setup p.wake
  enable : ∀ identity higherHalf, Uses .silent (p.enable identity higherHalf)
  log : ∀ r, Uses .logging (p.log r)

/-- What the primary core has set up, by what it does next. -/
inductive Setup where
  | tables
  /-- Since it read the tables, with these replies. -/
  | filling (as : List (Answer machine))
  /-- With this space written and not yet said to be built. -/
  | filled (s : Paging.AddressSpace)
  | heap
  | startBarrier
  | stopBarrier (start : Nat)
  | publish (r : Rendezvous)
  | openGate (r : Rendezvous)
  | setReleased (r : Rendezvous)

inductive Stage where
  /-- Not released, and not the core that sets up. -/
  | parked
  | setup (s : Setup)
  | released
  /-- Since the call that turns paging on, with these replies. -/
  | enabling (as : List (Answer machine))
  | arriving (m : Meeting) (r : Rendezvous)
  | waiting (m : Meeting) (r : Rendezvous)
  | entering
  /-- In the kernel's body, with these replies. -/
  | running (as : List (Answer machine))
  | leaving
  | finished

/-- The bytes of a barrier that nobody has come to. -/
def CoreCount.bytes (n : CoreCount) : List UInt8 := KernelMemory.bytesOf 4 n.val

structure Phase where
  core : Nat
  stage : Stage
  client : Client := {}

/-- An event that marks no place in the boot that the protocol keeps apart. -/
def Event.IsPlain : Event → Prop
  | .reached .kernelRunning | .reached .stopRendezvous | .called (.enable _ _) => False
  | _ => True

/-! ## From stage to stage -/

namespace Setup

def next : Setup → (o : Op) → Reply o → Setup
  | .tables, .readTables, _ => .filling []
  | .filling as, o, r => match o, r with
    | .writeTables t, _ => .filled t.space
    | o, r => .filling (as ++ [⟨o, r⟩])
  | .filled _, .markBuilt, _ => .heap
  | .heap, .initHeap _, .ok _ => .startBarrier
  | .startBarrier, .allocateObject _ _, .ok addr => .stopBarrier addr
  | .stopBarrier start, .allocateObject _ _, .ok addr => .publish ⟨start, addr⟩
  | .publish r, .publish _, _ => .openGate r
  | .openGate r, .openGate, _ => .setReleased r
  | s, _, _ => s

/-- The same stage of the setup, one reply later. -/
def add (s : Setup) (a : Answer machine) : Setup :=
  match s with
  | .filling as => .filling (as ++ [a])
  | s => s

end Setup

namespace Stage

def next : Stage → (o : Op) → Reply o → Stage
  | .parked, o, _ => match o with
    | .awaitReleased => .released
    | _ => .parked
  | .setup s, o, r => match o, r with
    | .setReleased, _ => .released
    | o, r => .setup (s.next o r)
  | .released, o, _ => match o with
    | .note _ (.called (.enable _ _)) => .enabling []
    | _ => .released
  | .enabling as, o, r => match o, r with
    | .readRendezvous, some r => .arriving .start r
    | o, r => .enabling (as ++ [⟨o, r⟩])
  | .arriving m r, o, _ => match o with
    | .arrive _ => .waiting m r
    | _ => .arriving m r
  | .waiting m r, o, _ => match m, o with
    | .start, .awaitComplete _ => .entering
    | .stop, .awaitComplete _ => .finished
    | m, _ => .waiting m r
  | .entering, o, _ => match o with
    | .note _ (.reached .kernelRunning) => .running []
    | _ => .entering
  | .running as, o, r => match o, r with
    | .note _ (.reached .stopRendezvous), _ => .leaving
    | o, r => .running (as ++ [⟨o, r⟩])
  | .leaving, o, r => match o, r with
    | .readRendezvous, some r => .arriving .stop r
    | _, _ => .leaving
  | .finished, _, _ => .finished

/-- The same stage, one reply later. -/
def add (s : Stage) (a : Answer machine) : Stage :=
  match s with
  | .setup s => .setup (s.add a)
  | .enabling as => .enabling (as ++ [a])
  | .running as => .running (as ++ [a])
  | s => s

/-- How far along the boot a stage is. -/
def rank : Stage → Nat
  | .parked => 0
  | .setup _ => 1
  | .released => 2
  | .enabling _ => 3
  | .arriving .start _ => 4
  | .waiting .start _ => 5
  | .entering => 6
  | .running _ => 7
  | .leaving => 8
  | .arriving .stop _ => 9
  | .waiting .stop _ => 10
  | .finished => 11

/-- The release has been seen. -/
def IsPast (s : Stage) : Prop := 2 ≤ s.rank

/-- The core has counted itself down at a meeting. -/
def Arrived (m : Meeting) (s : Stage) : Prop := m.rank ≤ s.rank

/-- The core has seen everybody else at a meeting. -/
def Passed (m : Meeting) (s : Stage) : Prop := m.rank < s.rank

instance (m : Meeting) (s : Stage) : Decidable (s.Arrived m) := inferInstanceAs (Decidable (_ ≤ _))

@[simp] theorem rank_add (s : Stage) (a : Answer machine) : (s.add a).rank = s.rank := by
  cases s <;> rfl

theorem add_eq_setup {s : Stage} {a : Answer machine} {t : Setup} (h : s.add a = .setup t) :
    ∃ t', s = .setup t' ∧ t = t'.add a := by
  cases s with
  | setup t' => exact ⟨t', rfl, (Stage.setup.inj h).symm⟩
  | _ => cases h

theorem add_eq_parked {s : Stage} {a : Answer machine} (h : s.add a = .parked) : s = .parked := by
  cases s <;> first | exact h | cases h

theorem add_eq_meeting {s : Stage} {a : Answer machine} {m : Meeting} {r : Rendezvous}
    (h : s.add a = .arriving m r ∨ s.add a = .waiting m r) :
    s = .arriving m r ∨ s = .waiting m r := by
  cases s <;> first | exact h | (rcases h with h | h <;> cases h)

/-- A plain event leaves the stage, except that replies add up. -/
theorem next_note {s : Stage} {i : Nat} {e : Event} (he : e.IsPlain) :
    s.next (.note i e) () = s.add ⟨.note i e, ()⟩ := by
  cases s with
  | setup s => cases s <;> rfl
  | waiting m r => cases m <;> rfl
  | released =>
    cases e with
    | called t => cases t <;> first | rfl | exact he.elim
    | _ => rfl
  | entering =>
    cases e with
    | reached t => cases t <;> first | rfl | exact he.elim
    | _ => rfl
  | running as =>
    cases e with
    | reached t => cases t <;> first | rfl | exact he.elim
    | _ => rfl
  | _ => rfl

/-- Stages go one way. -/
theorem rank_le_next {s : Stage} {o : Op} {r : Reply o} : s.rank ≤ (s.next o r).rank := by
  cases s with
  | parked => exact Nat.zero_le _
  | waiting m _ => cases m <;> cases o <;> simp [next, rank]
  | arriving m _ => cases m <;> cases o <;> simp [next, rank]
  | finished => exact Nat.le_refl _
  | _ =>
    simp only [next]
    split <;> simp [rank]

end Stage

namespace Phase

/-- What the core allocates while it sets up is no client's. -/
def next (φ : Phase) (o : Op) (r : Reply o) : Phase where
  core := φ.core
  stage := φ.stage.next o r
  client := match φ.stage with
    | .setup _ => { φ.client.after o r with loans := φ.client.loans }
    | _ => φ.client.after o r

end Phase

/-! ## What is permitted -/

/-- The board's whole layout is in the tables, for some answer of the firmware, and said to be. -/
def Populated (blank t : Paging.TableStorage) : Prop :=
  t.isBuilt = true ∧ ∃ r, blank.space.populateBoard (Paging.cacheableBoundary r).1 = .ok t.space

section

variable (b : Sequencer) (blank : Paging.TableStorage) (body : Nat → Code Unit)

/-- The call that turned paging on has come back. -/
def Enabled (as : List (Answer machine)) : Prop :=
  ∃ bs cs, as = bs ++ cs ∧
    (b.platform.enable blank.space.identityL1Base blank.space.virtualL1Base).After bs (.done ())

/-- The firmware was asked for the co-processor's memory, and this is its answer. -/
def Told (as : List (Answer machine)) (reply : Except Firmware.Error (List UInt32)) : Prop :=
  ∃ bs cs, as = bs ++ cs ∧
    (b.platform.firmware Firmware.tagVideoMemory [0, 0]).After bs (.done reply)

/-- This space is the board's layout for the firmware's answer. -/
def Fills (as : List (Answer machine)) (s : Paging.AddressSpace) : Prop :=
  ∃ reply, Told b as reply ∧
    blank.space.populateBoard (Paging.cacheableBoundary (reply.map .ofValues)).1 = .ok s

/-- How much code that is not the boot's own may do at this stage. -/
def Allows : Stage → Scope → Prop
  | .setup (.setReleased _), s => s = .silent
  | .setup _, s => s = .setup
  | .enabling as, s => s = .silent ∨ s = .logging ∧ Enabled b blank as
  | .running _, s => s = .kernel
  | .finished, s => s = .logging
  | _, _ => False

inductive Permits : Phase → Op → Prop
  | note {i : Nat} {s : Stage} {c : Client} {e : Event} : e.IsPlain → Permits ⟨i, s, c⟩ (.note i e)
  | use {i : Nat} {s : Stage} {c : Client} {o : Op} {scope : Scope} :
      Allows b blank s scope → c.Permits scope o → Permits ⟨i, s, c⟩ o
  | awaitReleased {i : Nat} {c : Client} :
      i < b.cores.val → i ≠ primaryCore → Permits ⟨i, .parked, c⟩ .awaitReleased
  | readBlank {i : Nat} {c : Client} : Permits ⟨i, .setup .tables, c⟩ .readTables
  | writeTables {i : Nat} {c : Client} {as : List (Answer machine)} {s : Paging.AddressSpace} :
      Fills b blank as s →
      Permits ⟨i, .setup (.filling as), c⟩ (.writeTables { blank with space := s })
  | markBuilt {i : Nat} {c : Client} {s : Paging.AddressSpace} :
      Permits ⟨i, .setup (.filled s), c⟩ .markBuilt
  | initHeap {i : Nat} {c : Client} {region : Region} :
      Permits ⟨i, .setup .heap, c⟩ (.initHeap region)
  | startBarrier {i : Nat} {c : Client} : Permits ⟨i, .setup .startBarrier, c⟩
      (.allocateObject 4 b.cores.bytes)
  | stopBarrier {i start : Nat} {c : Client} : Permits ⟨i, .setup (.stopBarrier start), c⟩
      (.allocateObject 4 b.cores.bytes)
  | publish {i : Nat} {c : Client} {r : Rendezvous} :
      Permits ⟨i, .setup (.publish r), c⟩ (.publish r)
  | openGate {i : Nat} {c : Client} {r : Rendezvous} :
      Permits ⟨i, .setup (.openGate r), c⟩ .openGate
  | setReleased {i : Nat} {c : Client} {r : Rendezvous} :
      Permits ⟨i, .setup (.setReleased r), c⟩ .setReleased
  | readTables {i : Nat} {c : Client} : Permits ⟨i, .released, c⟩ .readTables
  | enable {i : Nat} {c : Client} : Permits ⟨i, .released, c⟩ (.note i
      (.called (.enable blank.space.identityL1Base blank.space.virtualL1Base)))
  | findStart {i : Nat} {c : Client} {as : List (Answer machine)} :
      Enabled b blank as → Permits ⟨i, .enabling as, c⟩ .readRendezvous
  | arrive {i : Nat} {c : Client} {m : Meeting} {r : Rendezvous} :
      Permits ⟨i, .arriving m r, c⟩ (.arrive (r.at m))
  | awaitComplete {i : Nat} {c : Client} {m : Meeting} {r : Rendezvous} :
      Permits ⟨i, .waiting m r, c⟩ (.awaitComplete (r.at m))
  | enter {i : Nat} {c : Client} : Permits ⟨i, .entering, c⟩ (.note i (.reached .kernelRunning))
  | leave {i : Nat} {c : Client} {as : List (Answer machine)} :
      (body i).After as (.done ()) →
      Permits ⟨i, .running as, c⟩ (.note i (.reached .stopRendezvous))
  | findStop {i : Nat} {c : Client} : Permits ⟨i, .leaving, c⟩ .readRendezvous

/-- Until the release the gate is closed and the tables are blank, and after it neither is so; a
core that looks for the barriers finds them. -/
def Foreseen (s : Stage) : (o : Op) → Reply o → Prop
  | .readGate, isOpen => match s with
    | .setup _ => isOpen = false
    | _ => isOpen = true
  | .readTables, t => match s with
    | .setup .tables => t = blank
    | .released => Populated blank t
    | _ => True
  | .readRendezvous, r => match s with
    | .enabling _ | .leaving => r.isSome = true
    | _ => True
  | _, _ => True

def protocol : Protocol machine Panic where
  Phase := Phase
  Permits := Permits b blank body
  Foreseen φ := Foreseen blank φ.stage
  next := Phase.next
  MayStop e := ¬e.IsBootOrder

end

/-! ## What a client's step is to a stage -/

section

variable {b : Sequencer} {blank : Paging.TableStorage} {body : Nat → Code Unit} {φ : Phase}
  {s : Stage} {scope : Scope} {c : Client} {o : Op}

/-- A client's operation leaves the stage, except that replies add up. -/
theorem Stage.next_use (ha : Allows b blank s scope) (hc : c.Permits scope o) (r : Reply o) :
    s.next o r = s.add ⟨o, r⟩ := by
  cases s with
  | setup s =>
    cases s <;> cases ha <;> cases o <;> first | rfl | exact hc.elim | simp [Client.Permits] at hc
  | enabling as =>
    cases ha with
    | inl hs => subst hs; cases o <;> first | rfl | simp [Client.Permits] at hc
    | inr hs =>
      obtain ⟨rfl, -⟩ := hs
      cases o <;> first | rfl | simp [Client.Permits] at hc
  | running as =>
    cases ha
    cases o with
    | note i e =>
      cases e with
      | asked _ _ => rfl
      | _ => exact hc.elim
    | _ => rfl
  | finished => rfl
  | _ => exact ha.elim

end

end Boot

end BareKernel
