import Mathlib.Data.List.Basic
import BareKernel.Kernel.Body
import BareKernel.Proofs.Kernel.Waiting
import BareKernel.Proofs.Sync.Protocol

/-! Cores that use the console together, once the gate is open and the console is set up. A call of
the console takes the lock, sends its bytes one by one, each after a look at the transmitter, and
releases the lock; in between the other cores may do anything else. So at any time at most one core
is in a call. -/

namespace BareKernel.Kernel

open Sync Board.Uart

variable {k k' : Kernel} {o : Op} {i : Nat}

/-! ## The protocol -/

/-- Whether a core is in a call of the console, and the bytes that it has sent in it. -/
inductive Turn where
  | outside
  | inside (sent : List UInt8)
  /-- The transmitter has just been seen to have room. -/
  | clear (sent : List UInt8)

/-- The bytes of each call so far, and of the call that a core is in. -/
structure Speaker where
  said : List (List UInt8) := []
  turn : Turn := .outside

/-- An operation that concerns neither the console nor any device. -/
def SparesConsole : Op → Prop
  | .take l | .release l => l ≠ .console
  | .openGate | .setConsoleReady | .pollUart _ | .transmit _ | .readPins | .writePins _
  | .writeDevice _ _ | .storeSpinTable _ _ | .exchange _ _ => False
  | _ => True

namespace Speaker

/-- The bytes of the call that the core is in, if it is. -/
def current? (φ : Speaker) : Option (List UInt8) :=
  match φ.turn with
  | .outside => none
  | .inside sent | .clear sent => some sent

def Permits (φ : Speaker) (o : Op) : Prop :=
  match φ.turn with
  | .outside => o = .take .console ∨ SparesConsole o
  | .inside _ => o = .pollUart transmitFull ∨ o = .release .console
  | .clear _ => ∃ b, o = .transmit b

def next (φ : Speaker) (o : Op) : Speaker :=
  match φ.turn, o with
  | .outside, .take .console => { φ with turn := .inside [] }
  | .inside sent, .pollUart _ => { φ with turn := .clear sent }
  | .inside sent, .release _ => ⟨φ.said ++ [sent], .outside⟩
  | .clear sent, .transmit b => { φ with turn := .inside (sent ++ [b]) }
  | _, _ => φ

/-- The gate is open and the console set up. -/
def Foreseen : (o : Op) → Reply o → Prop
  | .readGate, isOpen => isOpen = true
  | .readConsoleReady, ready => ready = true
  | _, _ => True

theorem next_of_spares {φ : Speaker} (hφ : φ.turn = .outside) (ho : SparesConsole o) :
    φ.next o = φ := by
  obtain ⟨said, turn⟩ := φ
  obtain rfl : turn = .outside := hφ
  cases o with
  | take l => cases l <;> first | rfl | exact (ho rfl).elim
  | _ => rfl

/-- What a core does next, and where that leads it. -/
inductive Utters : Speaker → Op → Speaker → Prop
  | spare {φ : Speaker} {o : Op} : φ.turn = .outside → SparesConsole o → Utters φ o φ
  | enter (said : List (List UInt8)) :
      Utters ⟨said, .outside⟩ (.take .console) ⟨said, .inside []⟩
  | look (said : List (List UInt8)) (sent : List UInt8) :
      Utters ⟨said, .inside sent⟩ (.pollUart transmitFull) ⟨said, .clear sent⟩
  | send (said : List (List UInt8)) (sent : List UInt8) (b : UInt8) :
      Utters ⟨said, .clear sent⟩ (.transmit b) ⟨said, .inside (sent ++ [b])⟩
  | leave (said : List (List UInt8)) (sent : List UInt8) :
      Utters ⟨said, .inside sent⟩ (.release .console) ⟨said ++ [sent], .outside⟩

theorem utters_of_permits {φ : Speaker} (hp : φ.Permits o) : Utters φ o (φ.next o) := by
  obtain ⟨said, turn⟩ := φ
  cases turn with
  | outside =>
    rcases hp with rfl | ho
    · exact .enter said
    · rw [next_of_spares rfl ho]
      exact .spare rfl ho
  | inside sent =>
    rcases hp with rfl | rfl
    · exact .look said sent
    · exact .leave said sent
  | clear sent =>
    obtain ⟨b, rfl⟩ := hp
    exact .send said sent b

end Speaker

abbrev speaking : Protocol machine Panic where
  Phase := Speaker
  Permits := Speaker.Permits
  Foreseen _ := Speaker.Foreseen
  next φ o _ := φ.next o
  MayStop _ := True

/-! ## Programs -/

/-- Code that is in no call of the console before and after it. -/
def Speaks {α : Type} (p : Code α) : Prop :=
  ∀ φ : Speaker, φ.turn = .outside →
    speaking.Follows (fun _ ψ => Speaker.turn ψ = .outside) φ p

section Programs

variable {α β : Type} {p : Code α} {f : α → Code β} {said : List (List UInt8)}

/-- The bytes that go over the wire for a text. -/
def spelled (s : String) : List UInt8 := wire (bytesOf s)

theorem Speaks.pure (a : α) : Speaks (Pure.pure a : Code α) := fun _ hφ => hφ

theorem Speaks.bind (hp : Speaks p) (hf : ∀ a, Speaks (f a)) : Speaks (p >>= f) :=
  fun φ hφ => .bind ((hp φ hφ).mono fun a _ hψ => hf a _ hψ)

theorem Speaks.call (ho : SparesConsole o) : Speaks (Kernel.call o) := by
  intro φ hφ
  refine .call ?_ fun _ _ => ?_
  · change Speaker.Permits φ o
    rw [Speaker.Permits, hφ]
    exact .inr ho
  · change (φ.next o).turn = .outside
    rw [Speaker.next_of_spares hφ ho]
    exact hφ

theorem Speaks.forM {γ : Type} {g : γ → Code Unit} (hg : ∀ x, Speaks (g x)) (xs : List γ) :
    Speaks (xs.forM g) := by
  induction xs with
  | nil => exact .pure ()
  | cons x xs ih => exact (hg x).bind fun _ => ih

theorem Speaks.locked {l : LockName} (hl : l ≠ .console) (hp : Speaks p) :
    Speaks (Kernel.locked l p) :=
  (Speaks.call (by exact hl)).bind fun _ => hp.bind fun _ =>
    (Speaks.call (by exact hl)).bind fun _ => .pure _

theorem says_putBytes (bytes : List UInt8) (sent : List UInt8) :
    speaking.Follows (fun _ ψ => ψ = ⟨said, .inside (sent ++ bytes)⟩) ⟨said, .inside sent⟩
      (putBytes bytes) := by
  induction bytes generalizing sent with
  | nil =>
    rw [List.append_nil]
    exact .pure rfl
  | cons b bytes ih =>
    have hrest := ih (sent ++ [b])
    rw [List.append_assoc, List.singleton_append] at hrest
    exact .bind (.bind (.call (.inl rfl) fun _ _ => .call ⟨b, rfl⟩ fun _ _ => hrest))

/-- One call sends one text. -/
theorem says_put (s : String) :
    speaking.Follows (fun _ ψ => ψ = ⟨said ++ [spelled s], .outside⟩) ⟨said, .outside⟩
      (put s) := by
  refine .bind (.call (.inr trivial) fun ready hready => ?_)
  obtain rfl : ready = true := hready
  refine .bind (.call (.inr trivial) fun isOpen hopen => ?_)
  obtain rfl : isOpen = true := hopen
  refine .bind (.call (.inl rfl) fun _ _ => .bind ((says_putBytes _ []).mono fun _ ψ hψ => ?_))
  subst hψ
  exact .bind (.call (.inr rfl) fun _ _ => .pure rfl)

theorem says_print (pieces : List String) :
    speaking.Follows (fun _ ψ => ψ = ⟨said ++ pieces.map spelled, .outside⟩) ⟨said, .outside⟩
      (print pieces) := by
  induction pieces generalizing said with
  | nil =>
    rw [List.map_nil, List.append_nil]
    exact .pure rfl
  | cons s pieces ih =>
    have hrest : speaking.Follows
        (fun _ ψ => ψ = ⟨said ++ [spelled s] ++ pieces.map spelled, .outside⟩)
        ⟨said ++ [spelled s], .outside⟩ (print pieces) := ih
    rw [List.append_assoc, List.singleton_append] at hrest
    exact .andThen (says_put s) fun _ => hrest

theorem speaks_put (s : String) : Speaks (put s) := by
  rintro ⟨said, turn⟩ hφ
  obtain rfl : turn = .outside := hφ
  exact (says_put s).mono fun _ _ hψ => hψ ▸ rfl

theorem speaks_printLine (pieces : List String) : Speaks (printLine pieces) :=
  (Speaks.forM speaks_put pieces).bind fun _ => speaks_put "\n"

theorem speaks_log (r : Log.Record) : Speaks (log r) := by
  refine (Speaks.call (by exact trivial)).bind fun limit => ?_
  split
  · refine (Speaks.call (by exact trivial)).bind fun limit => ?_
    split
    · exact speaks_put _
    · exact .pure ()
  · exact .pure ()

theorem speaks_greet (core : Nat) : Speaks (greet core) := by
  refine (Speaks.locked (by decide) ?_).bind fun _ => speaks_log _
  exact (speaks_printLine _).bind fun _ => (Speaks.call (by exact trivial)).bind fun _ =>
    (speaks_printLine _).bind fun _ => .pure _

end Programs

/-! ## The invariant -/

/-- The gate is open, the console is set up, and its lock is held by the one core that is in a
call, if any is. -/
structure Attended (holder : Option Nat) (k : Kernel) (φs : List Speaker) : Prop where
  gate : k.gateOpen = true
  ready : k.consoleReady = true
  lock : k.locks.console.taken = holder.isSome
  inside : ∀ (i : Nat) (φ : Speaker), φs[i]? = some φ → (φ.turn ≠ .outside ↔ holder = some i)

theorem getElem?_set_cases {α : Type} {xs : List α} {x y : α} {i j : Nat}
    (h : (xs.set i x)[j]? = some y) : i = j ∧ x = y ∨ i ≠ j ∧ xs[j]? = some y := by
  by_cases hij : i = j
  · subst hij
    obtain ⟨hlt, hget⟩ := List.getElem?_eq_some_iff.mp h
    rw [List.getElem_set_self] at hget
    exact .inl ⟨rfl, hget⟩
  · rw [List.getElem?_set_ne hij] at h
    exact .inr ⟨hij, h⟩

namespace Attended

variable {holder holder' : Option Nat} {φs : List Speaker} {φ ψ : Speaker}

/-- What the console looks like to those who do not touch it. -/
theorem same (ha : Attended holder k φs) (hgate : k'.gateOpen = k.gateOpen)
    (hready : k'.consoleReady = k.consoleReady)
    (hlock : k'.locks.console = k.locks.console) : Attended holder k' φs where
  gate := hgate.trans ha.gate
  ready := hready.trans ha.ready
  lock := (congrArg SpinLock.taken hlock).trans ha.lock
  inside := ha.inside

/-- A core enters, stays in or leaves a call, and nobody else is in one. -/
theorem move (ha : Attended holder k φs) (hothers : ∀ j, j ≠ i → holder ≠ some j)
    (hothers' : ∀ j, j ≠ i → holder' ≠ some j) (hself : ψ.turn ≠ .outside ↔ holder' = some i)
    (hgate : k'.gateOpen = k.gateOpen) (hready : k'.consoleReady = k.consoleReady)
    (hlock : k'.locks.console.taken = holder'.isSome) : Attended holder' k' (φs.set i ψ) where
  gate := hgate.trans ha.gate
  ready := hready.trans ha.ready
  lock := hlock
  inside := by
    intro j χ hj
    rcases getElem?_set_cases hj with ⟨rfl, rfl⟩ | ⟨hij, hj⟩
    · exact hself
    · have hout : ¬χ.turn ≠ .outside := fun h => hothers j (Ne.symm hij) ((ha.inside j χ hj).mp h)
      exact ⟨fun h => (hout h).elim, fun h => (hothers' j (Ne.symm hij) h).elim⟩

end Attended

/-- What spares the console leaves it and the devices as they are. -/
theorem perform_spares (ho : SparesConsole o) (k : Kernel) :
    (perform o k).2.gateOpen = k.gateOpen ∧ (perform o k).2.consoleReady = k.consoleReady ∧
      (perform o k).2.locks.console = k.locks.console ∧ (perform o k).2.bus = k.bus := by
  cases o with
  | take l =>
    exact ⟨rfl, rfl, k.locks.get_set_ne _ ho, rfl⟩
  | release l =>
    exact ⟨rfl, rfl, k.locks.get_set_ne _ ho, rfl⟩
  | openGate | setConsoleReady | pollUart _ | transmit _ | readPins | writePins _
  | writeDevice _ _ | storeSpinTable _ _ | exchange _ _ => exact ho.elim
  | _ => exact ⟨rfl, rfl, rfl, rfl⟩

/-- The reply to a look at the gate or at the console is what they are. -/
theorem foreseen_of_perform {r : Reply o} (hgate : k.gateOpen = true)
    (hready : k.consoleReady = true) (hs : perform o k = (some r, k')) :
    Speaker.Foreseen o r := by
  cases o with
  | readGate => exact (Option.some.inj (Prod.mk.inj hs).1).symm.trans hgate
  | readConsoleReady => exact (Option.some.inj (Prod.mk.inj hs).1).symm.trans hready
  | _ => trivial

theorem Attended.answered {holder : Option Nat} {φs : List Speaker} {φ ψ : Speaker} {r : Reply o}
    (ha : Attended holder k φs) (hi : φs[i]? = some φ) (hu : φ.Utters o ψ)
    (hs : perform o k = (some r, k')) : ∃ holder', Attended holder' k' (φs.set i ψ) := by
  -- Whoever is in a call holds the lock, so the others are in none.
  have hothers : ∀ {j : Nat}, φ.turn ≠ .outside → j ≠ i → holder ≠ some j := by
    intro j hin hj he
    rw [(ha.inside i φ hi).mp hin] at he
    exact hj (Option.some.inj he).symm
  cases hu with
  | spare _ ho =>
    have hk : k' = (perform o k).2 := by rw [hs]
    obtain ⟨hgate, hready, hlock, -⟩ := perform_spares ho k
    rw [Crew.set_of_getElem? hi, hk]
    exact ⟨holder, ha.same hgate hready hlock⟩
  | enter said =>
    obtain ⟨hfree, rfl⟩ := of_perform_take hs
    have hnone : holder = none := by
      have hlock := ha.lock
      rw [show k.locks.console.taken = false from hfree] at hlock
      exact Option.not_isSome_iff_eq_none.mp (Bool.eq_false_iff.mp hlock.symm)
    subst hnone
    exact ⟨some i, ha.move (fun _ _ => nofun) (fun j hj he => hj (Option.some.inj he).symm)
      ⟨fun _ => rfl, fun _ => nofun⟩ rfl rfl rfl⟩
  | look said sent =>
    have hmine := (ha.inside i _ hi).mp nofun
    obtain ⟨-, rfl⟩ := Prod.mk.inj hs
    exact ⟨holder, ha.move (fun _ => hothers nofun) (fun _ => hothers nofun)
      ⟨fun _ => hmine, fun _ => nofun⟩ rfl rfl ha.lock⟩
  | send said sent b =>
    have hmine := (ha.inside i _ hi).mp nofun
    obtain ⟨-, rfl⟩ := Prod.mk.inj hs
    exact ⟨holder, ha.move (fun _ => hothers nofun) (fun _ => hothers nofun)
      ⟨fun _ => hmine, fun _ => nofun⟩ rfl rfl ha.lock⟩
  | leave said sent =>
    obtain ⟨-, rfl⟩ := Prod.mk.inj hs
    exact ⟨none, ha.move (fun _ => hothers nofun) (fun _ _ => nofun)
      ⟨fun h => (h rfl).elim, nofun⟩ rfl rfl rfl⟩

theorem keeps_attended : speaking.Keeps fun k φs => ∃ holder, Attended holder k φs where
  answered := by
    rintro k k' φs i φ o r ⟨holder, ha⟩ hi hp hs
    exact ⟨foreseen_of_perform ha.gate ha.ready hs,
      ha.answered hi (Speaker.utters_of_permits hp) hs⟩
  waiting := by
    rintro k k' φs i φ o ⟨holder, ha⟩ hi hp hs
    cases waits_of_perform hs with
    | uart _ _ => exact ⟨holder, ha.same rfl rfl rfl⟩
    | _ => exact ⟨holder, ha⟩

/-- However cores interleave that use the console as it is meant to be used, at most one of them is
in a call of it. -/
theorem watched_speaking {α : Type} {c d : Crew machine Panic α} {h : List (Attempt machine)}
    (hgate : c.shared.gateOpen = true) (hready : c.shared.consoleReady = true)
    (hfree : c.shared.locks.console.taken = false) (hspeak : ∀ p ∈ c.programs, Speaks p)
    (hr : c.Runs h d) :
    speaking.Watched (fun k φs => ∃ holder, Attended holder k φs)
      (fun _ ψ => Speaker.turn ψ = .outside)
      (List.replicate c.programs.length ({} : Speaker)) h d := by
  refine keeps_attended.runs ⟨none, hgate, hready, hfree, ?_⟩ ?_ ?_ hr
  · intro i φ hi
    obtain ⟨-, rfl⟩ := List.mem_replicate.mp (List.mem_of_getElem? hi)
    exact ⟨fun h => (h rfl).elim, nofun⟩
  · rw [List.length_replicate]
  · intro i φ p hi hp
    obtain ⟨-, rfl⟩ := List.mem_replicate.mp (List.mem_of_getElem? hi)
    exact hspeak p (List.mem_of_getElem? hp) {} rfl

end BareKernel.Kernel
