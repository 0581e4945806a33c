import BareKernel.Kernel.Body
import BareKernel.Proofs.Kernel.Client
import BareKernel.Proofs.Kernel.Waiting

/-! Which locks a core holds, and what code leaves them as it found them. Code that is brief also
waits for no other core while it holds one, so that nobody who wants its lock waits for long. The
console and the log are brief; the kernel's body, which talks inside its critical section, is not,
but gives back what it takes. -/

namespace BareKernel.Kernel

open Sync

variable {α β : Type} {brief : Prop} {held : List LockName} {l : LockName} {o : Op}

/-! ## Locks held -/

/-- The locks that a core holds after an operation. -/
def heldAfter (held : List LockName) : Op → List LockName
  | .take l => l :: held
  | .release l => held.filter (· ≠ l)
  | _ => held

/-- An operation that may wait for another core. -/
def AwaitsOthers : Op → Prop
  | .take _ | .awaitReleased | .awaitComplete _ => True
  | _ => False

/-- An operation that neither takes nor gives back a lock, nor waits for another core, nor marks a
place in the boot. -/
def SparesLocks : Op → Prop
  | .take _ | .release _ | .awaitReleased | .awaitComplete _ | .note _ (.reached _) => False
  | _ => True

theorem Client.held_after (c : Client) (o : Op) (r : Reply o) :
    (c.after o r).held = heldAfter c.held o := by
  cases o with
  | allocateObject align bytes => cases r <;> rfl
  | _ => rfl

theorem heldAfter_of_spares (ho : SparesLocks o) : heldAfter held o = held := by
  cases o <;> first | rfl | exact ho.elim

/-- A lock that was taken and given back is no longer among those held. -/
theorem filter_cons_of_notMem (hl : l ∉ held) : (l :: held).filter (· ≠ l) = held := by
  rw [List.filter_cons_of_neg (by simp)]
  exact List.filter_eq_self.mpr fun l' hl' => decide_eq_true fun h => hl (h ▸ hl')

theorem Blocks.awaitsOthers {k : Kernel} (hb : Blocks k o) : AwaitsOthers o := by
  cases hb <;> trivial

/-! ## Code that restores them -/

/-- Code of a client's: it marks no place in the boot, and if it is brief it waits for others only
while it holds no lock. -/
def custody (brief : Prop) : Protocol machine Panic where
  Phase := List LockName
  Permits held o := (∀ core s, o ≠ .note core (.reached s)) ∧ (brief → AwaitsOthers o → held = [])
  Foreseen _ _ _ := True
  next held o _ := heldAfter held o
  MayStop _ := True

/-- With these locks held before it, the code holds the same ones after it. -/
def Restores (brief : Prop) (held : List LockName) (p : Code α) : Prop :=
  (custody brief).Follows (fun _ held' => held' = held) held p

namespace Restores

variable {p : Code α} {f : α → Code β}

theorem pure (a : α) : Restores brief held (Pure.pure a : Code α) := rfl

theorem bind (hp : Restores brief held p) (hf : ∀ a, Restores brief held (f a)) :
    Restores brief held (p >>= f) :=
  .andThen hp hf

theorem call (ho : SparesLocks o) : Restores brief held (Kernel.call o) := by
  refine Protocol.Follows.call (P := custody brief) ⟨?_, ?_⟩ fun _ _ => heldAfter_of_spares ho
  · rintro core s rfl
    exact ho
  · intro _ hw
    cases o <;> first | exact ho.elim | exact hw.elim

theorem forM {γ : Type} {g : γ → Code Unit} (hg : ∀ x, Restores brief held (g x)) (xs : List γ) :
    Restores brief held (xs.forM g) := by
  induction xs with
  | nil => exact .pure ()
  | cons x xs ih => exact (hg x).bind fun _ => ih

/-- A lock is given back when the code under it is through. -/
theorem locked (hl : l ∉ held) (hbrief : brief → held = []) (hp : Restores brief (l :: held) p) :
    Restores brief held (Kernel.locked l p) := by
  refine Protocol.Follows.bind (.call ⟨nofun, fun h _ => hbrief h⟩ fun _ _ => ?_)
  refine Protocol.Follows.bind (Protocol.Follows.mono hp ?_)
  rintro a _ rfl
  exact Protocol.Follows.bind (.call ⟨nofun, nofun⟩ fun _ _ => .pure (filter_cons_of_notMem hl))

theorem guarded (hl : l ∉ held) (hbrief : brief → held = []) (hp : Restores brief (l :: held) p)
    (hp' : Restores brief held p) : Restores brief held (Kernel.guarded l p) := by
  refine (call (o := .readGate) trivial).bind fun isOpen => ?_
  cases isOpen with
  | true => exact locked hl hbrief hp
  | false => exact hp'

/-- A single operation under its lock. -/
theorem guardedCall (ho : SparesLocks o) (hl : l ∉ held) (hbrief : brief → held = []) :
    Restores brief held (Kernel.guarded l (Kernel.call o)) :=
  .guarded hl hbrief (.call ho) (.call ho)

theorem stop (e : Panic) : Restores brief held (.stop e : Code α) := trivial

/-- Code that goes on with what the heap says of itself, whichever way it comes out. -/
theorem bindReply {p : Code (Except Heap.Failure α)} {f : Except Heap.Failure α → Code β}
    (hp : Restores brief held p) (hok : ∀ a, Restores brief held (f (.ok a)))
    (hfault : ∀ e, Restores brief held (f (.error (.fault e))))
    (herror : ∀ e, Restores brief held (f (.error (.error e)))) :
    Restores brief held (p >>= f) := by
  refine hp.bind fun r => ?_
  rcases r with (e | e) | a
  · exact herror e
  · exact hfault e
  · exact hok a

end Restores

/-! ## The kernel's own code -/

theorem restores_putBytes (bytes : List UInt8) : Restores brief held (putBytes bytes) := by
  induction bytes with
  | nil => exact .pure ()
  | cons b bytes ih =>
    have hbyte : Restores brief held (putByte b) :=
      (Restores.call (by exact trivial)).bind fun _ => .call (by exact trivial)
    exact hbyte.bind fun _ => ih

theorem restores_put (hl : .console ∉ held) (hbrief : brief → held = []) (s : String) :
    Restores brief held (put s) := by
  refine (Restores.call (o := .readConsoleReady) trivial).bind fun ready => ?_
  cases ready with
  | true => exact .guarded hl hbrief (restores_putBytes _) (restores_putBytes _)
  | false => exact .pure ()

theorem restores_printLine (hl : .console ∉ held) (hbrief : brief → held = [])
    (pieces : List String) : Restores brief held (printLine pieces) :=
  (Restores.forM (restores_put hl hbrief) pieces).bind fun _ => restores_put hl hbrief "\n"

theorem restores_log (hl : .console ∉ held) (hbrief : brief → held = []) (r : Log.Record) :
    Restores brief held (log r) := by
  refine (Restores.call (o := .readLogLimit) trivial).bind fun limit => ?_
  split
  · refine (Restores.call (o := .readLogLimit) trivial).bind fun limit => ?_
    split
    · exact restores_put hl hbrief _
    · exact .pure ()
  · exact .pure ()

theorem restores_greet (core : Nat) : Restores False [] (greet core) := by
  have hprint : ∀ pieces, Restores False [.critical] (printLine pieces) :=
    restores_printLine (by decide) False.elim
  have hsection : Restores False [.critical] (do
      printLine ["Hello from core ", toString core]
      let entered ← call .countEntered
      printLine ["Goodbye from core ", toString core]
      return entered) :=
    (hprint _).bind fun _ => (Restores.call (by exact trivial)).bind fun _ =>
      (hprint _).bind fun _ => .pure _
  exact (Restores.locked (by decide) False.elim hsection).bind fun _ =>
    restores_log (by decide) False.elim _

theorem restores_report : Restores False [] report := by
  have hlog : ∀ r, Restores False [] (log r) := restores_log (by decide) False.elim
  have hstats : Restores False [] (guarded .heap (call .heapStats)) :=
    .guardedCall trivial (by decide) False.elim
  have hcheck : Restores False [] (guarded .heap (call .heapIntegrity)) :=
    .guardedCall trivial (by decide) False.elim
  refine hstats.bindReply (fun s => (hlog _).bind fun _ => ?_) (fun e => .stop _) (fun e => ?_)
  all_goals exact hcheck.bindReply (fun _ => .pure ()) (fun e => .stop _) fun e => hlog _

/-- The kernel's own body ends without a lock. -/
theorem restores_body (core : Nat) : Restores False [] (body core) := by
  refine (restores_greet core).bind fun _ => ?_
  split
  · exact restores_report
  · exact .pure ()

theorem restores_critical (a : α) : Restores False [] (critical a) :=
  .locked (by decide) False.elim (.pure a)

end BareKernel.Kernel
