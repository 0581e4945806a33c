import BareKernel.Board.Platform
import BareKernel.Proofs.Heap.Session
import BareKernel.Proofs.Sync.Protocol

/-! Code that uses what the cores share as it is meant to be used: the console, the mailbox and the
heap only under their locks or while the gate was seen closed, a lock given back only by who took
it, and heap memory freed only by who allocated it. How much such code may do depends on where in a
boot it runs. -/

namespace BareKernel.Kernel

open Sync

/-- What one core's replies have told its code: how the gate looked last, which locks it holds, and
which memory. -/
structure Client where
  reading : Option Bool := none
  held : List LockName := []
  loans : List Loan := []

/-- How much code may do: keep records, and nothing else, while paging is being turned on; write to
the console; set devices up; use the heap and everything else that the running kernel may use. -/
inductive Scope where
  | silent
  | logging
  | setup
  | kernel
  deriving DecidableEq, Repr

namespace Client

variable {c c' c'' : Client} {s : Scope} {l : LockName} {o : Op} {α β : Type}

/-- With the lock held, or with the gate last seen closed. -/
def MayUse (c : Client) (l : LockName) : Prop := l ∈ c.held ∨ c.reading = some false

def Permits (s : Scope) (c : Client) : Op → Prop
  | .keepRecord _ => True
  | .readGate | .readConsoleReady | .readLogLimit | .note _ (.asked _ _) => s ≠ .silent
  | .take _ => s = .kernel ∨ s ≠ .silent ∧ c.reading = some true
  | .release l => l ∈ c.held
  | .pollUart _ | .transmit _ => s = .setup ∨ s ≠ .silent ∧ c.MayUse .console
  | .exchange _ _ => (s = .setup ∨ s = .kernel) ∧ c.MayUse .mailbox
  | .setConsoleReady | .setLogLimit _ | .readPins | .writePins _ | .writeDevice _ _
  | .storeSpinTable _ _ => s = .setup ∨ s = .kernel
  | .allocate _ | .allocateObject _ _ | .heapStats | .heapIntegrity =>
    s = .kernel ∧ c.MayUse .heap
  | .free addr => s = .kernel ∧ c.MayUse .heap ∧ (addr = 0 ∨ addr ∈ c.loans.map (·.addr))
  | .readTables | .awaitReleased | .readRendezvous | .awaitComplete _ | .countEntered =>
    s = .kernel
  | _ => False

/-- What an operation and its reply change. Once the gate is open, a closed one is a thing of the
past. -/
def after (c : Client) : (o : Op) → Reply o → Client
  | .readGate, isOpen => { c with reading := some isOpen }
  | .openGate, _ => { c with reading := none }
  | .take l, _ => { c with held := l :: c.held }
  | .release l, _ => { c with held := c.held.filter (· ≠ l) }
  | .allocate size, r => { c with loans := Session.grant c.loans size r }
  | .allocateObject _ bytes, .ok addr =>
    { c with loans := ⟨addr, max bytes.length 1⟩ :: c.loans }
  | .free addr, _ => { c with loans := Session.revoke c.loans addr }
  | _, _ => c

/-- What is permitted to write to the console is permitted wherever devices or the heap may be
used. -/
theorem Permits.of_logging (h : Permits .logging c o) (hs : s ≠ .silent) : Permits s c o := by
  cases o with
  | note core e => cases e <;> simp_all [Permits]
  | _ => simp_all [Permits]

end Client

/-- A lost record of the boot's own is no panic that other code raises. -/
def Panic.IsBootOrder : Panic → Prop
  | .noTables _ | .noRendezvous => True
  | _ => False

def discipline (s : Scope) : Protocol machine Panic where
  Phase := Client
  Permits := Client.Permits s
  Foreseen _ _ _ := True
  next := Client.after
  MayStop e := ¬e.IsBootOrder

/-- Whatever it was told before, the code keeps to what is permitted. -/
def Uses {α : Type} (s : Scope) (p : Code α) : Prop :=
  ∀ c, (discipline s).Follows (fun _ _ => True) c p

/-! ## Composition -/

section Composition

variable {c c' c'' : Client} {s : Scope} {l : LockName} {o : Op} {α β : Type} {p : Code α}
  {f : α → Code β}

theorem Uses.pure (a : α) : Uses s (Pure.pure a : Code α) := fun _ => trivial

theorem Uses.bind (hp : Uses s p) (hf : ∀ a, Uses s (f a)) : Uses s (p >>= f) :=
  fun c => .bind ((hp c).mono fun a c' _ => hf a c')

theorem Uses.call (h : ∀ c : Client, c.Permits s o) : Uses s (Kernel.call o) :=
  fun c => .call (h c) fun _ _ => trivial

theorem Uses.forM {γ : Type} {g : γ → Code Unit} (hg : ∀ x, Uses s (g x)) (xs : List γ) :
    Uses s (xs.forM g) := by
  induction xs with
  | nil => exact .pure ()
  | cons x xs ih => exact (hg x).bind fun _ => ih

theorem Follows.of_logging {Q : α → Client → Prop} (hs : s ≠ .silent)
    (h : (discipline .logging).Follows Q c p) : (discipline s).Follows Q c p := by
  have hsame : (discipline s).Follows (fun a c' => ∃ c, c' = c ∧ Q a c) c p := by
    refine .lift (discipline s) (fun (c : Client) _ (c' : Client) => c' = c) h rfl ?_ fun _ => id
    intro c o k c' hc hp
    subst hc
    exact ⟨Client.Permits.of_logging hp hs, fun _ _ => ⟨trivial, rfl⟩⟩
  refine hsame.mono fun a c hc => ?_
  obtain ⟨c', rfl, hq⟩ := hc
  exact hq

theorem Uses.of_logging (hs : s ≠ .silent) (h : Uses .logging p) : Uses s p :=
  fun c => Follows.of_logging hs (h c)

/-- Guarded code runs either with the lock or after a look at a closed gate. -/
theorem follows_guarded {Q : α → Client → Prop} (hs : s ≠ .silent)
    (hopen : (discipline s).Follows (fun a c' => l ∈ c'.held ∧
      Q a { c' with held := c'.held.filter (· ≠ l) }) ⟨some true, l :: c.held, c.loans⟩ p)
    (hclosed : (discipline s).Follows Q ⟨some false, c.held, c.loans⟩ p) :
    (discipline s).Follows Q c (guarded l p) := by
  refine .bind (.call (by exact hs) fun isOpen _ => ?_)
  cases isOpen with
  | true =>
    refine .bind (.call (.inr ⟨hs, rfl⟩) fun _ _ => .bind (hopen.mono fun a c' h => ?_))
    exact .bind (.call h.1 fun _ _ => .pure h.2)
  | false => exact hclosed

/-- Any single operation under its lock. -/
theorem Uses.guarded (hs : s ≠ .silent) (h : ∀ c : Client, c.MayUse l → c.Permits s o)
    (hk : ∀ (c : Client) (r : Reply o), (c.after o r).held = c.held) :
    Uses s (Kernel.guarded l (Kernel.call o)) := by
  intro c
  refine follows_guarded hs (.call (h _ (.inl List.mem_cons_self)) fun r _ => ⟨?_, trivial⟩)
    (.call (h _ (.inr rfl)) fun _ _ => trivial)
  have hheld := hk ⟨some true, l :: c.held, c.loans⟩ r
  exact hheld.symm ▸ List.mem_cons_self

end Composition

/-! ## The console -/

section Console

variable {c c' c'' : Client} {s : Scope}

/-- What was held is still held, but for the console's lock. -/
structure Client.Outlasts (c c' : Client) : Prop where
  loans : c'.loans = c.loans
  held : ∀ l ∈ c.held, l ≠ .console → l ∈ c'.held

theorem Client.Outlasts.refl (c : Client) : c.Outlasts c := ⟨rfl, fun _ h _ => h⟩

theorem Client.Outlasts.trans (h : c.Outlasts c') (h' : c'.Outlasts c'') : c.Outlasts c'' :=
  ⟨h'.loans.trans h.loans, fun l hl hne => h'.held l (h.held l hl hne) hne⟩

theorem follows_putBytes (hu : c.MayUse .console) (bytes : List UInt8) :
    (discipline .logging).Follows (fun _ c' => c' = c) c (putBytes bytes) := by
  induction bytes with
  | nil => exact .pure rfl
  | cons b bytes ih =>
    have hp : (.logging : Scope) ≠ .silent ∧ c.MayUse .console := ⟨by decide, hu⟩
    exact .bind (.bind (.call (.inr hp) fun _ _ => .call (.inr hp) fun _ _ => ih))

theorem follows_put (t : String) :
    (discipline .logging).Follows (fun _ c' => c.Outlasts c') c (put t) := by
  refine .bind (.call (by exact (by decide : (.logging : Scope) ≠ .silent)) fun ready _ => ?_)
  cases ready with
  | false => exact .pure (.refl c)
  | true =>
    refine follows_guarded (by decide) ?_ ?_
    · refine (follows_putBytes (.inl List.mem_cons_self) _).mono fun _ c' hc => ?_
      subst hc
      refine ⟨List.mem_cons_self, rfl, fun l hl hne => ?_⟩
      exact List.mem_filter.mpr ⟨List.mem_cons_of_mem _ hl, decide_eq_true hne⟩
    · refine (follows_putBytes (.inr rfl) _).mono fun _ c' hc => ?_
      subst hc
      exact ⟨rfl, fun l hl _ => hl⟩

theorem follows_print (pieces : List String) :
    (discipline .logging).Follows (fun _ c' => c.Outlasts c') c (print pieces) := by
  induction pieces generalizing c with
  | nil => exact .pure (.refl c)
  | cons t pieces ih =>
    exact .bind ((follows_put t).mono fun _ c' h => ih.mono fun _ _ h' => h.trans h')

theorem follows_printLine (pieces : List String) :
    (discipline .logging).Follows (fun _ c' => c.Outlasts c') c (printLine pieces) :=
  .bind ((follows_print pieces).mono fun _ _ h => (follows_put "\n").mono fun _ _ h' => h.trans h')

theorem follows_log (r : Log.Record) :
    (discipline .logging).Follows (fun _ c' => c.Outlasts c') c (log r) := by
  refine .bind (.call (by exact (by decide : (.logging : Scope) ≠ .silent)) fun limit _ => ?_)
  split
  · refine .bind (.call (by exact (by decide : (.logging : Scope) ≠ .silent)) fun limit _ => ?_)
    split
    · exact follows_put _
    · exact .pure (.refl c)
  · exact .pure (.refl c)

theorem uses_log (r : Log.Record) : Uses .logging (log r) :=
  fun _ => (follows_log r).mono fun _ _ _ => trivial

end Console

end BareKernel.Kernel
