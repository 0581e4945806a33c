import BareKernel.Kernel.Body
import BareKernel.Proofs.Kernel.Client

/-! The kernel's own body, and what else runs between the two meetings, keep to what a running
kernel may do. -/

namespace BareKernel.Kernel

open Sync

variable {α : Type} {c : Client} {l : LockName} {p : Code α}

/-- Locked code runs with the lock, and gives it back. -/
theorem follows_locked {Q : α → Client → Prop}
    (h : (discipline .kernel).Follows (fun a c' => l ∈ c'.held ∧
      Q a { c' with held := c'.held.filter (· ≠ l) }) { c with held := l :: c.held } p) :
    (discipline .kernel).Follows Q c (locked l p) := by
  refine .bind (.call (.inl rfl) fun _ _ => .bind (h.mono ?_))
  intro a c' ha
  exact .bind (.call ha.1 fun _ _ => .pure ha.2)

theorem uses_greet (core : Nat) : Uses .kernel (greet core) := by
  have hlog : ∀ r, Uses .kernel (log r) := fun r => (uses_log r).of_logging (by decide)
  have hprint : ∀ (c : Client) (pieces : List String), (discipline .kernel).Follows
      (fun _ c' => c.Outlasts c') c (printLine pieces) := fun c pieces =>
    Follows.of_logging (by decide) (follows_printLine pieces)
  have hcritical : .critical ≠ LockName.console := by decide
  have hsection : Uses .kernel (locked .critical do
      printLine ["Hello from core ", toString core]
      let entered ← call .countEntered
      printLine ["Goodbye from core ", toString core]
      return entered) := by
    intro c
    refine follows_locked (.bind ((hprint _ _).mono ?_))
    intro _ c₁ h₁
    refine .bind (.call (by exact rfl) fun entered _ => .bind ((hprint c₁ _).mono ?_))
    intro _ c₂ h₂
    exact .pure ⟨(h₁.trans h₂).held .critical List.mem_cons_self hcritical, trivial⟩
  exact hsection.bind fun _ => hlog _

/-- Code that goes on with what the heap says of itself, whichever way it comes out. -/
theorem Uses.bindReply {β : Type} {s : Scope} {p : Code (Except Heap.Failure α)}
    {f : Except Heap.Failure α → Code β} (hp : Uses s p) (hok : ∀ a, Uses s (f (.ok a)))
    (hfault : ∀ e, Uses s (f (.error (.fault e))))
    (herror : ∀ e, Uses s (f (.error (.error e)))) : Uses s (p >>= f) := by
  refine hp.bind fun r => ?_
  cases r with
  | ok a => exact hok a
  | error e =>
    cases e with
    | fault e => exact hfault e
    | error e => exact herror e

theorem uses_report : Uses .kernel report := by
  have hlog : ∀ r, Uses .kernel (log r) := fun r => (uses_log r).of_logging (by decide)
  have hstats : Uses .kernel (guarded .heap (call .heapStats)) :=
    .guarded (by decide) (fun _ hu => ⟨rfl, hu⟩) fun _ _ => rfl
  have hcheck : Uses .kernel (guarded .heap (call .heapIntegrity)) :=
    .guarded (by decide) (fun _ hu => ⟨rfl, hu⟩) fun _ _ => rfl
  refine hstats.bindReply (fun s => (hlog _).bind fun _ => ?_) (fun e _ => id) (fun e => ?_)
  all_goals exact hcheck.bindReply (fun _ => .pure ()) (fun e _ => id) fun e => hlog _

theorem uses_body (core : Nat) : Uses .kernel (body core) := by
  refine (uses_greet core).bind fun _ => ?_
  split
  · exact uses_report
  · exact .pure ()

theorem uses_critical {a : α} : Uses .kernel (critical a) :=
  fun _ => follows_locked (.pure ⟨List.mem_cons_self, trivial⟩)

/-- What is freed here is what has just been allocated here. -/
theorem uses_exerciseHeap (size : Nat) : Uses .kernel (exerciseHeap size) := by
  have hfree : ∀ (c : Client) addr, addr ∈ c.loans.map (·.addr) →
      (discipline .kernel).Follows (fun _ _ => True) c (free addr) := by
    intro c addr ha
    have hresult : ∀ (c : Client) (r : Except Heap.Fatal Unit),
        (discipline .kernel).Follows (fun _ _ => True) c (heapCall r) := by
      intro c r
      cases r with
      | ok _ => exact .pure trivial
      | error e => exact id
    refine .bind (follows_guarded (by decide) ?_ ?_)
    · exact .call ⟨rfl, .inl List.mem_cons_self, .inr ha⟩ fun r _ =>
        ⟨List.mem_cons_self, hresult _ r⟩
    · exact .call ⟨rfl, .inr rfl, .inr ha⟩ fun r _ => hresult _ r
  have hused : ∀ {f : Option Nat → Code Unit} (c : Client) (live : List Loan)
      (r : Except Heap.Fatal (Option Nat)), (∀ addr, f (some addr) = free addr) →
      f none = pure () → c.loans = Session.grant live size r → (discipline .kernel).Follows
        (fun p c' => (discipline .kernel).Follows (fun _ _ => True) c' (f p)) c (heapCall r) := by
    intro f c live r hsome hnone hloans
    cases r with
    | ok p =>
      cases p with
      | some addr =>
        refine .pure ((hsome addr).symm ▸ hfree c addr ?_)
        rw [hloans]
        exact List.mem_cons_self
      | none => exact .pure (hnone.symm ▸ .pure trivial)
    | error e => exact id
  intro c
  refine .bind (.bind (follows_guarded (by decide) ?_ ?_))
  · exact .call ⟨rfl, .inl List.mem_cons_self⟩ fun r _ =>
      ⟨List.mem_cons_self, hused _ c.loans r (fun _ => rfl) rfl rfl⟩
  · exact .call ⟨rfl, .inr rfl⟩ fun r _ => hused _ c.loans r (fun _ => rfl) rfl rfl

end BareKernel.Kernel
