import BareKernel.Kernel.Machine
import BareKernel.Proofs.Sync.Progress

/-! What keeps a core waiting: a lock that somebody holds, a UART that is not ready, the release of
the other cores, and a barrier that is not complete. Everything else is answered at once, and a UART
becomes ready by itself. -/

namespace BareKernel

open Sync

variable {k k' : Kernel} {l l' : LockName}

/-! ## Locks -/

namespace Locks

@[simp] theorem get_set_self (ls : Locks) (lock : SpinLock) (l : LockName) :
    (ls.set lock l).get l = lock := by cases l <;> rfl

theorem get_set_ne (ls : Locks) (lock : SpinLock) (h : l' ≠ l) :
    (ls.set lock l').get l = ls.get l := by
  cases l <;> cases l' <;> first | rfl | exact absurd rfl h

theorem set_get (ls : Locks) (l : LockName) : ls.set (ls.get l) l = ls := by cases l <;> rfl

end Locks

namespace Kernel

variable {o : Op}

/-- Only who finds the lock free gets it. -/
theorem of_perform_take {r : Unit} (h : perform (.take l) k = (some r, k')) :
    (k.locks.get l).taken = false ∧ k' = { k with locks := k.locks.set ⟨true⟩ l } := by
  cases ht : (k.locks.get l).taken <;> simp_all [perform, SpinLock.tryAcquire]

/-- To find a lock taken changes nothing. -/
theorem of_perform_take_none (h : perform (.take l) k = (none, k')) :
    (k.locks.get l).taken = true ∧ k' = k := by
  cases ht : (k.locks.get l).taken with
  | false => simp [perform, SpinLock.tryAcquire, ht] at h
  | true =>
    simp only [perform, SpinLock.tryAcquire, ht, Bool.not_true, Bool.false_eq_true, if_false,
      Prod.mk.injEq, true_and] at h
    refine ⟨rfl, ?_⟩
    rw [← h, ← ht]
    exact congrArg (fun locks => { k with locks := locks }) (k.locks.set_get l)

/-! ## Tries in vain -/

/-- An operation that gets no reply, and the state that its try leaves. -/
inductive Waits (k : Kernel) : Op → Kernel → Prop
  | lock (l : LockName) : (k.locks.get l).taken = true → Waits k (.take l) k
  | uart {mask w : UInt32} {rest : List UInt32} : k.bus.uartFlags = w :: rest → w &&& mask ≠ 0 →
      Waits k (.pollUart mask) { k with bus :=
        { k.bus with uartFlags := rest }.record (.read Board.Uart.flagRegister w) }
  | release : k.release.isReleased = false → Waits k .awaitReleased k
  | barrier (addr : Nat) : (k.barrierAt addr).isComplete = false →
      Waits k (.awaitComplete addr) k

theorem waits_of_perform (h : perform o k = (none, k')) : Waits k o k' := by
  cases o with
  | take l =>
    obtain ⟨ht, rfl⟩ := of_perform_take_none h
    exact .lock l ht
  | pollUart mask =>
    rcases hf : k.bus.uartFlags with _ | ⟨w, rest⟩
    · simp [perform, Board.Bus.pollUart, hf] at h
    · by_cases hw : w &&& mask = 0
      · simp [perform, Board.Bus.pollUart, hf, hw] at h
      · simp only [perform, Board.Bus.pollUart, hf, hw, decide_false, Bool.false_eq_true, if_false,
          Prod.mk.injEq, true_and] at h
        rw [← h]
        exact .uart hf hw
  | awaitReleased =>
    cases hr : k.release.isReleased with
    | false =>
      obtain ⟨-, rfl⟩ := Prod.mk.inj h
      exact .release hr
    | true => simp [perform, hr] at h
  | awaitComplete addr =>
    cases hc : (k.barrierAt addr).isComplete with
    | false =>
      obtain ⟨-, rfl⟩ := Prod.mk.inj h
      exact .barrier addr hc
    | true => simp [perform, hc] at h
  | _ => cases (Prod.mk.inj h).1

/-! ## Waiting for others -/

/-- An operation that only another core can help. -/
inductive Blocks (k : Kernel) : Op → Prop
  | lock (l : LockName) : (k.locks.get l).taken = true → Blocks k (.take l)
  | release : k.release.isReleased = false → Blocks k .awaitReleased
  | barrier (addr : Nat) : (k.barrierAt addr).isComplete = false → Blocks k (.awaitComplete addr)

/-- Its tries change nothing. -/
theorem Blocks.perform (h : Blocks k o) : perform o k = (none, k) := by
  rcases hs : Kernel.perform o k with ⟨_ | r, k'⟩
  · cases h <;> cases waits_of_perform hs <;> rfl
  · exfalso
    cases h with
    | lock l ht => simp [of_perform_take hs] at ht
    | release hr => simp [Kernel.perform, hr] at hs
    | barrier addr hc => simp [Kernel.perform, hc] at hs

theorem Blocks.settle (h : Blocks k o) (n : Nat) : machine.settle o n k = (none, k) := by
  induction n with
  | zero => exact h.perform
  | succ n ih => exact (Machine.settle_succ (M := machine) h.perform n).trans ih

/-- A busy UART is ready once its flags have been read often enough. -/
theorem settle_pollUart (mask : UInt32) (n : Nat) (hn : k.bus.uartFlags.length ≤ n) :
    (machine.settle (.pollUart mask) n k).1.isSome = true := by
  induction n generalizing k with
  | zero =>
    have hnil := List.eq_nil_of_length_eq_zero (Nat.le_zero.mp hn)
    rcases hs : perform (.pollUart mask) k with ⟨_ | r, k'⟩
    · cases waits_of_perform hs with
      | uart hf _ => simp [hnil] at hf
    · exact congrArg (fun q : Option Unit × Kernel => q.1.isSome) hs
  | succ n ih =>
    rcases hs : perform (.pollUart mask) k with ⟨_ | r, k'⟩
    · rw [Machine.settle_succ (M := machine) hs]
      cases waits_of_perform hs with
      | uart hf _ =>
        refine ih ?_
        rw [hf, List.length_cons] at hn
        exact Nat.le_of_succ_le_succ hn
    · rw [Machine.settle_of_perform (M := machine) hs]
      rfl

/-! ## One core by itself -/

section Alone

variable {α : Type} {r : Reply o}

theorem advance_call_bind (h : perform o k = (some r, k')) (f : Reply o → Code α) :
    (call o >>= f).advance k = (f r).advance k' :=
  Program.advance_of_settle (M := machine) (Machine.settle_of_perform (M := machine) h _) f

theorem advance_call (h : perform o k = (some r, k')) : (call o).advance k = (.done r, k') :=
  advance_call_bind h .done

theorem advance_call_bind_of_blocks (h : Blocks k o) (f : Reply o → Code α) :
    (call o >>= f).advance k = (call o >>= f, k) :=
  Program.advance_of_settle_none (M := machine) (h.settle _) f

end Alone

/-! ## Cores among others -/

section Crew

variable {α : Type} {d : Crew machine Panic α} {i : Nat} {next : Reply o → Code α}

/-- Whoever does not wait for another core moves. -/
theorem moves_of_not_blocks (hp : d.programs[i]? = some (.op o next))
    (hb : ¬Blocks d.shared o) : d.Moves i := by
  refine ⟨o, next, hp, ?_⟩
  rcases hs : perform o d.shared with ⟨_ | r, k'⟩
  · cases waits_of_perform hs with
    | lock l ht => exact absurd (.lock l ht) hb
    | release hr => exact absurd (.release hr) hb
    | barrier addr hc => exact absurd (.barrier addr hc) hb
    | uart _ _ => exact settle_pollUart _ _ (Nat.le_refl _)
  · rw [Machine.settle_of_perform (M := machine) hs]
    rfl

/-- A core that cannot move is idle: it is over, or it waits for another one. -/
theorem idle_of_not_moves (hm : ¬d.Moves i) : d.Idle i := by
  by_cases hp : ∃ o next, d.programs[i]? = some (.op o next)
  · obtain ⟨o, next, hp⟩ := hp
    have hb : Blocks d.shared o := by
      by_contra hb
      exact hm (moves_of_not_blocks hp hb)
    exact Crew.idle_of_perform hp hb.perform
  · exact Crew.idle_of_over fun o next h => hp ⟨o, next, h⟩

/-- A core that moves changes something with its next step. -/
theorem step_ne_of_moves (hm : d.Moves i) : d.step i ≠ d := by
  obtain ⟨o, next, hp, hsome⟩ := hm
  have hb : ¬Blocks d.shared o := by
    intro hb
    rw [hb.settle] at hsome
    cases hsome
  rcases hs : perform o d.shared with ⟨_ | r, k'⟩
  · rw [(Crew.step_waiting hp (M := machine) hs).2]
    intro h
    have hk : k' = d.shared := congrArg Crew.shared h
    cases waits_of_perform hs with
    | lock l ht => exact hb (.lock l ht)
    | release hr => exact hb (.release hr)
    | barrier addr hc => exact hb (.barrier addr hc)
    | uart hf _ =>
      have hflags := congrArg (fun k : Kernel => k.bus.uartFlags.length) hk
      simp [hf, Board.Bus.record] at hflags
  · exact Crew.step_ne_of_answered hp hs

end Crew

end Kernel

end BareKernel
