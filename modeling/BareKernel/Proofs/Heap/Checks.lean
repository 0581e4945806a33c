import BareKernel.Proofs.Heap.Guarantees

/-! The consistency checks. A client that keeps to what is permitted cannot tell whether they are
on: every block that a checked operation looks at has two tags that agree, for a tag is out of the
client's reach, so no check fails, and a check that does not fail changes nothing. -/

namespace BareKernel

open Heap

variable {m m' : KernelMemory} {h : Heap} {p : Plan} {s : Session} {addr units : Nat}
  {region : Region} {record : Log.Record} {calls : List Session.Call} {c : Session.Call}
  {on : Bool}

/-! ## Heap code -/

/-- The search for a block comes out the same. -/
theorem Heap.Represents.takePayload_checks (hr : h.Represents p) (hu : minBlockUnits ≤ units)
    (on off : Bool) : (takePayload on h.arena.base h.arena.len units).run h =
      (takePayload off h.arena.base h.arena.len units).run h := by
  cases hb : p.bestFit units with
  | none =>
    have hret : ∀ checks,
        (takePayload checks h.arena.base h.arena.len units).Returns h none h :=
      fun checks => .bind (hr.takeFit_none hb checks) (.pure _ h)
    exact (hret on).trans (hret off).symm
  | some i =>
    obtain ⟨e, he, -, rfl, -⟩ :=
      hr.valid.exists_of_avail (List.mem_of_mem_take (Plan.mem_of_bestFit hb).1)
    obtain ⟨h', hfit, -⟩ := hr.takeFit_some hu he hb
    have hret : ∀ checks, (takePayload checks h.arena.base h.arena.len units).Returns h
        (some (payloadOf h.arena.base e.start)) h' :=
      fun checks => .bind (hfit checks) (.pure _ h')
    exact (hret on).trans (hret off).symm

/-- So does a release, of a block that was handed out or of none. -/
theorem Heap.Represents.givePayload_checks (hr : h.Represents p)
    (ha : addr = h.arena.base ∨ ∃ e, p.Lent e ∧ payloadOf h.arena.base e.start = addr)
    (on off : Bool) : (givePayload on h.arena.base h.arena.len addr).run h =
      (givePayload off h.arena.base h.arena.len addr).run h := by
  rcases ha with rfl | ⟨e, he, rfl⟩
  · simp only [givePayload, if_true]
  · obtain ⟨h', hret, -⟩ := hr.giveBack_returns he.1 he.2.2 he.2.1
    have hne := (KernelMemory.payloadOf_ne h.arena.base e.start).1
    simp only [givePayload, hne, if_false]
    exact (hret on).trans (hret off).symm

/-! ## The kernel's memory -/

namespace KernelMemory

/-- The same memory, with the checks on or off. -/
def withChecks (m : KernelMemory) (on : Bool) : KernelMemory := { m with checks := on }

@[simp] theorem checks_withChecks : (m.withChecks on).checks = on := rfl

@[simp] theorem isInitialised_withChecks : (m.withChecks on).isInitialised = m.isInitialised := rfl

theorem perform_withChecks {α : Type} {code code' : Memory → Action α} (hh : m.heap = some h)
    (hrun : (code h.arena).run h = (code' h.arena).run h) :
    (m.withChecks on).perform code =
      ((m.perform code').1, (m.perform code').2.withChecks on) := by
  rw [perform_run code (m := m.withChecks on) hh, perform_run code' hh, hrun]
  rfl

theorem init_withChecks (hi : m.init region = (.ok record, m')) :
    (m.withChecks on).init region = (.ok record, m'.withChecks on) := by
  obtain ⟨ram, checks, heap⟩ := m
  cases heap with
  | some h => simp [init] at hi
  | none =>
    simp only [init, withChecks] at hi ⊢
    split at hi
    · simp at hi
    split at hi
    · simp at hi
    obtain ⟨hr, rfl⟩ := Prod.mk.inj hi
    simp [*]

theorem allocate_withChecks (hh : m.heap = some h) (hr : h.Represents p) (size : Nat) :
    (m.withChecks on).allocate size =
      ((m.allocate size).1, (m.allocate size).2.withChecks on) := by
  by_cases h₀ : (size = 0 || !m.isInitialised) = true
  · simp only [allocate, isInitialised_withChecks, h₀, if_true]
  cases hu : unitsFor size with
  | none => simp only [allocate, isInitialised_withChecks, h₀, hu, if_false, Bool.false_eq_true]
  | some units =>
    have hrun := hr.takePayload_checks (minBlockUnits_le_of_unitsFor hu) on m.checks
    have hp : (m.withChecks on).perform (fun arena => takePayload on arena.base arena.len units) =
        ((m.perform fun arena => takePayload m.checks arena.base arena.len units).1,
          (m.perform fun arena => takePayload m.checks arena.base arena.len units).2.withChecks
            on) := perform_withChecks hh hrun
    simp only [allocate, isInitialised_withChecks, checks_withChecks, h₀, hu, hp, if_false,
      Bool.false_eq_true]
    rcases (m.perform fun arena => takePayload m.checks arena.base arena.len units).1 with
      (_ | _) | _ <;> rfl

theorem tryFree_withChecks (hh : m.heap = some h) (hr : h.Represents p)
    (ha : (addr = 0 ∨ addr = h.arena.base) ∨
      ∃ e, p.Lent e ∧ payloadOf h.arena.base e.start = addr) :
    (m.withChecks on).tryFree addr = ((m.tryFree addr).1, (m.tryFree addr).2.withChecks on) := by
  unfold tryFree
  simp only [checks_withChecks]
  split
  · rfl
  · rename_i h₀
    have ha : addr = h.arena.base ∨ ∃ e, p.Lent e ∧ payloadOf h.arena.base e.start = addr :=
      ha.imp_left fun h => h.resolve_left h₀
    exact perform_withChecks hh (hr.givePayload_checks ha on m.checks)

theorem free_withChecks
    (ht : (m.withChecks on).tryFree addr =
      ((m.tryFree addr).1, (m.tryFree addr).2.withChecks on)) :
    (m.withChecks on).free addr = ((m.free addr).1, (m.free addr).2.withChecks on) := by
  rw [free, free, ht]
  rcases m.tryFree addr with ⟨(_ | _) | _, m₁⟩ <;> rfl

theorem setByte_withChecks (b : UInt8) :
    (m.withChecks on).setByte addr b = (m.setByte addr b).withChecks on := by
  obtain ⟨ram, checks, heap⟩ := m
  cases heap with
  | none => rfl
  | some h =>
    simp only [withChecks, setByte]
    split <;> rfl

end KernelMemory

/-! ## Sessions -/

namespace Session

def withChecks (s : Session) (on : Bool) : Session := ⟨s.memory.withChecks on, s.live⟩

/-- One permitted call gets the same answer and does the same. -/
theorem Follows.step_withChecks (hf : s.Follows h p) (hp : s.Permitted c) :
    (s.withChecks on).step c = ((s.step c).1, (s.step c).2.withChecks on) := by
  have hfree : ∀ {addr}, s.Returnable addr → (s.memory.withChecks on).tryFree addr =
      ((s.memory.tryFree addr).1, (s.memory.tryFree addr).2.withChecks on) :=
    fun ha => KernelMemory.tryFree_withChecks hf.heap hf.represents (hf.returnable_cases ha)
  cases c with
  | allocate size =>
    simp only [Session.step, withChecks, KernelMemory.allocate_withChecks hf.heap hf.represents size]
  | free addr =>
    simp only [Session.step, withChecks, KernelMemory.free_withChecks (hfree hp)]
  | tryFree addr =>
    simp only [Session.step, withChecks, hfree hp]
  | write addr b =>
    simp only [Session.step, withChecks, KernelMemory.setByte_withChecks]

theorem Follows.run_withChecks (hf : s.Follows h p) (hp : s.Permits calls) :
    (s.withChecks on).run calls = ((s.run calls).1, (s.run calls).2.withChecks on) := by
  induction calls generalizing s h p with
  | nil => rfl
  | cons c calls ih =>
    obtain ⟨hc, hp⟩ := hp
    obtain ⟨h₁, -, -, hf₁, -⟩ := hf.step hc
    simp only [Session.run, hf.step_withChecks hc, ih hf₁ hp]

theorem Permits.take (hp : s.Permits calls) (n : Nat) : s.Permits (calls.take n) := by
  induction calls generalizing s n with
  | nil => simpa using hp
  | cons c calls ih =>
    cases n with
    | zero => trivial
    | succ n => exact ⟨hp.1, ih hp.2 n⟩

/-- Two memories that are equal but for the setting are set up alike, and after each of the same
permitted calls both have given the same answers and hold the same bytes, the same free list and
the same counts. -/
theorem checks_transparent (hi : m.init region = (.ok record, m'))
    (hp : (Session.mk m' []).Permits calls) (on : Bool) :
    (m.withChecks on).init region = (.ok record, m'.withChecks on) ∧
      ∀ n, (Session.mk (m'.withChecks on) []).run (calls.take n) =
        (((Session.mk m' []).run (calls.take n)).1,
          ((Session.mk m' []).run (calls.take n)).2.withChecks on) := by
  obtain ⟨h, hf, -⟩ := Session.follows_init hi
  exact ⟨KernelMemory.init_withChecks hi, fun n => hf.run_withChecks (hp.take n)⟩

theorem checks_transparent_small : smallMemory.checks = true ∧ smallSession.Permits smallCalls ∧
    (smallSession.withChecks false).run smallCalls =
      ((smallSession.run smallCalls).1, (smallSession.run smallCalls).2.withChecks false) :=
  have hp : smallSession.Permits smallCalls := by decide +kernel
  ⟨rfl, hp, (checks_transparent init_small hp false).2 smallCalls.length⟩

end Session

end BareKernel
