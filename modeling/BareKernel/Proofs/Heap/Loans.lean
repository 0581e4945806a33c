import BareKernel.Proofs.Heap.Bytes

/-! The heap's calls as those who hold loans see them. While the loans of all of them together are
exactly what is handed out, a call that is permitted succeeds or finds no room, and it leaves the
bytes of every loan that outlives it. -/

namespace BareKernel

open Heap

namespace Session

variable {s s' : Session} {h : Heap} {p : Plan} {loan other : Loan} {live : List Loan}
  {m : KernelMemory} {size addr align len n : Nat} {bytes : List UInt8}

/-- The heap is in order, and these loans are what it has handed out. -/
def InOrder (s : Session) : Prop := ∃ h p, s.Follows h p

/-- The bytes of loans that last are as they were. -/
def Leaves (s s' : Session) : Prop :=
  ∀ loan ∈ s.live, loan ∈ s'.live → ∀ k < loan.bytes,
    s'.memory.byteAt (loan.addr + k) = s.memory.byteAt (loan.addr + k)

theorem Leaves.numberAt (hl : s.Leaves s') (h : loan ∈ s.live) (h' : loan ∈ s'.live)
    (hlen : len ≤ loan.bytes) :
    s'.memory.numberAt loan.addr len = s.memory.numberAt loan.addr len :=
  KernelMemory.numberAt_congr fun k hk => hl loan h h' k (Nat.lt_of_lt_of_le hk hlen)

namespace InOrder

theorem perm (hs : s.InOrder) (hp : s.live.Perm live) : (Session.mk s.memory live).InOrder := by
  obtain ⟨h, p, hf⟩ := hs
  exact ⟨h, p, hf.perm hp⟩

theorem isInitialised (hs : s.InOrder) : s.memory.isInitialised = true := by
  obtain ⟨h, p, hf⟩ := hs
  rw [KernelMemory.isInitialised, hf.heap]
  rfl

theorem apart (hs : s.InOrder) : s.live.Pairwise Loan.Apart := by
  obtain ⟨h, p, hf⟩ := hs
  exact hf.apart

theorem nodup (hs : s.InOrder) : (s.live.map (·.addr)).Nodup := by
  obtain ⟨h, p, hf⟩ := hs
  exact hf.nodup

theorem addr_ne_zero (hs : s.InOrder) (hl : loan ∈ s.live) : loan.addr ≠ 0 := by
  obtain ⟨h, p, hf⟩ := hs
  obtain ⟨e, -, ha, -⟩ := hf.exists_lent hl
  rw [← ha]
  exact (KernelMemory.payloadOf_ne h.arena.base e.start).2

theorem leaves_step {c : Call} (hf : s.Follows h p) (hc : s.Permitted c)
    (hw : ∀ addr b, c ≠ .write addr b) : s.Leaves (s.step c).2 := by
  intro loan hl hl' k hk
  exact hf.byteAt_step hc hw hl hl' (Nat.lt_of_lt_of_le hk (hf.inside hl).2)

theorem allocate (hs : s.InOrder) (size : Nat) :
    (∃ p, (s.memory.allocate size).1 = .ok p) ∧ (s.step (.allocate size)).2.InOrder ∧
      s.Leaves (s.step (.allocate size)).2 := by
  obtain ⟨h, p, hf⟩ := hs
  obtain ⟨h', hm, -, hf'⟩ := hf.allocate size
  refine ⟨⟨_, congrArg (·.1) hm⟩, ⟨h', _, hf'⟩, leaves_step hf trivial ?_⟩
  intro addr b hc
  cases hc

theorem allocate_none (hs : s.InOrder) (hn : (s.memory.allocate size).1 = .ok none) :
    (s.memory.allocate size).2 = s.memory := by
  obtain ⟨h, p, hf⟩ := hs
  exact (hf.allocate_eq_none size).2 hn

theorem free (hs : s.InOrder) (ha : addr = 0 ∨ addr ∈ s.live.map (·.addr)) :
    (s.memory.free addr).1 = .ok () ∧ (s.step (.free addr)).2.InOrder ∧
      s.Leaves (s.step (.free addr)).2 := by
  obtain ⟨h, p, hf⟩ := hs
  have hp : s.Returnable addr := ha.elim .inl fun ha => .inr (.inr ha)
  obtain ⟨h', hm, -, hf'⟩ := hf.give hp
  have hm := KernelMemory.free_of_tryFree hm
  refine ⟨congrArg (·.1) hm, ⟨h', p.give h.arena.base addr, ?_⟩, leaves_step hf hp ?_⟩
  · simp only [step, hm]
    exact hf'
  · intro addr b hc
    cases hc

/-- Bytes that go into a loan change no other loan. -/
theorem setBytes (hs : s.InOrder) (hl : loan ∈ s.live) (hfits : bytes.length ≤ loan.bytes) :
    (Session.mk (s.memory.setBytes loan.addr bytes) s.live).InOrder ∧
      ∀ other ∈ s.live, other.addr ≠ loan.addr → ∀ k < other.bytes,
        (s.memory.setBytes loan.addr bytes).byteAt (other.addr + k) =
          s.memory.byteAt (other.addr + k) := by
  obtain ⟨h, p, hf⟩ := hs
  have hin := Nat.add_le_add_left hfits loan.addr
  obtain ⟨h', hf', -⟩ := hf.setBytes hl (Nat.le_refl _) hin
  exact ⟨⟨h', p, hf'⟩, fun other ho hne k hk =>
    hf.byteAt_setBytes hl ho hne (Nat.le_refl _) hin hk⟩

/-- A number is read back from the loan that it was written to. -/
theorem numberAt_setNumberAt (hs : s.InOrder) (hl : loan ∈ s.live) (hlen : len ≤ loan.bytes)
    (n : Nat) : (s.memory.setNumberAt loan.addr len n).numberAt loan.addr len = n % 256 ^ len := by
  obtain ⟨h, p, hf⟩ := hs
  exact KernelMemory.numberAt_setNumberAt hf.heap fun k hk =>
    hf.contains hl (Nat.lt_of_lt_of_le hk hlen)

/-- A value moves into a loan of its own, or there is no room and nothing changes. -/
theorem allocateObject (hs : s.InOrder) (align : Nat) (bytes : List UInt8) :
    (∃ e, s.memory.allocateObject align bytes = (.error e, s.memory)) ∨
      ∃ addr m, s.memory.allocateObject align bytes = (.ok addr, m) ∧
        (Session.mk m (⟨addr, max bytes.length 1⟩ :: s.live)).InOrder ∧
        s.Leaves ⟨m, ⟨addr, max bytes.length 1⟩ :: s.live⟩ ∧
        ∀ len n, bytes = KernelMemory.bytesOf len n → m.numberAt addr len = n % 256 ^ len := by
  obtain ⟨⟨r, hr⟩, hin, hleave⟩ := hs.allocate (max bytes.length 1)
  have hnone : (s.memory.allocate (max bytes.length 1)).1 = .ok none →
      (s.memory.allocate (max bytes.length 1)).2 = s.memory := hs.allocate_none
  generalize hm : s.memory.allocate (max bytes.length 1) = q at hr hnone
  obtain ⟨q, m⟩ := q
  obtain rfl : q = .ok r := hr
  simp only [KernelMemory.allocateObject, hm]
  split
  · exact .inl ⟨_, rfl⟩
  cases r with
  | none =>
    obtain rfl : m = s.memory := hnone rfl
    exact .inl ⟨_, rfl⟩
  | some addr =>
    right
    have hstep : (s.step (.allocate (max bytes.length 1))).2 =
        ⟨m, ⟨addr, max bytes.length 1⟩ :: s.live⟩ := by
      simp only [step, hm, grant]
    rw [hstep] at hin hleave
    have hnew : (Loan.mk addr (max bytes.length 1)) ∈
        (Loan.mk addr (max bytes.length 1)) :: s.live := List.mem_cons_self
    obtain ⟨hin', hother⟩ := hin.setBytes hnew (Nat.le_max_left bytes.length 1)
    refine ⟨addr, _, rfl, hin', fun loan hl hl' k hk => ?_, ?_⟩
    · have hne : loan.addr ≠ addr := fun ha =>
        (List.nodup_cons.mp hin.nodup).1 (List.mem_map.mpr ⟨loan, hl, ha⟩)
      have hmem := List.mem_cons_of_mem (Loan.mk addr (max bytes.length 1)) hl
      exact (hother loan hmem hne k hk).trans (hleave loan hl hmem k hk)
    · intro len n h
      subst h
      refine hin.numberAt_setNumberAt hnew ?_ n
      rw [KernelMemory.length_bytesOf]
      exact Nat.le_max_left len 1

end InOrder

/-- The heap starts in order, with nothing handed out. -/
theorem inOrder_init {region : Region} {record : Log.Record} {m' : KernelMemory}
    (hi : m.init region = (.ok record, m')) : (Session.mk m' []).InOrder := by
  obtain ⟨h, hf, -⟩ := follows_init hi
  exact ⟨h, _, hf⟩

/-- A region that is no arena changes nothing. -/
theorem memory_of_init_error {region : Region} {e : Error} {m' : KernelMemory}
    (hi : m.init region = (.error e, m')) : m' = m := by
  obtain ⟨ram, checks, heap⟩ := m
  unfold KernelMemory.init at hi
  grind

end Session

end BareKernel
