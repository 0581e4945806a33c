import BareKernel.Proofs.Heap.Session

/-! What the heap guarantees to clients that keep to what is permitted, after any number of calls:
its tags and its free list stay in order and no call fails; what is handed out is aligned, within
the arena and apart from everything else that is held; and the answers are those of the plan. -/

namespace BareKernel

open Heap

variable {m m' : KernelMemory} {region : Region} {record : Log.Record} {s : Session} {h : Heap}
  {p : Plan} {loan : Loan} {k : Nat} {calls : List Session.Call} {c : Session.Call}

/-! ## A session for example -/

/-- Sixteen units, with the checks on. -/
def smallMemory : KernelMemory where
  ram := .zeroed 4096 16 (by decide) (by decide) (by decide)
  checks := true

def smallRegion : Region := ⟨4096, 128⟩

def smallSession : Session := ⟨(smallMemory.init smallRegion).2, []⟩

/-- Two blocks, bytes written into both, and the first one given back. -/
def smallCalls : List Session.Call :=
  [.allocate 8, .allocate 16, .write 4120 0xFF, .write 4152 0xFF, .free 4120]

/-- Two blocks that stay handed out, with a byte written into each. -/
def twoHeld : List Session.Call :=
  [.allocate 8, .allocate 16, .write 4120 0xAB, .write 4152 0xCD]

/-- As many blocks as there is room for. -/
def threeBlocks : List Session.Call := [.allocate 8, .allocate 8, .allocate 8]

theorem init_small : smallMemory.init smallRegion =
    (.ok (KernelMemory.initRecord 4096 16), smallSession.memory) := rfl

/-! ## Metadata -/

theorem Session.Answer.succeeded_of_perform (p : Plan) (base : Nat) (c : Session.Call) :
    (p.perform base c).1.Succeeded := by
  cases c with
  | allocate size => exact ⟨_, rfl⟩
  | free addr => rfl
  | tryFree addr => rfl
  | write addr b => trivial

theorem Heap.Plan.succeeded_of_mem_run (p : Plan) (base : Nat) (calls : List Session.Call) :
    ∀ a ∈ (p.run base calls).1, a.Succeeded := by
  induction calls generalizing p with
  | nil => exact fun a ha => absurd ha List.not_mem_nil
  | cons c calls ih =>
    intro a ha
    rcases List.mem_cons.mp ha with rfl | ha
    · exact Session.Answer.succeeded_of_perform p base c
    · exact ih _ a ha

/-- After any permitted calls, none of which fails, the tags tile the arena between its sentinels,
no two neighbours are free, and the free list links exactly the free blocks, both ways. Nothing
outside the arena has changed. -/
theorem Session.metadata_in_order (hi : m.init region = (.ok record, m'))
    (hp : (Session.mk m' []).Permits calls) :
    (∀ a ∈ ((Session.mk m' []).run calls).1, a.Succeeded) ∧
      ∃ h p inner, ((Session.mk m' []).run calls).2.memory = { m with heap := some h } ∧
        h.arena.base = region.base ∧ h.arena.len = m.ram.bytesWithin region / unitBytes ∧
        h.Represents p ∧ p.blocks = .leading :: inner ++ [.trailing h.arena.len] ∧
        ∀ e ∈ inner, minBlockUnits ≤ e.size := by
  obtain ⟨h₀, hf₀, hm₀, hb₀, hl₀, hmin⟩ := Session.follows_init hi
  obtain ⟨h, ha, hm, hf, hb, hl⟩ := hf₀.run hp
  obtain ⟨inner, hin⟩ := hf.represents.valid.exists_inner (hl ▸ hmin)
  refine ⟨ha ▸ Plan.succeeded_of_mem_run _ _ _, h, _, inner, ?_, hb.trans hb₀, hl.trans hl₀,
    hf.represents, hin⟩
  rw [hm, hm₀]

theorem Session.metadata_in_order_small : smallSession.Permits smallCalls ∧
    ∀ a ∈ (smallSession.run smallCalls).1, a.Succeeded :=
  have hp : smallSession.Permits smallCalls := by decide +kernel
  ⟨hp, (metadata_in_order init_small hp).1⟩

/-! ## Payloads -/

/-- The bytes that were asked for have none in common with those of the other loan. -/
def Loan.Apart (a b : Loan) : Prop := a.addr + a.bytes ≤ b.addr ∨ b.addr + b.bytes ≤ a.addr

/-- Aligned, and strictly between the sentinels of the arena. -/
structure Loan.Inside (loan : Loan) (base len : Nat) : Prop where
  aligned : loan.addr % payloadAlign = 0
  after : base + sentinelUnits * unitBytes < loan.addr
  before : loan.addr + loan.bytes < base + (len - sentinelUnits) * unitBytes

namespace Session.Follows

theorem inside (hf : s.Follows h p) (hl : loan ∈ s.live) :
    loan.Inside h.arena.base h.arena.len ∧ loan.bytes ≤ s.payloadBytes loan.addr := by
  obtain ⟨e, he, ha, hb⟩ := hf.exists_lent hl
  have hv := hf.represents.valid
  have hsize : 4 ≤ e.size := he.2.2
  have hbetween := hv.between he.1 he.2.2
  have hal := h.arena.base_aligned
  rw [← ha, hf.payloadBytes_eq he]
  refine ⟨⟨?_, ?_, ?_⟩, hb⟩ <;>
    simp only [← ha, payloadOf, payloadAlign, unitBytes, tagUnits, sentinelUnits,
      Extent.stop] at * <;> omega

theorem apart (hf : s.Follows h p) : s.live.Pairwise Loan.Apart := by
  refine (List.pairwise_map.mp hf.nodup).imp_of_mem fun {a b} ha hb hab => ?_
  obtain ⟨e, he, hea, hba⟩ := hf.exists_lent ha
  obtain ⟨f, hfl, hfb, hbb⟩ := hf.exists_lent hb
  have hef : e ≠ f := fun h => hab (hea.symm.trans (h ▸ hfb))
  have := (hf.represents.valid.apart he.1 hfl.1).resolve_left hef
  unfold Loan.Apart
  simp only [← hea, ← hfb, payloadOf, unitBytes, tagUnits, Extent.stop] at *
  omega

/-- A call that is no write leaves the payload of every block that stays handed out. -/
theorem byteAt_step (hf : s.Follows h p) (hc : s.Permitted c) (hw : ∀ addr b, c ≠ .write addr b)
    (hl : loan ∈ s.live) (hl' : loan ∈ (s.step c).2.live) (hk : k < s.payloadBytes loan.addr) :
    (s.step c).2.memory.byteAt (loan.addr + k) = s.memory.byteAt (loan.addr + k) := by
  obtain ⟨h', -, -, hf', hb, hlen, hs⟩ := hf.step hc
  obtain ⟨e, he, ha, -⟩ := hf.exists_lent hl
  obtain ⟨f, hfl, ha', -⟩ := hf'.exists_lent hl'
  rw [hb, ← ha] at ha'
  obtain ⟨-, hu⟩ := (hs hw).stays e f he hfl (payloadOf_inj ha')
  rw [← ha, hf.payloadBytes_eq he] at hk
  rw [← ha]
  have h₁ := Nat.le_add_right (payloadOf h.arena.base e.start) k
  have h₂ := Nat.add_lt_add_left hk (payloadOf h.arena.base e.start)
  obtain ⟨-, h₃, h₄⟩ := unit_of_payload h₁ h₂
  exact KernelMemory.byteAt_congr hf.heap hf'.heap hb hlen
    (KernelMemory.contains_payload hf.represents he.1 h₁ h₂) (hu _ h₃.le (Nat.lt_of_succ_lt h₄))

/-- What is handed out next is apart from all that is held. -/
theorem allocate_apart (hf : s.Follows h p) {size addr : Nat}
    (ha : (s.memory.allocate size).1 = .ok (some addr)) :
    (Loan.mk addr size).Inside h.arena.base h.arena.len ∧
      ∀ loan ∈ s.live, (Loan.mk addr size).Apart loan := by
  obtain ⟨h', -, hs, hf'⟩ := hf.allocate size
  have hlive : (s.step (.allocate size)).2.live = ⟨addr, size⟩ :: s.live := by
    change Session.grant s.live size (s.memory.allocate size).1 = _
    rw [ha]
    rfl
  have hin := (hf'.inside (hlive ▸ List.mem_cons_self)).1
  rw [hs.base, hs.len] at hin
  exact ⟨hin, (List.pairwise_cons.mp (hlive ▸ hf'.apart)).1⟩

end Session.Follows

/-- After any permitted calls, what is held is aligned, within the arena and apart from all else
that is held, and so is what is handed out next; an allocation or a release leaves every byte of
the payloads that are held before and after it. -/
theorem Session.payloads_apart_and_kept (hi : m.init region = (.ok record, m'))
    (hp : (Session.mk m' []).Permits calls) (hs : ((Session.mk m' []).run calls).2 = s) :
    (∀ loan ∈ s.live, loan.Inside region.base (m.ram.bytesWithin region / unitBytes) ∧
        loan.bytes ≤ s.payloadBytes loan.addr) ∧
      s.live.Pairwise Loan.Apart ∧
      (∀ size addr, (s.memory.allocate size).1 = .ok (some addr) →
        (Loan.mk addr size).Inside region.base (m.ram.bytesWithin region / unitBytes) ∧
          ∀ loan ∈ s.live, (Loan.mk addr size).Apart loan) ∧
      ∀ c, s.Permitted c → (∀ addr b, c ≠ .write addr b) →
        ∀ loan ∈ s.live, loan ∈ (s.step c).2.live → ∀ k < s.payloadBytes loan.addr,
          (s.step c).2.memory.byteAt (loan.addr + k) = s.memory.byteAt (loan.addr + k) := by
  obtain ⟨h₀, hf₀, -, hb₀, hl₀, -⟩ := Session.follows_init hi
  obtain ⟨h, -, -, hf, hb, hl⟩ := hf₀.run hp
  rw [hs] at hf
  rw [← hl₀, ← hl, ← hb₀, ← hb]
  exact ⟨fun loan => hf.inside, hf.apart, fun size addr => hf.allocate_apart,
    fun c hc hw loan hl hl' k hk => hf.byteAt_step hc hw hl hl' hk⟩

theorem Session.payloads_apart_and_kept_small : smallSession.Permits twoHeld ∧
    (smallSession.run twoHeld).2.live = [⟨4152, 16⟩, ⟨4120, 8⟩] ∧
    Loan.Apart ⟨4152, 16⟩ ⟨4120, 8⟩ ∧
    (∀ loan ∈ (smallSession.run twoHeld).2.live, (Loan.mk 4184 8).Apart loan) ∧
    ((smallSession.run twoHeld).2.step (.free 4120)).2.memory.byteAt 4152 = 0xCD := by
  have hp : smallSession.Permits twoHeld := by decide +kernel
  have hlive : (smallSession.run twoHeld).2.live = [⟨4152, 16⟩, ⟨4120, 8⟩] := by decide +kernel
  obtain ⟨-, hapart, hnext, hkept⟩ := payloads_apart_and_kept init_small hp rfl
  have hpair : [(⟨4152, 16⟩ : Loan), ⟨4120, 8⟩].Pairwise Loan.Apart := hlive ▸ hapart
  refine ⟨hp, hlive, List.rel_of_pairwise_cons hpair List.mem_cons_self,
    (hnext 8 4184 rfl).2, ?_⟩
  have hfree : (smallSession.run twoHeld).2.Permitted (.free 4120) := by decide +kernel
  refine (hkept _ hfree (by simp) ⟨4152, 16⟩ ?_ ?_ 0 (by decide +kernel)).trans (by decide +kernel)
  · exact hlive ▸ List.mem_cons_self
  · decide +kernel

/-! ## Answers -/

/-- The heap's sizes are the plan's. -/
theorem Heap.Represents.sizeAt_of_avail (hr : h.Represents p) {i : Nat} (hi : i ∈ p.avail) :
    h.sizeAt i = p.sizeAt i := by
  obtain ⟨e, he, -, rfl, -⟩ := hr.valid.exists_of_avail hi
  rw [(hr.tagged e he).sizeAt_eq, hr.valid.sizeAt_eq he]

/-- A request gets nothing when no node that is looked at holds what it needs. -/
theorem Session.Follows.allocate_eq_none (hf : s.Follows h p) (size : Nat) :
    ((s.memory.allocate size).1 = .ok none ↔
        size = 0 ∨ 2 ^ 60 ≤ Plan.unitsNeeded size ∨
          ∀ i ∈ p.avail.take 20, h.sizeAt i < Plan.unitsNeeded size) ∧
      ((s.memory.allocate size).1 = .ok none → (s.memory.allocate size).2 = s.memory) := by
  obtain ⟨h', hm, -⟩ := hf.allocate size
  have hsize : (∀ i ∈ p.avail.take 20, h.sizeAt i < Plan.unitsNeeded size) ↔
      ∀ i ∈ p.avail.take 20, p.sizeAt i < Plan.unitsNeeded size :=
    forall₂_congr fun i hi => by rw [hf.represents.sizeAt_of_avail (List.mem_of_mem_take hi)]
  have hnone : (s.memory.allocate size).1 = .ok none ↔ (p.allocate size).1 = none := by
    rw [hm]
    simp
  refine ⟨?_, fun hn => ?_⟩
  · rw [hnone, Plan.allocate_eq_none, hsize]
  · rw [KernelMemory.allocate_none hf.heap hf.represents (hnone.mp hn)]

/-- Permitted calls are answered as the plan of the arena answers them, and the plan that follows
is the one in memory. A request gets nothing exactly when it is empty, too large for any heap, or
when none of the first twenty nodes of the free list holds what it needs, and then nothing
changes. -/
theorem Session.run_eq_plan (hi : m.init region = (.ok record, m'))
    (hp : (Session.mk m' []).Permits calls) (hs : ((Session.mk m' []).run calls).2 = s) :
    let planned := (Plan.initial (m.ram.bytesWithin region / unitBytes)).run region.base calls
    ((Session.mk m' []).run calls).1 = planned.1 ∧
      ∃ h, s.memory = { m with heap := some h } ∧ h.Represents planned.2 ∧
        ∀ size, ((s.memory.allocate size).1 = .ok none ↔
            size = 0 ∨ 2 ^ 60 ≤ Plan.unitsNeeded size ∨
              ∀ i ∈ planned.2.avail.take 20, h.sizeAt i < Plan.unitsNeeded size) ∧
          ((s.memory.allocate size).1 = .ok none → (s.memory.allocate size).2 = s.memory) := by
  obtain ⟨h₀, hf₀, hm₀, hb₀, hl₀, -⟩ := Session.follows_init hi
  obtain ⟨h, ha, hm, hf, -, -⟩ := hf₀.run hp
  rw [hs] at hf hm
  rw [← hl₀, ← hb₀]
  refine ⟨ha, h, ?_, hf.represents, hf.allocate_eq_none⟩
  rw [hm, hm₀]

theorem Session.run_eq_plan_small : smallSession.Permits smallCalls ∧
    (smallSession.run smallCalls).1 = [.allocated (.ok (some 4120)), .allocated (.ok (some 4152)),
      .written, .written, .freed (.ok ())] ∧
    ((smallSession.run smallCalls).2.memory.allocate 17).1 = .ok none := by
  have hp : smallSession.Permits smallCalls := by decide +kernel
  obtain ⟨ha, h, hm, -, hn⟩ := run_eq_plan init_small hp rfl
  -- two blocks of four units are free, and 17 bytes take five
  have hfree : ((Plan.initial 16).run 4096 smallCalls).2.avail = [2, 10] := by decide +kernel
  have hsizes : ∀ g ∈ (smallSession.run smallCalls).2.memory.heap,
      ∀ i ∈ [2, 10].take 20, g.sizeAt i < Plan.unitsNeeded 17 := by decide +kernel
  refine ⟨hp, ha.trans rfl, (hn 17).1.mpr (.inr (.inr ?_))⟩
  exact hfree ▸ hsizes h (congrArg KernelMemory.heap hm)

end BareKernel
